import SfcTsx.Proofs.Order
import SfcTsx.Proofs.View.Tree

namespace SfcTsx

variable {lo n : Nat}

namespace View

section
variable {source : Text}

namespace Loop

variable {p : Part} {found : Part × Option Part} {l : Loop} {hi base : Nat} {s : Span} {expression : Text}

/-- A part of an expression stands between two offsets. -/
structure Part.In (source : Text) (lo hi : Nat) (p : Part) : Prop where
  lo_le : lo ≤ p.start
  le_hi : p.start + p.text.size ≤ hi
  text : ∃ rest, source.At p.start (p.text ++ rest)

/-- Parts one behind the other between two offsets. -/
structure InRow (source : Text) (lo hi : Nat) (ps : List Part) : Prop where
  le : lo ≤ hi
  inside : ∀ p ∈ ps, p.In source lo hi
  ordered : ps.Pairwise fun p q => p.start + p.text.size ≤ q.start

theorem InRow.nil (h : lo ≤ hi) : InRow source lo hi [] := ⟨h, by simp, .nil⟩

theorem InRow.single (h : p.In source lo hi) : InRow source lo hi [p] := by
  obtain ⟨hlo, hhi, -⟩ := id h
  exact ⟨by omega, by simpa using h, List.pairwise_singleton _ _⟩

theorem InRow.append {mid : Nat} {ps qs : List Part} (h : InRow source lo mid ps)
    (h' : InRow source mid hi qs) : InRow source lo hi (ps ++ qs) := by
  have hle := h.le
  have hle' := h'.le
  refine ⟨by omega, fun p hp => ?_, List.pairwise_append.mpr ⟨h.ordered, h'.ordered, fun p hp q hq => ?_⟩⟩
  · rcases List.mem_append.mp hp with hp | hp
    · obtain ⟨h₁, h₂, htext⟩ := h.inside p hp
      exact ⟨h₁, by omega, htext⟩
    · obtain ⟨h₁, h₂, htext⟩ := h'.inside p hp
      exact ⟨by omega, h₂, htext⟩
  · exact Nat.le_trans (h.inside p hp).le_hi (h'.inside q hq).lo_le

theorem Part.In.of_append {s t u : Text} (h : Part.In source lo hi ⟨n, s ++ (t ++ u)⟩) :
    Part.In source lo hi ⟨n + s.size, t⟩ := by
  obtain ⟨hlo, hhi, rest, hat⟩ := h
  simp only [List.append_assoc, Text.size_append] at hat hhi hlo
  refine ⟨?_, ?_, u ++ rest, hat.skip⟩
  · simp only
    omega
  · simp only
    omega

theorem Part.In.trim (h : p.In source lo hi) : p.trim.In source lo hi := by
  have htrim : p.text = p.text.takeWhile Text.isSpace ++ (Text.trim p.text ++
      ((Text.trimStart p.text).reverse.takeWhile Text.isSpace).reverse) := by
    rw [Text.trim, Text.trimEnd, ← List.reverse_append, List.takeWhile_append_dropWhile,
      List.reverse_reverse, Text.trimStart, List.takeWhile_append_dropWhile]
  have h' : Part.In source lo hi ⟨p.start, p.text⟩ := h
  rw [htrim] at h'
  exact h'.of_append

theorem Part.In.unwrap (h : p.In source lo hi) : p.unwrap.In source lo hi := by
  have hclose : ∀ q : Part, q.In source lo hi → Part.In source lo hi
      (if q.text.getLast? = some ')' then { q with text := q.text.dropLast } else q) := by
    intro q hq
    split
    next hlast =>
      obtain ⟨n, text⟩ := q
      obtain ⟨t, rfl⟩ := List.getLast?_eq_some_iff.mp hlast
      simp only [List.dropLast_concat]
      exact Part.In.of_append (s := []) hq
    next => exact hq
  unfold Part.unwrap
  apply hclose
  split
  next rest hp =>
    have h' : Part.In source lo hi ⟨p.start, ['('] ++ (rest ++ [])⟩ := by
      simpa [← hp] using h
    exact h'.of_append
  next => exact h

theorem Part.span?_eq_some (hs : p.span? = some s) :
    p.trim.text ≠ [] ∧ s = ⟨p.trim.start, p.trim.start + p.trim.text.size⟩ := by
  unfold Part.span? at hs
  dsimp only at hs
  split at hs
  · cases hs
  next hne => exact ⟨by simpa using hne, (Option.some.inj hs).symm⟩

def separators : List Text := ["in".toList, "of".toList]

theorem afterSeparator?_eq_some {text after : Text} (h : afterSeparator? text = some after) :
    ∃ blanks x w y more, text = blanks ++ (x :: (w ++ [y])) ++ (more ++ after) ∧
      (∀ b ∈ blanks, Text.isSpace b = true) ∧ Text.isSpace x = true ∧ w ∈ separators ∧
      Text.isSpace y = true := by
  simp only [afterSeparator?] at h
  split at h
  next hif =>
    obtain rfl := Option.some.inj h
    simp only [Bool.and_eq_true, Bool.or_eq_true, beq_iff_eq, Option.any_eq_true] at hif
    obtain ⟨⟨⟨⟨c, hc, hspace⟩, hword⟩, y, hy, hyspace⟩, -⟩ := hif
    obtain ⟨t, rfl⟩ := List.head?_eq_some_iff.mp hc
    obtain ⟨tail, htail⟩ := List.head?_eq_some_iff.mp hy
    -- the white space in front of the word ends with one of its characters
    obtain ⟨blanks, x, hblanks⟩ : ∃ blanks x, (c :: t).takeWhile Text.isSpace = blanks ++ [x] :=
      ⟨_, _, (List.dropLast_concat_getLast (by simp [hspace])).symm⟩
    have hall : ∀ b ∈ blanks ++ [x], Text.isSpace b = true := fun b hb =>
      List.mem_takeWhile_imp (hblanks ▸ hb)
    refine ⟨blanks, x, _, y, tail.takeWhile Text.isSpace, ?_, fun b hb => hall b (by simp [hb]),
      hall x (by simp), by simpa [separators] using hword, hyspace⟩
    have htext : c :: t = (blanks ++ [x]) ++ (((c :: t).dropWhile Text.isSpace).take 2 ++ (y :: tail)) := by
      rw [← htail, List.take_append_drop, ← hblanks, List.takeWhile_append_dropWhile]
    rw [htail, List.dropWhile_cons_of_pos hyspace, List.takeWhile_append_dropWhile]
    simpa using htext
  next => cases h

theorem cut?_cons (c : Char) (cs : Text) : cut? (c :: cs) = match afterSeparator? (c :: cs) with
      | some source => some ([], source)
      | none => (cut? cs).map fun (aliases, source) => (c :: aliases, source) := by
  rfl

theorem cut?_eq_some {aliases after : Text} (h : cut? expression = some (aliases, after)) :
    ∃ sep, expression = aliases ++ (sep ++ after) := by
  induction expression generalizing aliases with
  | nil =>
    have h : (none : Option (Text × Text)) = some (aliases, after) := h
    cases h
  | cons c cs ih =>
    rw [cut?_cons] at h
    split at h
    next s hs =>
      obtain ⟨rfl, rfl⟩ := Prod.mk.inj (Option.some.inj h)
      obtain ⟨blanks, x, w, y, more, htext, -⟩ := afterSeparator?_eq_some hs
      exact ⟨blanks ++ (x :: (w ++ [y])) ++ more, by rw [htext, List.nil_append, List.append_assoc _ more]⟩
    next =>
      obtain ⟨⟨a, s⟩, hcut, heq⟩ := Option.map_eq_some_iff.mp h
      obtain ⟨rfl, rfl⟩ := Prod.mk.inj heq
      obtain ⟨sep, hsep⟩ := ih hcut
      exact ⟨sep, by rw [hsep, List.cons_append]⟩

theorem iterators?_cases {t : Text} (h : iterators? n t = some found) :
    (∃ key, t = ',' :: key ∧ found = (⟨n + 1, key⟩, none) ∧ ∀ c ∈ key, isIterator c = true) ∨
      ∃ key index, t = ',' :: (key ++ ',' :: index) ∧
        found = (⟨n + 1, key⟩, some ⟨n + 1 + Text.size key + 1, index⟩) ∧
        ∀ c ∈ key ++ index, isIterator c = true := by
  unfold iterators? at h
  split at h
  next rest =>
    have hsplit := List.takeWhile_append_dropWhile (p := isIterator) (l := rest)
    have hkey : ∀ c ∈ rest.takeWhile isIterator, isIterator c = true := fun c => List.mem_takeWhile_imp
    split at h
    next hdrop =>
      rw [hdrop, List.append_nil] at hsplit
      rw [hsplit] at h hkey
      exact .inl ⟨rest, rfl, (Option.some.inj h).symm, hkey⟩
    next index hdrop =>
      split at h
      next hindex =>
        rw [hdrop] at hsplit
        refine .inr ⟨_, index, by rw [hsplit], (Option.some.inj h).symm, fun c hc => ?_⟩
        exact (List.mem_append.mp hc).elim (hkey c) (List.all_eq_true.mp hindex c)
      next => cases h
    next => cases h
  next => cases h

theorem iterators?_inRow {text : Text} (h : iterators? n text = some found)
    (hin : Part.In source n hi ⟨n, text⟩) : InRow source n hi (found.1 :: found.2.toList) := by
  have hcomma : Text.size [','] = 1 := rfl
  rcases iterators?_cases h with ⟨key, rfl, rfl, -⟩ | ⟨key, index, rfl, rfl, -⟩
  · have hkey : Part.In source n hi ⟨n, [','] ++ (key ++ [])⟩ := by simpa using hin
    exact .single hkey.of_append
  · have hkey := Part.In.of_append (s := [',']) hin
    have hindex : Part.In source n hi ⟨n, ([','] ++ (key ++ [','])) ++ (index ++ [])⟩ := by simpa using hin
    replace hindex := hindex.of_append
    simp only [Text.size_append, hcomma, ← Nat.add_assoc] at hindex
    have hfirst : InRow source n (n + 1 + Text.size key) [⟨n + 1, key⟩] :=
      .single ⟨hkey.lo_le, Nat.le_refl _, hkey.text⟩
    refine hfirst.append (.single ?_)
    exact ⟨by simp only; omega, hindex.le_hi, hindex.text⟩

theorem splitAliases_eq (n : Nat) (text : Text) : ∃ rest, text = (splitAliases n text).1 ++ rest ∧
      (splitAliases n text).2 = iterators? (n + (splitAliases n text).1.size) rest := by
  induction text generalizing n with
  | nil => exact ⟨[], rfl, rfl⟩
  | cons c cs ih =>
    unfold splitAliases
    split
    next found hfound => exact ⟨c :: cs, rfl, hfound.symm⟩
    next =>
      obtain ⟨rest, htext, hfound⟩ := ih (n + c.utf8Size)
      refine ⟨rest, ?_, ?_⟩
      · rw [List.cons_append, ← htext]
      · rw [hfound, Text.size_cons, Nat.add_assoc]

def row (l : Loop) : List Span :=
  l.value.toList ++ (l.key.toList ++ (l.index.toList ++ [l.source]))

theorem mem_spans : s ∈ l.spans ↔ s ∈ l.row := by
  simp only [spans, row, mem_sortOn, List.filterMap_cons, List.mem_append]
  cases l.value <;> cases l.key <;> cases l.index <;> simp [or_assoc]

theorem parse?_inRow {rest : Text} (h : parse? expression base = some l)
    (hat : source.At base (expression ++ rest)) :
    ∃ ps, l.row = ps.flatMap (·.span?.toList) ∧ InRow source base (base + expression.size) ps := by
  unfold parse? at h
  obtain ⟨⟨aliases, after⟩, hcut, h⟩ := Option.bind_eq_some_iff.mp h
  obtain ⟨s, hs, h⟩ := Option.bind_eq_some_iff.mp h
  obtain rfl := Option.some.inj h
  obtain ⟨sep, rfl⟩ := cut?_eq_some hcut
  have hsize : (aliases ++ (sep ++ after)).size = aliases.size + sep.size + after.size := by
    simp [Nat.add_assoc]
  rw [hsize] at hs ⊢
  -- the source of the loop stands behind the separator
  have hsource : Part.In source (base + aliases.size) (base + (aliases.size + sep.size + after.size))
      ⟨base + (aliases.size + sep.size + after.size - after.size), after⟩ := by
    have hat' : source.At base ((aliases ++ sep) ++ (after ++ rest)) := by simpa using hat
    have hskip := hat'.skip
    rw [Text.size_append] at hskip
    refine ⟨by simp only; omega, by simp only; omega, rest, ?_⟩
    rwa [Nat.add_sub_cancel]
  have haliases : Part.In source base (base + aliases.size) (Part.trim ⟨base, aliases⟩).unwrap :=
    Part.In.unwrap (Part.In.trim ⟨Nat.le_refl _, Nat.le_refl _, _, by simpa using hat⟩)
  generalize (Part.trim ⟨base, aliases⟩).unwrap = p at haliases ⊢
  obtain ⟨hlo, hhi, more, hmore⟩ := haliases
  obtain ⟨behind, htext, hfound⟩ := splitAliases_eq p.start p.text
  generalize (splitAliases p.start p.text).1 = value at htext hfound ⊢
  rw [htext] at hmore hhi
  rw [Text.size_append] at hhi
  have hvalue : Part.In source base (p.start + value.size) ⟨p.start, value⟩ :=
    ⟨hlo, Nat.le_refl _, _, by simpa using hmore⟩
  have hrest : Part.In source (p.start + value.size) (base + aliases.size)
      ⟨p.start + value.size, behind⟩ := by
    rw [List.append_assoc] at hmore
    exact ⟨Nat.le_refl _, by simp only; omega, more, hmore.skip⟩
  rw [hfound]
  generalize (⟨_, after⟩ : Part) = q at hs hsource
  cases hit : iterators? (p.start + value.size) behind with
  | none =>
    refine ⟨_, ?_, (InRow.single hvalue).append ((InRow.nil (by omega)).append (.single hsource))⟩
    simp [row, hs]
  | some found =>
    refine ⟨_, ?_, (InRow.single hvalue).append ((iterators?_inRow hit hrest).append (.single hsource))⟩
    cases hi : found.2 <;> simp [row, hs, hi]

theorem Part.In.spanPlaced (h : p.In source lo hi) (hs : p.span? = some s) :
    SpanPlaced source s ∧ lo ≤ s.start ∧ s.stop ≤ hi := by
  obtain ⟨hlo, hhi, rest, hat⟩ := h.trim
  obtain ⟨hne, rfl⟩ := Part.span?_eq_some hs
  have hpos := Text.size_pos hne
  exact ⟨⟨by simp only; omega, hat.isBoundary, hat.skip.isBoundary⟩, hlo, hhi⟩

theorem parse?_row {rest : Text} (h : parse? expression base = some l)
    (hat : source.At base (expression ++ rest)) :
    SpansWithin source base (base + expression.size) l.row ∧
      l.row.Pairwise fun s t => s.stop ≤ t.start := by
  obtain ⟨ps, hrow, hps⟩ := parse?_inRow h hat
  rw [hrow]
  constructor
  · intro s hs
    obtain ⟨p, hp, hs⟩ := List.mem_flatMap.mp hs
    exact (hps.inside p hp).spanPlaced (Option.mem_toList.mp hs)
  · refine List.pairwise_flatMap.mpr ⟨fun p _ => ?_, hps.ordered.imp_of_mem fun hp hq hpq s hs t ht => ?_⟩
    · cases p.span? <;> simp
    · have h₁ := (Part.In.spanPlaced ⟨Nat.le_refl _, Nat.le_refl _, (hps.inside _ hp).text⟩
        (Option.mem_toList.mp hs)).2.2
      have h₂ := (Part.In.spanPlaced ⟨Nat.le_refl _, Nat.le_refl _, (hps.inside _ hq).text⟩
        (Option.mem_toList.mp ht)).2.1
      omega

end Loop

end

end View
end SfcTsx
