import SfcTsx.Proofs.View.Loop
import Mathlib.Data.List.DropRight

namespace SfcTsx.View.Loop

/-- No separator stands between two white spaces of the text. -/
def Unseparated (t : Text) : Prop :=
  ∀ x, Text.isSpace x = true → ∀ w ∈ separators, ∀ y, Text.isSpace y = true → ¬ x :: (w ++ [y]) <:+: t

structure IsTrimmed (t : Text) : Prop where
  ne_nil : t ≠ []
  trim_eq : Text.trim t = t

/-- A value that can be told from what follows it: no separator stands in it between white space, and
a comma only in front of a closing brace or bracket. -/
structure IsValue (v : Text) : Prop extends IsTrimmed v where
  unseparated : Unseparated v
  commas : ∀ a b, v = a ++ ',' :: b → '}' ∈ b ∨ ']' ∈ b

/-- A key or an index without white space, commas and closing braces or brackets. -/
structure IsName (k : Text) : Prop extends IsTrimmed k where
  chars : ∀ c ∈ k, Text.isSpace c = false ∧ isIterator c = true

def behindValue (names : List Text) : Text := names.flatMap (", ".toList ++ ·)

def written (value : Text) (names : List Text) (word source : Text) : Text :=
  '(' :: (value ++ (behindValue names ++ ')' :: ' ' :: (word ++ ' ' :: source)))

section
variable {d t u v w s k i : Text} {ks : List Text} {n : Nat}

theorem IsName.unseparated (h : IsName k) : Unseparated (' ' :: k) := by
  rintro x - w - y hy ⟨p, q, hpq⟩
  have hmem : y ∈ k := by
    cases p <;> obtain ⟨rfl, rfl⟩ := List.cons.inj hpq <;> simp
  rw [(h.chars y hmem).1] at hy
  cases hy

theorem Unseparated.afterSeparator?_none {c : Char} (h : Unseparated t) (hc : c ∈ ['(', ',', ')']) :
    afterSeparator? (t ++ c :: u) = none := by
  refine Option.eq_none_iff_forall_ne_some.mpr fun after hafter => ?_
  obtain ⟨blanks, x, w, y, more, htext, hblanks, hx, hw, hy⟩ := afterSeparator?_eq_some hafter
  have hspace : Text.isSpace c = false ∧ ∀ w ∈ separators, c ∉ w := by
    simp only [List.mem_cons, List.not_mem_nil, or_false] at hc
    rcases hc with rfl | rfl | rfl <;> decide
  have hnot : c ∉ blanks ++ (x :: (w ++ [y])) := by
    have := hspace.2 w hw
    grind
  obtain ⟨d, hd, hrest⟩ | ⟨d, hd, -⟩ := List.append_eq_append_iff.mp htext
  · cases d with
    | nil => exact h x hx w hw y hy ⟨blanks, [], by simpa using hd⟩
    | cons e d =>
      obtain ⟨rfl, -⟩ := List.cons.inj hrest
      exact hnot (by rw [hd]; simp)
  · exact h x hx w hw y hy ⟨blanks, d, hd.symm⟩

theorem Unseparated.cut?_eq {c : Char} (h : Unseparated d) (hc : c ∈ ['(', ',', ')']) :
    cut? (d ++ c :: t) = (cut? t).map fun r => (d ++ c :: r.1, r.2) := by
  induction d with
  | nil =>
    have hnone := h.afterSeparator?_none (u := t) hc
    rw [List.nil_append] at hnone ⊢
    rw [cut?_cons, hnone]
    rfl
  | cons e d ih =>
    have hnone := h.afterSeparator?_none (u := t) hc
    rw [List.cons_append] at hnone ⊢
    rw [cut?_cons, hnone, ih fun x hx w hw y hy hi => h x hx w hw y hy (List.infix_cons hi)]
    cases cut? t <;> rfl

theorem Unseparated.cut?_names (h : Unseparated d) (hks : ∀ k ∈ ks, IsName k) (ht : cut? t = some ([], s)) :
    cut? (d ++ (behindValue ks ++ ')' :: t)) = some (d ++ (behindValue ks ++ [')']), s) := by
  induction ks generalizing d with
  | nil => simp [behindValue, h.cut?_eq, ht]
  | cons k ks ih =>
    have hcut := h.cut?_eq (c := ',') (t := ' ' :: k ++ (behindValue ks ++ ')' :: t)) (by simp)
    rw [ih (hks k (.head _)).unseparated fun k hk => hks k (.tail _ hk)] at hcut
    simpa [behindValue] using hcut

theorem IsTrimmed.exists_cons (h : IsTrimmed t) : ∃ c r, t = c :: r ∧ Text.isSpace c = false := by
  obtain ⟨c, r, rfl⟩ := List.exists_cons_of_ne_nil h.ne_nil
  refine ⟨c, r, rfl, Bool.eq_false_iff.mpr fun hc => ?_⟩
  have hlen := congrArg List.length h.trim_eq
  have hend := (List.rdropWhile_prefix Text.isSpace (r.dropWhile Text.isSpace)).length_le
  have hle := (r.dropWhile_suffix Text.isSpace).length_le
  simp only [Text.trim, Text.trimEnd, Text.trimStart, List.dropWhile_cons_of_pos hc, List.rdropWhile,
    List.length_cons] at hlen hend
  omega

theorem IsTrimmed.span? (h : IsTrimmed t) (n : Nat) :
    Part.span? ⟨n, t⟩ = some ⟨n, n + t.size⟩ ∧ Part.span? ⟨n, ' ' :: t⟩ = some ⟨n + 1, n + 1 + t.size⟩ := by
  obtain ⟨c, r, rfl, hc⟩ := h.exists_cons
  have hblank : Text.isSpace ' ' = true ∧ (' ' : Char).utf8Size = 1 := ⟨rfl, rfl⟩
  have hspace : Text.trim (' ' :: c :: r) = Text.trim (c :: r) := by simp [Text.trim, Text.trimStart, hblank]
  constructor <;> simp [Part.span?, Part.trim, hspace, h.trim_eq, hc, hblank]

theorem cut?_separator (hw : w ∈ separators) (hs : IsTrimmed s) :
    cut? (' ' :: (w ++ ' ' :: s)) = some ([], s) := by
  obtain ⟨c, r, rfl, hc⟩ := hs.exists_cons
  have hafter : afterSeparator? (' ' :: (w ++ ' ' :: (c :: r))) = some (c :: r) := by
    have hspace : Text.isSpace ' ' = true ∧ Text.isSpace 'i' = false ∧ Text.isSpace 'o' = false :=
      ⟨rfl, rfl, rfl⟩
    simp only [separators, List.mem_cons, List.not_mem_nil, or_false] at hw
    rcases hw with rfl | rfl <;> simp [afterSeparator?, hspace, hc]
  rw [cut?_cons, hafter]

theorem splitAliases_append (hv : ∀ a b, v = a ++ ',' :: b → '}' ∈ b ∨ ']' ∈ b)
    (ht : splitAliases (n + v.size) t = ([], iterators? (n + v.size) t)) :
    splitAliases n (v ++ t) = (v, iterators? (n + v.size) t) := by
  induction v generalizing n with
  | nil => exact ht
  | cons c v ih =>
    have hnone : iterators? n (c :: (v ++ t)) = none := by
      refine Option.eq_none_iff_forall_ne_some.mpr fun found hfound => ?_
      have hall : c = ',' ∧ ∀ x ∈ v ++ t, isIterator x = true ∨ x = ',' := by
        rcases iterators?_cases hfound with ⟨key, hr, -, hkey⟩ | ⟨key, index, hr, -, hkey⟩ <;>
          grind
      rcases hv [] v (by rw [hall.1]; rfl) with hmem | hmem
      · simpa [isIterator] using hall.2 _ (List.mem_append_left t hmem)
      · simpa [isIterator] using hall.2 _ (List.mem_append_left t hmem)
    rw [Text.size_cons, ← Nat.add_assoc] at ht ⊢
    rw [List.cons_append, splitAliases, hnone]
    simp only [ih (fun a b hab => hv (c :: a) b (by rw [hab]; rfl)) ht]

theorem parse?_written (base : Nat) (hv : IsValue v) (hks : ∀ k ∈ ks, IsName k) (hw : w ∈ separators)
    (hs : IsTrimmed s) {found : Option (Part × Option Part)}
    (hfound : iterators? (base + 1 + v.size) (behindValue ks) = found)
    (hsplit : splitAliases (base + 1 + v.size) (behindValue ks) = ([], found)) :
    let start := base + 1 + v.size + (behindValue ks).size + 5
    parse? (written v ks w s) base =
      some { source := ⟨start, start + s.size⟩, value := some ⟨base + 1, base + 1 + v.size⟩
             key := found.bind (·.1.span?), index := found.bind fun f => f.2.bind Part.span? } := by
  have hcut : cut? (written v ks w s) = some ('(' :: (v ++ (behindValue ks ++ [')'])), s) := by
    have hopen : Unseparated [] := fun x _ w _ y _ hi => by simp at hi
    have hinner := hv.unseparated.cut?_names hks (cut?_separator hw hs)
    exact (hopen.cut?_eq (c := '(') (by simp)).trans (by rw [hinner]; rfl)
  have hunwrap : (Part.trim ⟨base, '(' :: (v ++ (behindValue ks ++ [')']))⟩).unwrap =
      ⟨base + 1, v ++ behindValue ks⟩ := by
    have hspace : Text.isSpace '(' = false ∧ Text.isSpace ')' = false := ⟨rfl, rfl⟩
    rw [← List.append_assoc]
    generalize v ++ behindValue ks = x
    have htrim : Text.trim ('(' :: (x ++ [')'])) = '(' :: (x ++ [')']) := by
      simp [Text.trim, Text.trimStart, Text.trimEnd, hspace]
    simp [Part.trim, Part.unwrap, htrim, hspace]
  have hsize : (written v ks w s).size - s.size = 1 + v.size + (behindValue ks).size + 5 := by
    have hword : ∀ w ∈ separators, Text.size w = 2 := by decide
    have hone : (' ' : Char).utf8Size = 1 ∧ ('(' : Char).utf8Size = 1 ∧ (')' : Char).utf8Size = 1 :=
      ⟨rfl, rfl, rfl⟩
    simp only [written, Text.size_cons, Text.size_append, hword w hw, hone]
    omega
  have hvalue := splitAliases_append hv.commas (hsplit.trans (by rw [hfound]))
  rw [hfound] at hvalue
  simp only [parse?, hcut, Option.bind_eq_bind, Option.bind_some, hsize, (hs.span? _).1, hunwrap, hvalue,
    (hv.toIsTrimmed.span? _).1, ← Nat.add_assoc]
  rfl

theorem size_behindValue (k : Text) (ks : List Text) :
    (behindValue (k :: ks)).size = 2 + k.size + (behindValue ks).size := by
  rw [behindValue, List.flatMap_cons, Text.size_append, Text.size_append]
  rfl

theorem splitAliases_of_found {found : Part × Option Part} (h : iterators? n t = some found) :
    splitAliases n t = ([], some found) := by
  cases t with
  | nil => cases h
  | cons c t => rw [splitAliases, h]

theorem IsName.all (hk : IsName k) : ∀ c ∈ ' ' :: k, isIterator c = true := by
  simpa using ⟨rfl, fun c hc => (hk.chars c hc).2⟩

theorem iterators?_key (hk : IsName k) (n : Nat) :
    iterators? n (behindValue [k]) = some (⟨n + 1, ' ' :: k⟩, none) := by
  have htext : behindValue [k] = ',' :: (' ' :: k) := by simp [behindValue]
  rw [htext, iterators?, List.takeWhile_eq_self_iff.mpr hk.all, List.dropWhile_eq_nil_iff.mpr hk.all]

theorem iterators?_index (hk : IsName k) (hi : IsName i) (n : Nat) :
    iterators? n (behindValue [k, i]) =
      some (⟨n + 1, ' ' :: k⟩, some ⟨n + 1 + Text.size (' ' :: k) + 1, ' ' :: i⟩) := by
  have htext : behindValue [k, i] = ',' :: ((' ' :: k) ++ ',' :: (' ' :: i)) := by simp [behindValue]
  have hcomma : isIterator ',' = false := rfl
  rw [htext, iterators?, List.takeWhile_append_of_pos hk.all, List.dropWhile_append_of_pos hk.all]
  simpa [hcomma] using hi.all

theorem isTrimmed_trim (h : Text.trim t ≠ []) : IsTrimmed (Text.trim t) := by
  refine ⟨h, ?_⟩
  have hend : Text.trimEnd (Text.trim t) = Text.trim t := List.rdropWhile_idempotent Text.isSpace _
  have hstart : Text.trimStart (Text.trim t) = Text.trim t := by
    obtain ⟨r, hr⟩ : Text.trim t <+: Text.trimStart t := List.rdropWhile_prefix Text.isSpace _
    have hidem : Text.trimStart (Text.trimStart t) = Text.trimStart t :=
      List.dropWhile_idempotent Text.isSpace t
    obtain ⟨c, v, hv⟩ := List.exists_cons_of_ne_nil h
    rw [← hr, hv] at hidem
    rw [hv]
    simpa [Text.trimStart] using hidem
  rw [Text.trim, hstart, hend]

end

/-- The parts of a loop are read as they are written, and whatever is read as a loop has parts with
something in them, without white space at their ends, one behind the other. -/
theorem parse?_reads_written :
    (∀ v k i w s : Text, ∀ base : Nat, IsValue v → IsName k → IsName i → w ∈ separators → IsTrimmed s →
      let n := base + 1 + v.size
      let m := n + 2 + k.size
      let value : Option Span := some ⟨base + 1, n⟩
      let key : Option Span := some ⟨n + 2, m⟩
      parse? (written v [] w s) base = some ⟨⟨n + 5, n + 5 + s.size⟩, value, none, none⟩ ∧
        parse? (written v [k] w s) base = some ⟨⟨m + 5, m + 5 + s.size⟩, value, key, none⟩ ∧
        parse? (written v [k, i] w s) base =
          some ⟨⟨m + 2 + i.size + 5, m + 2 + i.size + 5 + s.size⟩, value, key,
            some ⟨m + 2, m + 2 + i.size⟩⟩) ∧
    ∀ (expression : Text) (base : Nat) (l : Loop), parse? expression base = some l →
      (∀ s ∈ l.row, ∃ a t b, expression = a ++ (t ++ b) ∧ IsTrimmed t ∧
        s = ⟨base + a.size, base + a.size + t.size⟩) ∧
      l.row.Pairwise fun s t => s.stop ≤ t.start := by
  refine ⟨fun v k i w s base hv hk hi hw hs => ⟨?_, ?_, ?_⟩, fun expression base l h => ?_⟩
  · exact parse?_written base hv (List.forall_mem_nil IsName) hw hs rfl rfl
  · have hfound := iterators?_key hk (base + 1 + v.size)
    have hnames : ∀ k' ∈ [k], IsName k' := by simpa using hk
    rw [parse?_written base hv hnames hw hs hfound (splitAliases_of_found hfound)]
    simp only [Option.bind_some, Option.bind_none, (hk.toIsTrimmed.span? _).2, size_behindValue,
      ← Nat.add_assoc]
    rfl
  · have hfound := iterators?_index hk hi (base + 1 + v.size)
    have hkey : Text.size (' ' :: k) = 1 + k.size := rfl
    have hnames : ∀ k' ∈ [k, i], IsName k' := by simpa using ⟨hk, hi⟩
    rw [parse?_written base hv hnames hw hs hfound (splitAliases_of_found hfound)]
    simp only [Option.bind_some, (hk.toIsTrimmed.span? _).2, (hi.toIsTrimmed.span? _).2,
      size_behindValue, hkey, ← Nat.add_assoc]
    rfl
  · obtain ⟨source, hat⟩ := Text.At.exists_source base expression
    have hall : source.At base (expression ++ []) := by rwa [List.append_nil]
    obtain ⟨ps, hrow, hps⟩ := parse?_inRow h hall
    refine ⟨fun s hs => ?_, (parse?_row h hall).2⟩
    rw [hrow] at hs
    obtain ⟨p, hp, hs⟩ := List.mem_flatMap.mp hs
    obtain ⟨hne, rfl⟩ := Part.span?_eq_some (Option.mem_toList.mp hs)
    obtain ⟨hlo, -, rest, htext⟩ := (hps.inside p hp).trim
    obtain ⟨a, hexp, hstart⟩ := hat.between htext hlo
    exact ⟨a, _, rest, hexp, isTrimmed_trim hne, by rw [hstart]⟩

theorem parse?_reads_written_entries :
    IsValue "\x7ba,b\x7d".toList ∧ IsName "k".toList ∧ IsName "i".toList ∧ IsTrimmed "xs".toList ∧
      ∃ l, parse? "(\x7ba,b\x7d, k, i) of xs".toList 7 = some l ∧
        l = ⟨⟨24, 26⟩, some ⟨8, 13⟩, some ⟨15, 16⟩, some ⟨18, 19⟩⟩ ∧
        l.row.Pairwise fun s t => s.stop ≤ t.start := by
  have hv : IsValue "\x7ba,b\x7d".toList := by
    refine ⟨⟨by decide, by decide⟩, fun x hx w _ y _ hi => ?_, fun a b h => ?_⟩
    · have hnone : ∀ c ∈ "\x7ba,b\x7d".toList, Text.isSpace c = false := by simp; decide
      rw [hnone x (hi.subset (.head _))] at hx
      cases hx
    · simp_all [List.cons_eq_append_iff]
  have hk : IsName "k".toList := ⟨⟨by decide, by decide⟩, by simp; decide⟩
  have hi : IsName "i".toList := ⟨⟨by decide, by decide⟩, by simp; decide⟩
  have hs : IsTrimmed "xs".toList := ⟨by decide, by decide⟩
  have hw : "of".toList ∈ separators := by decide
  have hread := (parse?_reads_written.1 _ _ _ _ _ 7 hv hk hi hw hs).2.2
  exact ⟨hv, hk, hi, hs, _, hread, rfl, (parse?_reads_written.2 _ _ _ hread).2⟩

end SfcTsx.View.Loop
