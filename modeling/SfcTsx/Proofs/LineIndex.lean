import SfcTsx.LineIndex
import SfcTsx.Proofs.Order
import SfcTsx.Proofs.Text
import Mathlib.Algebra.GroupWithZero.Nat
import Mathlib.Data.List.DropRight
import Mathlib.Data.List.GetD
import Mathlib.Data.List.Induction
import Mathlib.Data.List.TakeWhile

namespace SfcTsx

variable {t : Text} {offset : Nat}

def Text.units (c : Char) : Nat := if c.toNat < 0x10000 then 1 else 2

def LineCol.advance (position : LineCol) (c : Char) : LineCol :=
  if c = '\n' then ⟨position.line + 1, 0⟩ else ⟨position.line, position.col + Text.units c⟩

def LineCol.walk (position : LineCol) (t : Text) : LineCol := t.foldl LineCol.advance position

def LineCol.Precedes (p q : LineCol) : Prop := p.line < q.line ∨ p.line = q.line ∧ p.col < q.col

def Text.position? (t : Text) (offset : Nat) : Option LineCol :=
  (t.take? offset).map (LineCol.walk ⟨0, 0⟩)

namespace Text

theorem utf8Size_eq_one {c : Char} : c.utf8Size = 1 ↔ c.toNat < 0x80 := by
  rw [Char.utf8Size_eq_one_iff, UInt32.le_iff_toNat_le]
  exact Nat.lt_succ_iff.symm

theorem units_le_utf8Size (c : Char) : units c ≤ c.utf8Size := by
  have hpos := c.utf8Size_pos
  unfold units
  split
  next => exact hpos
  next hwide =>
    have hone : c.utf8Size ≠ 1 := by
      rw [ne_eq, utf8Size_eq_one]
      omega
    omega

theorem units_of_ascii {c : Char} (h : c.toNat < 0x80) : units c = 1 := if_pos (by omega)

theorem units_add_surplus (c : Char) : units c + surplus c = c.utf8Size :=
  Nat.add_sub_of_le (units_le_utf8Size c)

theorem exists_lines (t : Text) :
    ∃ lines rest, t = lines ++ rest ∧ '\n' ∉ rest ∧ (lines = [] ∨ ∃ l, lines = l ++ ['\n']) := by
  induction t using List.reverseRecOn with
  | nil => exact ⟨[], [], rfl, by simp, .inl rfl⟩
  | append_singleton t c ih =>
    obtain ⟨lines, rest, rfl, hrest, hlines⟩ := ih
    by_cases hc : c = '\n'
    · exact ⟨lines ++ rest ++ [c], [], by simp, by simp, .inr ⟨lines ++ rest, by rw [hc]⟩⟩
    · exact ⟨lines, rest ++ [c], by simp, by simp [hrest, Ne.symm hc], hlines⟩

theorem take?_of_size_lt {n : Nat} (h : size t < n) : take? n t = none := by
  induction t generalizing n with
  | nil =>
    obtain ⟨m, rfl⟩ : ∃ m, n = m + 1 := ⟨n - 1, by omega⟩
    rfl
  | cons c t ih =>
    simp only [size_cons] at h
    obtain ⟨m, rfl⟩ : ∃ m, n = m + 1 := ⟨n - 1, by omega⟩
    rw [take?, if_pos (by omega), ih (by omega)]
    rfl

end Text

namespace LineCol

theorem walk_append (position : LineCol) (s t : Text) :
    position.walk (s ++ t) = (position.walk s).walk t := List.foldl_append

theorem walk_of_not_mem (h : '\n' ∉ t) (position : LineCol) :
    position.walk t = ⟨position.line, position.col + (t.map Text.units).sum⟩ := by
  induction t generalizing position with
  | nil => rfl
  | cons c t ih =>
    obtain ⟨hc, ht⟩ : ¬ '\n' = c ∧ '\n' ∉ t := by simpa using h
    have hstep : position.advance c = ⟨position.line, position.col + Text.units c⟩ :=
      if_neg (Ne.symm hc)
    rw [walk, List.foldl_cons, hstep]
    refine (ih ht _).trans ?_
    simp [Nat.add_assoc]

theorem walk_line (t : Text) (position : LineCol) :
    (position.walk t).line = position.line + t.count '\n' := by
  induction t generalizing position with
  | nil => rfl
  | cons c t ih =>
    rw [walk, List.foldl_cons]
    refine (ih _).trans ?_
    unfold advance
    split
    next hc =>
      rw [hc, List.count_cons_self]
      exact Nat.add_right_comm ..
    next hc => rw [List.count_cons_of_ne hc]

theorem walk_newline (t : Text) (position : LineCol) :
    position.walk (t ++ ['\n']) = ⟨position.line + t.count '\n' + 1, 0⟩ := by
  rw [walk_append, ← walk_line]
  rfl

theorem Precedes.trans {p q r : LineCol} (h : p.Precedes q) (h' : q.Precedes r) : p.Precedes r := by
  unfold Precedes at *
  omega

theorem precedes_advance (position : LineCol) (c : Char) : position.Precedes (position.advance c) := by
  unfold advance
  split
  · exact .inl (Nat.lt_succ_self _)
  · have hpos : 0 < Text.units c := by
      unfold Text.units
      split <;> omega
    exact .inr ⟨rfl, Nat.lt_add_of_pos_right hpos⟩

theorem precedes_walk (h : t ≠ []) (position : LineCol) : position.Precedes (position.walk t) := by
  induction t generalizing position with
  | nil => exact absurd rfl h
  | cons c t ih =>
    have hstep := position.precedes_advance c
    by_cases ht : t = []
    · subst ht
      exact hstep
    · exact hstep.trans (ih ht _)

theorem walk_eq_counts (t : Text) : LineCol.walk ⟨0, 0⟩ t =
    ⟨t.count '\n', ((t.rtakeWhile (· ≠ '\n')).map Text.units).sum⟩ := by
  induction t using List.reverseRecOn with
  | nil => rfl
  | append_singleton t c ih =>
    rw [walk_append, ih]
    by_cases hc : c = '\n'
    · subst hc
      rw [List.rtakeWhile_concat_neg _ _ _ (by simp), List.count_append]
      rfl
    · rw [List.rtakeWhile_concat_pos _ _ _ (by simpa using hc), List.count_append,
        List.count_singleton, if_neg (by simpa using hc)]
      simp [walk, advance, hc]

end LineCol

namespace LineIndex

theorem laterStarts_append (offset : Nat) (s t : Text) :
    laterStarts offset (s ++ t) = laterStarts offset s ++ laterStarts (offset + s.size) t := by
  induction s generalizing offset with
  | nil => rfl
  | cons c s ih =>
    rw [List.cons_append, laterStarts, laterStarts, Text.size_cons, ← Nat.add_assoc]
    split
    next hc =>
      have hone : c.utf8Size = 1 := by rw [hc]; rfl
      rw [ih, hone, List.cons_append]
    next => rw [ih]

theorem mem_laterStarts {n : Nat} (h : n ∈ laterStarts offset t) :
    offset < n ∧ n ≤ offset + t.size := by
  induction t generalizing offset with
  | nil => cases h
  | cons c t ih =>
    have hc := c.utf8Size_pos
    rw [laterStarts] at h
    rw [Text.size_cons]
    split at h
    next =>
      rcases List.mem_cons.mp h with rfl | h
      · omega
      · have := ih h
        omega
    next =>
      have := ih h
      omega

theorem length_laterStarts (offset : Nat) (t : Text) :
    (laterStarts offset t).length = t.count '\n' := by
  induction t generalizing offset with
  | nil => rfl
  | cons c t ih =>
    rw [laterStarts]
    split
    next hc => rw [List.length_cons, ih, hc, List.count_cons_self]
    next hc => rw [ih, List.count_cons_of_ne hc]

theorem wideChars_append (offset : Nat) (s t : Text) :
    wideChars offset (s ++ t) = wideChars offset s ++ wideChars (offset + s.size) t := by
  induction s generalizing offset with
  | nil => rfl
  | cons c s ih =>
    rw [List.cons_append, wideChars, wideChars, Text.size_cons, ← Nat.add_assoc, ih]
    split <;> rfl

theorem mem_wideChars {w : Nat × Nat} (h : w ∈ wideChars offset t) :
    offset ≤ w.1 ∧ w.1 < offset + t.size := by
  induction t generalizing offset with
  | nil => cases h
  | cons c t ih =>
    have hc := c.utf8Size_pos
    rw [wideChars] at h
    rw [Text.size_cons]
    split at h
    next =>
      have := ih h
      omega
    next =>
      rcases List.mem_cons.mp h with rfl | h
      · simp only
        omega
      · have := ih h
        omega

theorem units_add_surplus (offset : Nat) (t : Text) :
    (t.map Text.units).sum + ((wideChars offset t).map Prod.snd).sum = t.size := by
  induction t generalizing offset with
  | nil => rfl
  | cons c t ih =>
    have hrest := ih (offset + c.utf8Size)
    rw [wideChars, Text.size_cons]
    split
    next hc =>
      have hu := Text.units_of_ascii hc
      have hs := Text.utf8Size_eq_one.mpr hc
      rw [List.map_cons, List.sum_cons]
      omega
    next =>
      have hc := Text.units_add_surplus c
      rw [List.map_cons, List.map_cons, List.sum_cons, List.sum_cons]
      simp only
      omega

/-- The surplus of the wide characters between the start of a line and an offset. -/
def shrink (index : LineIndex) (line offset : Nat) : Nat :=
  (((index.wide.dropWhile (·.1 < index.starts.getD line 0)).takeWhile (·.1 < offset)).map
    Prod.snd).sum

theorem foldl_sub (ws : List (Nat × Nat)) (col : Nat) :
    ws.foldl (fun col wide => col - wide.2) col = col - (ws.map Prod.snd).sum := by
  induction ws generalizing col with
  | nil => rfl
  | cons w ws ih =>
    rw [List.foldl_cons, ih, List.map_cons, List.sum_cons]
    omega

theorem wideChars_pairwise (offset : Nat) (t : Text) :
    (wideChars offset t).Pairwise fun v w => v.1 < w.1 := by
  induction t generalizing offset with
  | nil => exact .nil
  | cons c t ih =>
    have hc := c.utf8Size_pos
    rw [wideChars]
    split
    · exact ih _
    · exact .cons (fun w hw => Nat.lt_of_lt_of_le (by omega) (mem_wideChars hw).1) (ih _)

theorem drop_partitionPoint {α : Type} {p : α → Bool} {l : List α}
    (h : l.Pairwise fun x y => p y = true → p x = true) :
    l.drop (partitionPoint p l.toArray) = l.dropWhile p := by
  have ⟨_, hspec⟩ : _ ∧ ∀ i x, l.toArray[i]? = some x → _ := partitionPoint_spec h
  generalize partitionPoint p l.toArray = n at hspec ⊢
  rw [← Text.dropWhile_run (p := p) (s := l.take n) (u := l.drop n), List.take_append_drop]
  · intro x hx
    obtain ⟨i, hi⟩ := List.getElem?_of_mem hx
    rw [List.getElem?_take, Option.ite_none_right_eq_some] at hi
    exact (hspec i x (by simpa using hi.2)).mp hi.1
  · intro x hx
    rw [List.head?_drop] at hx
    have hnot := (hspec n x (by simpa using hx)).not.mp (Nat.lt_irrefl n)
    simpa using hnot

theorem lineColUtf16_eq (t : Text) (offset : Nat) :
    (ofText t).lineColUtf16 offset = ((ofText t).lineCol offset).map fun position =>
      ⟨position.line, position.col - (ofText t).shrink position.line offset⟩ := by
  have hdrop (start : Nat) : (ofText t).wide.drop
      (partitionPoint (fun wide => decide (wide.1 < start)) (ofText t).wide.toArray) =
        (ofText t).wide.dropWhile (·.1 < start) :=
    drop_partitionPoint ((wideChars_pairwise 0 t).imp fun hlt => by
      simp only [decide_eq_true_eq]
      omega)
  unfold lineColUtf16 shrink
  simp only [foldl_sub, hdrop]

theorem laterStarts_pairwise (offset : Nat) (t : Text) :
    (laterStarts offset t).Pairwise (· < ·) := by
  induction t generalizing offset with
  | nil => exact .nil
  | cons c t ih =>
    rw [laterStarts]
    split
    · exact .cons (fun _ hn => (mem_laterStarts hn).1) (ih _)
    · exact ih _

theorem starts_pairwise (t : Text) : (ofText t).starts.Pairwise (· < ·) :=
  .cons (fun _ hn => (mem_laterStarts hn).1) (laterStarts_pairwise 0 t)

theorem getD_starts {index : LineIndex} {line start : Nat} (h : index.lineStart line = some start) :
    index.starts.getD line 0 = start := by
  rw [List.getD_eq_getElem?_getD]
  exact congrArg (·.getD 0) h

/-- The line starts at the offset or before it, and the next line behind it. -/
def InLine (index : LineIndex) (line offset : Nat) : Prop :=
  (∃ start ∈ index.lineStart line, start ≤ offset) ∧
    ∀ next ∈ index.lineStart (line + 1), offset < next

theorem inLine_lineOf (t : Text) (offset : Nat) :
    (ofText t).InLine ((ofText t).lineOf offset) offset := by
  have hascending : Ascending (compare · offset) (ofText t).starts.toArray := by
    refine (starts_pairwise t).imp fun hlt => ?_
    simp only [Nat.compare_eq_lt, Nat.compare_eq_gt]
    omega
  have hfound := searchBy_found hascending
  unfold lineOf
  cases hsearch : searchBy (compare · offset) (ofText t).starts.toArray with
  | ok line =>
    rw [hsearch] at hfound
    obtain ⟨start, hstart, heq⟩ := hfound
    rw [List.getElem?_toArray] at hstart
    obtain rfl := Nat.compare_eq_eq.mp heq
    refine ⟨⟨start, hstart, Nat.le_refl _⟩, fun next hnext => ?_⟩
    obtain ⟨hline, rfl⟩ := List.getElem?_eq_some_iff.mp hstart
    obtain ⟨hafter, rfl⟩ := List.getElem?_eq_some_iff.mp hnext
    exact List.pairwise_iff_getElem.mp (starts_pairwise t) _ _ hline hafter (Nat.lt_succ_self _)
  | error line =>
    rw [hsearch] at hfound
    obtain ⟨hsize, hside⟩ := hfound
    simp only [List.getElem?_toArray] at hside
    cases line with
    | zero =>
      -- The first line starts at or before every offset.
      have hzero := Nat.compare_eq_gt.mp (hside 0 0 rfl)
      omega
    | succ line =>
      have hstart := List.getElem?_eq_getElem (l := (ofText t).starts) hsize
      have hlt := hside line _ hstart
      rw [if_pos (Nat.lt_succ_self line), Nat.compare_eq_lt] at hlt
      refine ⟨⟨_, hstart, Nat.le_of_lt hlt⟩, fun next hnext => ?_⟩
      have hgt := hside (line + 1) next hnext
      rwa [if_neg (Nat.lt_irrefl _), Nat.compare_eq_gt] at hgt

section
variable {t : Text} {line offset : Nat}

theorem InLine.le {line' : Nat} (h : (ofText t).InLine line offset)
    (h' : (ofText t).InLine line' offset) : line' ≤ line := by
  obtain ⟨start, hstart, hle⟩ := h'.1
  obtain ⟨hlt, rfl⟩ := List.getElem?_eq_some_iff.mp hstart
  by_contra hgt
  have hbound : line + 1 < (ofText t).starts.length := by omega
  have hnext := h.2 _ (List.getElem?_eq_getElem hbound)
  -- The line after `line` starts behind the offset, and `line'` does not start before that one.
  obtain hlater | rfl : line + 1 < line' ∨ line + 1 = line' := by omega
  · have := List.pairwise_iff_getElem.mp (starts_pairwise t) _ _ hbound hlt hlater
    omega
  · omega

theorem InLine.lineCol_eq {start : Nat} (h : (ofText t).InLine line offset)
    (hstart : (ofText t).lineStart line = some start) (hoffset : offset ≤ t.size) :
    (ofText t).lineCol offset = some ⟨line, offset - start⟩ := by
  have hfound := inLine_lineOf t offset
  have hline : (ofText t).lineOf offset = line := Nat.le_antisymm (h.le hfound) (hfound.le h)
  have hlen : offset ≤ (ofText t).len := hoffset
  simp only [lineCol, if_pos hlen, hline, getD_starts hstart]

end

section
variable {lines rest : Text} (hrest : '\n' ∉ rest) (hlines : lines = [] ∨ ∃ l, lines = l ++ ['\n'])
  (after : Text)
include hrest hlines

theorem ofText_inLine : let index := ofText (lines ++ rest ++ after)
    index.lineStart (lines.count '\n') = some lines.size ∧
      index.InLine (lines.count '\n') (lines ++ rest).size := by
  have hnone : laterStarts lines.size rest = [] := by
    rw [← List.length_eq_zero_iff, length_laterStarts, List.count_eq_zero]
    exact hrest
  have hstarts : (ofText (lines ++ rest ++ after)).starts =
      (0 :: laterStarts 0 lines) ++ laterStarts (lines ++ rest).size after := by
    simp only [ofText, laterStarts_append, hnone, List.append_nil, Nat.zero_add,
      List.cons_append]
  have hlen : (0 :: laterStarts 0 lines).length = lines.count '\n' + 1 := by
    rw [List.length_cons, length_laterStarts]
  have hstart : (ofText (lines ++ rest ++ after)).lineStart (lines.count '\n') = some lines.size := by
    rw [lineStart, hstarts, List.getElem?_append_left (by omega)]
    rcases hlines with rfl | ⟨l, rfl⟩
    · rfl
    · have hlast : laterStarts 0 (l ++ ['\n']) = laterStarts 0 l ++ [l.size + 1] := by
        rw [laterStarts_append, Nat.zero_add]
        rfl
      have hcount : (l ++ ['\n']).count '\n' = (laterStarts 0 l).length + 1 := by
        rw [length_laterStarts, List.count_append]
        rfl
      rw [hlast, hcount, List.getElem?_cons_succ, List.getElem?_concat_length, Text.size_append]
      rfl
  refine ⟨hstart, ⟨_, hstart, by simp⟩, fun next hnext => ?_⟩
  rw [lineStart, hstarts, ← hlen, List.getElem?_append_right (Nat.le_refl _)] at hnext
  exact (mem_laterStarts (List.mem_of_getElem? hnext)).1

theorem ofText_shrink : (ofText (lines ++ rest ++ after)).shrink (lines.count '\n')
    (lines ++ rest).size = ((wideChars lines.size rest).map Prod.snd).sum := by
  have hwide : (ofText (lines ++ rest ++ after)).wide = wideChars 0 lines ++
      (wideChars lines.size rest ++ wideChars (lines ++ rest).size after) := by
    simp only [ofText, wideChars_append, Nat.zero_add, List.append_assoc, Text.size_append]
  rw [shrink, getD_starts (ofText_inLine hrest hlines after).1, hwide]
  have hdrop : (wideChars 0 lines ++ (wideChars lines.size rest ++
      wideChars (lines ++ rest).size after)).dropWhile (·.1 < lines.size) =
      wideChars lines.size rest ++ wideChars (lines ++ rest).size after := by
    refine Text.dropWhile_run (fun w hw => ?_) fun w hw => ?_
    · have := (mem_wideChars hw).2
      simp only [decide_eq_true_eq]
      omega
    · have hle : lines.size ≤ w.1 := by
        rcases List.mem_append.mp (List.mem_of_mem_head? hw) with h | h
        · exact (mem_wideChars h).1
        · have := (mem_wideChars h).1
          rw [Text.size_append] at this
          omega
      simpa using hle
  have htake : (wideChars lines.size rest ++ wideChars (lines ++ rest).size after).takeWhile
      (·.1 < (lines ++ rest).size) = wideChars lines.size rest := by
    refine Text.takeWhile_run (fun w hw => ?_) fun w hw => ?_
    · have := (mem_wideChars hw).2
      simp only [Text.size_append, decide_eq_true_eq]
      exact this
    · simpa using (mem_wideChars (List.mem_of_mem_head? hw)).1
  rw [hdrop, htake]

end

theorem ofText_at (before after : Text) :
    ∃ position, (ofText (before ++ after)).lineCol before.size = some position ∧
      (ofText (before ++ after)).shrink position.line before.size ≤ position.col ∧
      (ofText (before ++ after)).lineColUtf16 before.size = some (LineCol.walk ⟨0, 0⟩ before) := by
  obtain ⟨lines, rest, rfl, hrest, hlines⟩ := Text.exists_lines before
  obtain ⟨hstart, hin⟩ := ofText_inLine hrest hlines after
  have hshrink := ofText_shrink hrest hlines after
  have hunits := units_add_surplus lines.size rest
  have hle : (lines ++ rest).size ≤ (lines ++ rest ++ after).size := by
    rw [Text.size_append (lines ++ rest)]
    exact Nat.le_add_right _ _
  have hcol := hin.lineCol_eq hstart hle
  rw [Text.size_append, Nat.add_sub_cancel_left, ← Text.size_append] at hcol
  refine ⟨_, hcol, by rw [hshrink]; simp only; omega, ?_⟩
  rw [lineColUtf16_eq, hcol, Option.map_some, hshrink]
  have hwalk : LineCol.walk ⟨0, 0⟩ (lines ++ rest) =
      ⟨lines.count '\n', (rest.map Text.units).sum⟩ := by
    rw [LineCol.walk_append]
    rcases hlines with rfl | ⟨l, rfl⟩
    · rw [LineCol.walk_of_not_mem hrest]
      simp [LineCol.walk]
    · rw [LineCol.walk_newline, LineCol.walk_of_not_mem hrest, List.count_append]
      simp
  rw [hwalk]
  simp only
  congr 2
  omega

theorem lineColUtf16_ofText (h : t.isBoundary offset = true ∨ t.size < offset) :
    (ofText t).lineColUtf16 offset = t.position? offset := by
  rcases h with h | h
  · obtain ⟨before, after, rfl, rfl⟩ := Text.isBoundary_iff.mp h
    obtain ⟨-, -, -, hpos⟩ := ofText_at before after
    rw [hpos, Text.position?, Text.take?_size_append]
    rfl
  · have hlen : ¬ offset ≤ (ofText t).len := Nat.not_le.mpr h
    rw [lineColUtf16, lineCol, if_neg hlen, Text.position?, Text.take?_of_size_lt h]
    rfl

theorem starts_lineOf_le (t : Text) (offset : Nat) :
    (ofText t).starts.getD ((ofText t).lineOf offset) 0 ≤ offset := by
  obtain ⟨start, hstart, hle⟩ := (inLine_lineOf t offset).1
  rwa [getD_starts hstart]

/-- Between two characters the line counts the newlines in front of the offset and the column the UTF-16
units behind the last of them, and no subtraction on the way goes below zero. So a later offset has a
later position. -/
theorem lineColUtf16_counts (t : Text) : (∀ offset, t.isBoundary offset = true → ∃ position,
      (ofText t).lineCol offset = some position ∧
      (ofText t).starts.getD position.line 0 + position.col = offset ∧
      (ofText t).shrink position.line offset ≤ position.col ∧
      (ofText t).lineColUtf16 offset = some ⟨(t.slice 0 offset).count '\n',
        (((t.slice 0 offset).rtakeWhile (· ≠ '\n')).map Text.units).sum⟩) ∧
    ∀ a b, t.isBoundary a = true → t.isBoundary b = true → a < b → ∃ p q,
      (ofText t).lineColUtf16 a = some p ∧ (ofText t).lineColUtf16 b = some q ∧ p.Precedes q := by
  refine ⟨fun offset h => ?_, fun a b ha hb hlt => ?_⟩
  · obtain ⟨before, after, rfl, rfl⟩ := Text.isBoundary_iff.mp h
    obtain ⟨position, hcol, hshrink, hutf16⟩ := ofText_at before after
    have hle := starts_lineOf_le (before ++ after) before.size
    refine ⟨position, hcol, ?_, hshrink, ?_⟩
    · obtain ⟨-, hcol⟩ := Option.ite_none_right_eq_some.mp hcol
      obtain rfl := Option.some.inj hcol
      exact Nat.add_sub_of_le hle
    · rw [hutf16, LineCol.walk_eq_counts, Text.slice_head]
  · obtain ⟨u, hu⟩ := Text.At.of_isBoundary ha
    obtain ⟨v, hv⟩ := Text.At.of_isBoundary hb
    obtain ⟨mid, rfl, rfl⟩ := hu.between hv (Nat.le_of_lt hlt)
    obtain ⟨before, rfl, rfl⟩ := hu
    have hmid : mid ≠ [] := by
      rintro rfl
      simp at hlt
    obtain ⟨-, -, -, hp⟩ := ofText_at before (mid ++ v)
    obtain ⟨-, -, -, hq⟩ := ofText_at (before ++ mid) v
    rw [List.append_assoc, Text.size_append] at hq
    refine ⟨_, _, hp, hq, ?_⟩
    rw [LineCol.walk_append]
    exact LineCol.precedes_walk hmid _

/-- A surrogate pair behind a character of two bytes, and the line after it. -/
theorem lineColUtf16_counts_emoji : let t : Text := "a é😀 b\né x".toList
    (t.isBoundary 9 = true ∧ t.isBoundary 14 = true) ∧
      (ofText t).lineColUtf16 9 = some ⟨0, 6⟩ ∧ (ofText t).lineColUtf16 14 = some ⟨1, 2⟩ ∧
      ∃ p q, (ofText t).lineColUtf16 9 = some p ∧ (ofText t).lineColUtf16 14 = some q ∧ p.Precedes q := by
  intro t
  have ha : t.isBoundary 9 = true := by decide
  have hb : t.isBoundary 14 = true := by decide
  obtain ⟨-, -, -, -, hp⟩ := (lineColUtf16_counts t).1 9 ha
  obtain ⟨-, -, -, -, hq⟩ := (lineColUtf16_counts t).1 14 hb
  exact ⟨⟨ha, hb⟩, hp, hq, (lineColUtf16_counts t).2 9 14 ha hb (by decide)⟩

theorem exists_bounds {line : Nat} (h : line < (ofText t).lineCount) :
    ∃ start stop, (ofText t).lineStart line = some start ∧ (ofText t).lineEnd line = some stop ∧
      start ≤ stop ∧ ∀ offset, start ≤ offset ∧ offset ≤ stop ↔
        (ofText t).InLine line offset ∧ offset ≤ t.size := by
  have hstart : (ofText t).lineStart line = some (ofText t).starts[line] :=
    List.getElem?_eq_getElem h
  cases hnext : (ofText t).lineStart (line + 1) with
  | none =>
    refine ⟨_, t.size, hstart, ?_, ?_, fun offset => by simp [InLine, hstart, hnext]⟩
    · rw [lineEnd, if_pos h, ← lineStart, hnext]
      rfl
    · rcases List.mem_cons.mp (List.getElem_mem h) with h0 | hlater
      · exact h0 ▸ Nat.zero_le _
      · simpa using (mem_laterStarts hlater).2
  | some next =>
    obtain ⟨hbound, rfl⟩ := List.getElem?_eq_some_iff.mp hnext
    have hlt := List.pairwise_iff_getElem.mp (starts_pairwise t) _ _ h hbound (Nat.lt_succ_self _)
    have hle := (mem_laterStarts (List.mem_of_getElem? (i := line) hnext)).2
    refine ⟨_, _, hstart, by rw [lineEnd, if_pos h, ← lineStart, hnext], by omega, fun offset => ?_⟩
    simp only [InLine, hstart, hnext, Option.mem_def, Option.some.injEq, exists_eq_left', forall_eq']
    omega

/-- Offsets and positions lead to each other, from each offset of the text and from each column of each
line, and an offset is between the start and the end of its line. -/
theorem lineCol_offset_inverse (t : Text) : (∀ o ≤ t.size, ∃ position start stop,
      (ofText t).lineCol o = some position ∧ (ofText t).offset position = some o ∧
      (ofText t).lineStart position.line = some start ∧
      (ofText t).lineEnd position.line = some stop ∧ start ≤ o ∧ o ≤ stop) ∧
    ∀ line < (ofText t).lineCount, ∃ start stop,
      (ofText t).lineStart line = some start ∧ (ofText t).lineEnd line = some stop ∧
      start ≤ stop ∧ ∀ col ≤ stop - start, ∃ o,
        (ofText t).offset ⟨line, col⟩ = some o ∧ (ofText t).lineCol o = some ⟨line, col⟩ := by
  refine ⟨fun o ho => ?_, fun line hline => ?_⟩
  · have hin := inLine_lineOf t o
    obtain ⟨_, hsome, -⟩ := hin.1
    obtain ⟨start, stop, hstart, hstop, -, hbounds⟩ :=
      exists_bounds (List.getElem?_eq_some_iff.mp hsome).1
    obtain ⟨hle, hge⟩ := (hbounds o).mpr ⟨hin, ho⟩
    refine ⟨_, start, stop, hin.lineCol_eq hstart ho, ?_, hstart, hstop, hle, hge⟩
    rw [offset, hstart, Option.map_some, Nat.add_sub_of_le hle]
  · obtain ⟨start, stop, hstart, hstop, hle, hbounds⟩ := exists_bounds hline
    refine ⟨start, stop, hstart, hstop, hle, fun col hcol => ⟨start + col, ?_, ?_⟩⟩
    · rw [offset, hstart, Option.map_some]
    · obtain ⟨hin, hsize⟩ := (hbounds (start + col)).mp ⟨by omega, by omega⟩
      rw [hin.lineCol_eq hstart hsize, Nat.add_sub_cancel_left]

/-- On a newline, and in the empty line behind the last one. -/
theorem lineCol_offset_inverse_newlines : let index := ofText "é\n\n".toList
    (∃ position, index.lineCol 2 = some position ∧ index.offset position = some 2) ∧
      2 < index.lineCount ∧ ∃ o, index.offset ⟨2, 0⟩ = some o ∧ index.lineCol o = some ⟨2, 0⟩ := by
  intro index
  obtain ⟨hthere, hback⟩ := lineCol_offset_inverse "é\n\n".toList
  obtain ⟨position, _, _, hcol, hoffset, -⟩ := hthere 2 (by decide)
  have hline : 2 < index.lineCount := by decide
  obtain ⟨_, _, -, -, -, hcols⟩ := hback 2 hline
  exact ⟨⟨position, hcol, hoffset⟩, hline, hcols 0 (Nat.zero_le _)⟩

end LineIndex
end SfcTsx
