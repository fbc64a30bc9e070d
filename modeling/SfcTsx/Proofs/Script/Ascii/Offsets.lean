import SfcTsx.Proofs.Script.Ascii.Tokens

namespace SfcTsx.Script.Ascii

theorem length_charOffsets (offset : Nat) (cs : Text) :
    (charOffsets offset cs).length = cs.length + 1 := by
  induction cs generalizing offset with
  | nil => rfl
  | cons c cs ih => rw [charOffsets, List.length_cons, ih, List.length_cons]

theorem getLast?_charOffsets (offset : Nat) (cs : Text) :
    (charOffsets offset cs).getLast? = some (offset + cs.size) := by
  induction cs generalizing offset with
  | nil => rfl
  | cons c cs ih =>
    rw [charOffsets, List.getLast?_cons, ih, Text.size_cons, ← Nat.add_assoc, Option.getD_some]

theorem offset_eq (source : Text) (n : Nat) : (ofText source).offset n = Text.size (source.take n) := by
  by_cases hn : n ≤ source.length
  · have hcut := offset_length (source.take n) (source.drop n)
    rwa [List.take_append_drop, List.length_take_of_le hn] at hcut
  · have hnone : (charOffsets 0 source)[n]? = none :=
      List.getElem?_eq_none (by rw [length_charOffsets]; omega)
    have hall : source.take n = source := List.take_of_length_le (by omega)
    simp [offset, ofText, hnone, getLast?_charOffsets, hall]

theorem offset_mono (source : Text) : Monotone (ofText source).offset := by
  intro n m hnm
  have hcut := List.take_append_drop n (source.take m)
  rw [List.take_take, Nat.min_eq_left hnm] at hcut
  rw [offset_eq, offset_eq, ← hcut, Text.size_append]
  exact Nat.le_add_right _ _

/-- Every span of the ASCII form leads to whole characters of the script, to none only if it is empty
itself, and they are what it shows in ASCII. -/
theorem slice?_span (source : Text) :
    (ofText source).span ⟨0, (ofText source).text.size⟩ = ⟨0, source.size⟩ ∧
    ∀ i j, i ≤ j → j ≤ (ofText source).text.size →
      let s := (ofText source).span ⟨i, j⟩
      (source.isBoundary s.start = true ∧ source.isBoundary s.stop = true ∧ s.start ≤ s.stop) ∧
      (i < j → s.start < s.stop) ∧
      ∃ original, source.slice? s.start s.stop = some original ∧
        (ofText source).text.slice? i j = some (original.map asciiChar) := by
  have hsize : (ofText source).text.size = source.length := size_map source
  rw [hsize]
  refine ⟨by simpa using span_length [] source [], fun i j hij hj => ?_⟩
  obtain ⟨pre, rest, rfl, rfl⟩ : ∃ pre rest, source = pre ++ rest ∧ pre.length = i :=
    ⟨source.take i, source.drop i, (List.take_append_drop i source).symm,
      List.length_take_of_le (Nat.le_trans hij hj)⟩
  obtain ⟨mid, post, rfl, rfl⟩ : ∃ mid post, rest = mid ++ post ∧ j = pre.length + mid.length := by
    refine ⟨rest.take (j - pre.length), rest.drop (j - pre.length),
      (List.take_append_drop _ _).symm, ?_⟩
    rw [List.length_append] at hj
    rw [List.length_take]
    omega
  have hat : Text.At (pre ++ (mid ++ post)) pre.size (mid ++ post) := ⟨pre, rfl, rfl⟩
  have hascii : Text.At ((pre ++ (mid ++ post)).map asciiChar) pre.length
      (mid.map asciiChar ++ post.map asciiChar) := ⟨pre.map asciiChar, by simp, size_map pre⟩
  have hslice := hascii.slice?
  rw [size_map] at hslice
  rw [span_length]
  refine ⟨⟨hat.isBoundary, hat.skip.isBoundary, Nat.le_add_right _ _⟩, fun hlt => ?_,
    mid, hat.slice?, hslice⟩
  exact Nat.lt_add_of_pos_right (Text.size_pos fun hnil => by simp [hnil] at hlt)

/-- A string between its quotes, behind another wide character. -/
theorem slice?_span_quoted :
    let source : Text := "const é = 'ü'".toList
    (ofText source).span ⟨10, 13⟩ = ⟨11, 15⟩ ∧ 13 ≤ (ofText source).text.size ∧
      ∃ original, source.slice? 11 15 = some original ∧
        (ofText source).text.slice? 10 13 = some (original.map asciiChar) := by
  intro source
  have hsize : 13 ≤ (ofText source).text.size := by decide
  exact ⟨rfl, hsize, ((slice?_span source).2 10 13 (by decide) hsize).2.2⟩

end SfcTsx.Script.Ascii
