import SfcTsx.Proofs.Text
import SfcTsx.View.TagName

namespace SfcTsx.View

variable {name : String} {tag : String} {c : Char}

theorem runtimeComponent?_name (h : runtimeComponent? tag = some name) :
    runtimeComponent? name = some name := by
  unfold runtimeComponent? at h
  split at h <;> cases h <;> rfl

theorem runtimeComponent?_of_isUpper {cs : Text} (htag : tag.toList = c :: cs)
    (hc : c.isUpper = true) (h : runtimeComponent? tag = some name) : name = tag := by
  have hspelling : ∀ {d : Char} {ds : Text}, tag.toList = d :: ds → d.isUpper = true := by
    intro d ds hd
    rw [htag] at hd
    exact (List.cons.inj hd).1 ▸ hc
  unfold runtimeComponent? at h
  split at h <;> cases h
  all_goals first | rfl | exact absurd (hspelling rfl) (by decide)

theorem outputName_of_runtimeComponent? (h : runtimeComponent? tag = some name) :
    outputName tag = name := by
  rw [outputName, h]

theorem outputName_of_none (h : runtimeComponent? tag = none) : outputName tag =
      if isNative tag || !tag.toList.contains '-' || tag.toList.any Char.isUpper then tag
      else String.ofList (capitalize (camelize tag.toList)) := by
  rw [outputName, h]

theorem outputName_of_isUpper {cs : Text} (htag : tag.toList = c :: cs) (hc : c.isUpper = true) :
    outputName tag = tag := by
  cases hruntime : runtimeComponent? tag with
  | some name =>
    exact (outputName_of_runtimeComponent? hruntime).trans
      (runtimeComponent?_of_isUpper htag hc hruntime)
  | none => exact (outputName_of_none hruntime).trans (if_pos (by simp [htag, hc]))

theorem exists_camelize_cons (hc : c ≠ '-') (cs : Text) : ∃ cs', camelize (c :: cs) = c :: cs' := by
  cases cs with
  | nil => exact ⟨[], rfl⟩
  | cons d ds => exact ⟨camelize (d :: ds), if_neg fun h => hc h.1⟩

theorem isUpper_toUpper (h : c.isAlpha = true) : c.toUpper.isUpper = true := by
  have hrange := Text.toNat_of_isAlpha h
  have hascii : ∀ n : Fin 123, (Char.ofNat n).isAlpha = true →
      (Char.ofNat n).toUpper.isUpper = true := by decide
  have hc := hascii ⟨c.toNat, by omega⟩
  rw [Char.ofNat_toNat] at hc
  exact hc h

theorem capitalize_cons (h : c.isAlpha = true) (cs : Text) :
    capitalize (c :: cs) = c.toUpper :: cs := by
  have hrange := Text.toNat_of_isAlpha h
  have hupper : Text.upper c = [c.toUpper] := if_pos (by omega)
  rw [capitalize, hupper, List.singleton_append]

/-- Writing the name of a tag again does not change it. -/
theorem outputName_outputName (tag : String) (h : tag.toList.head?.any Char.isAlpha = true) :
    outputName (outputName tag) = outputName tag := by
  cases hruntime : runtimeComponent? tag with
  | some name =>
    rw [outputName_of_runtimeComponent? hruntime]
    exact outputName_of_runtimeComponent? (runtimeComponent?_name hruntime)
  | none =>
    have hwritten := outputName_of_none hruntime
    split at hwritten
    next => rw [hwritten, hwritten]
    next =>
      obtain ⟨c, hhead, hc⟩ := (Option.any_eq_true _ _).mp h
      obtain ⟨cs, htag⟩ := List.head?_eq_some_iff.mp hhead
      have hne : c ≠ '-' := by
        rintro rfl
        cases hc
      obtain ⟨cs', hcamel⟩ := exists_camelize_cons hne cs
      rw [htag, hcamel, capitalize_cons hc] at hwritten
      rw [hwritten]
      exact outputName_of_isUpper String.toList_ofList (isUpper_toUpper hc)

theorem outputName_outputName_hyphens : "my--ßé-ßx".toList.head?.any Char.isAlpha = true ∧
      outputName (outputName "my--ßé-ßx") = outputName "my--ßé-ßx" :=
  ⟨by decide, outputName_outputName _ (by decide)⟩

end SfcTsx.View
