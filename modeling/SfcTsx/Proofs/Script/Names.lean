import SfcTsx.Proofs.Script.Expansion
import SfcTsx.Script.Generic
import SfcTsx.Script.Tolerant

namespace SfcTsx.Script

theorem MacroKind.names_eq_iff (k l : MacroKind) (marker x y : String) :
    let same := k = l ∧ (k = .model → modelSuffix x = modelSuffix y)
    (k.variableName marker x = l.variableName marker y ↔ same) ∧
      (k.aliasName marker x = l.aliasName marker y ↔ same) := by
  cases k <;> cases l <;> simp [variableName, aliasName, String.append_assoc]
  -- a fixed name and that of a model begin with different letters
  all_goals constructor <;> intro h <;> simpa using congrArg String.toList h

namespace MacroItem

def SameSuffix (a b : MacroItem) : Prop :=
  ∃ x ∈ a.modelName, ∃ y ∈ b.modelName, MacroKind.modelSuffix x = MacroKind.modelSuffix y

theorem Differ.names_eq_iff {a b : MacroItem} {marker : String} (h : a.Differ b) (ha : a.Named marker)
    (hb : b.Named marker) :
    (a.variableName = b.variableName ↔ a.SameSuffix b) ∧ (a.aliasName = b.aliasName ↔ a.SameSuffix b) := by
  obtain ⟨x, hx, hv, ht⟩ := ha
  obtain ⟨y, hy, hv', ht'⟩ := hb
  have hsame : a.SameSuffix b ↔
      a.kind = b.kind ∧ (a.kind = .model → MacroKind.modelSuffix x = MacroKind.modelSuffix y) := by
    rw [SameSuffix, hx, hy]
    by_cases hk : a.kind = .model <;> by_cases hl : b.kind = .model <;> simp [hk, hl]
    · exact fun heq => absurd heq.symm hl
    · exact fun heq => hk (h heq).1
  rw [hsame, hv, hv', ht, ht']
  exact MacroKind.names_eq_iff _ _ marker x y

theorem nodup_iff {ms : List MacroItem} (hms : ms.Pairwise Differ) {f : MacroItem → String}
    (hf : ∀ a ∈ ms, ∀ b ∈ ms, a.Differ b → (f a = f b ↔ a.SameSuffix b)) :
    (ms.map f).Nodup ↔ ((ms.filterMap (·.modelName)).map MacroKind.modelSuffix).Nodup := by
  simp only [List.Nodup, List.pairwise_map, List.pairwise_filterMap]
  constructor <;> intro h <;> refine (h.and hms).imp_of_mem fun {a b} ha hb hab => ?_
  · exact fun x hx y hy heq => hab.1 ((hf a ha b hb hab.2).mpr ⟨x, hx, y, hy, heq⟩)
  · intro heq
    obtain ⟨x, hx, y, hy, hxy⟩ := (hf a ha b hb hab.2).mp heq
    exact hab.1 x hx y hy hxy

end MacroItem

/-- The names made up for the macros of a setup script are different, but for those of models whose
names become the same as part of an identifier. -/
theorem classify_names_nodup_iff (o : ClassifyOptions) (source : Text) (program : Program) :
    let markers := (classify { o with mode := .deep } source program).filterMap Item.marker?
    let suffixes := (markers.filterMap (·.modelName)).map MacroKind.modelSuffix
    ((markers.map (·.variableName)).Nodup ↔ suffixes.Nodup) ∧
      ((markers.map (·.aliasName)).Nodup ↔ suffixes.Nodup) := by
  obtain ⟨c, hc, hitems⟩ := exists_answers (o := { o with mode := .deep }) rfl source program
  have hnames (a) (ha : a ∈ c.items.toList.filterMap Item.marker?) (b)
      (hb : b ∈ c.items.toList.filterMap Item.marker?) (hab : a.Differ b) :=
    hab.names_eq_iff (hc.known a ha).named (hc.known b hb).named
  rw [← hitems]
  exact ⟨MacroItem.nodup_iff hc.differ fun a ha b hb hab => (hnames a ha b hb hab).1,
    MacroItem.nodup_iff hc.differ fun a ha b hb hab => (hnames a ha b hb hab).2⟩

/-- Two models with different names get the same variable and the same type alias. -/
theorem classify_models_clash :
    let source := "defineModel('a-b');defineModel('a_b')".toList
    (classify {} source (Tolerant.parse .ts source)).filterMap (fun x =>
        x.marker?.map fun m => (m.modelName, m.variableName, m.aliasName)) =
      [(some "a-b", "___VTSX___model_a_b", "___VTSX___Model_a_b"),
        (some "a_b", "___VTSX___model_a_b", "___VTSX___Model_a_b")] := by
  decide +kernel

/-- Behind a line break, the name of a member that is also that of a type parameter is taken for a
reference to it; behind a semicolon it is not. -/
theorem Generics.parse?_marks_member :
    let declaration (source : String) :=
      (parse? source.toList ⟨0, 13⟩ "P_".toList).map fun g => (g.names, String.ofList g.declaration)
    declaration "T,U=\x7ba:1;T:1\x7d" = some (["T", "U"], "<P_T = any, P_U=\x7ba:1;T:1\x7d>") ∧
      declaration "T,U=\x7ba:1\nT:1\x7d" = some (["T", "U"], "<P_T = any, P_U=\x7ba:1\nP_T:1\x7d>") := by
  decide +kernel

end SfcTsx.Script
