import SfcTsx.Component.Compile
import SfcTsx.Proofs.EditBuffer.Operation

namespace SfcTsx

theorem nodup_eraseDups {α : Type} [BEq α] [LawfulBEq α] (l : List α) : l.eraseDups.Nodup := by
  match l with
  | [] => simp
  | a :: l =>
    rw [List.eraseDups_cons, List.nodup_cons]
    refine ⟨?_, nodup_eraseDups (l.filter fun b => !b == a)⟩
    simp [List.mem_eraseDups]
termination_by l.length
decreasing_by exact Nat.lt_succ_of_le (List.length_filter_le _ _)

namespace Script

/-- An item of a script gives a value to a name. -/
inductive Item.Gives : Item → String → Prop
  | declared {d : DeclarationItem} {kind : VarKind} (hkind : d.kind = .variable kind)
      (hown : d.generated = false) : Gives (.declaration d) d.name
  | bound (b : BindingItem) : Gives (.binding b) b.name
  | imported {i : ImportItem} {b : ImportBinding} (hb : b ∈ i.bindings) (hvalue : b.typeOnly = false)
      (hown : i.generated = false) : Gives (.importItem i) b.name

end Script

namespace Component

open EditBuffer
open Markup (Document)
open Script (Item MacroItem ObjectProp)

/-- The options of a component expose a name: they declare it, or one of their functions returns it. -/
inductive Exposes (props : List ObjectProp) (name : String) : Prop
  | declared {key : String} {p : ObjectProp} (hkey : key ∈ ["props", "inject", "computed", "methods"])
      (hp : findProp? props key = some p) (hname : name ∈ declaredBy p)
  | returned {key : String} {p : ObjectProp} (hkey : key ∈ ["data", "setup"])
      (hp : findProp? props key = some p) (hname : name ∈ returnedBy p)

namespace Scripts

/-- The scripts have a value for the template under a name: with a setup script by an item of the top
level, unless the name is a made up one, and else by the options of the component. -/
inductive Offers (s : Scripts) (o : Options) (name : String) : Prop
  | given {setup block : ScriptBlock} {item : Item} (hsetup : s.setup = some setup)
      (hblock : block ∈ s.all) (hitem : item ∈ block.items) (hgives : item.Gives name)
      (hown : ¬ o.marker.toList <+: name.toList)
  | exposed {script : ScriptBlock} {span : Span} {e : Script.Expr} {props : List ObjectProp}
      (hsetup : s.setup = none) (hscript : s.script = some script)
      (hdefault : script.defaultExport? = some (span, e)) (hprops : optionsObject? e = some props)
      (hexposes : Exposes props name)

def Declares (s : Scripts) (name : String) : Prop :=
  ∃ setup ∈ s.setup, ∃ m ∈ setup.macros, (m.kind = .props ∨ m.kind = .model) ∧ name ∈ m.propNames

end Scripts

theorem ScriptBlock.mem_valueNames {s : ScriptBlock} {name : String} :
    name ∈ s.valueNames ↔ ∃ item ∈ s.items, item.Gives name := by
  rw [valueNames, List.mem_flatMap]
  refine exists_congr fun item => and_congr_right fun _ => ⟨fun h => ?_, fun h => ?_⟩
  · split at h
    · split at h
      next d _ kind hkind =>
        split at h
        · simp at h
        next hown =>
          obtain rfl := List.mem_singleton.mp h
          exact .declared hkind (by simpa using hown)
      next => simp at h
    · obtain rfl := List.mem_singleton.mp h
      exact .bound _
    · split at h
      · simp at h
      next hown =>
        obtain ⟨b, hb, rfl⟩ := List.mem_map.mp h
        obtain ⟨hb, hvalue⟩ := List.mem_filter.mp hb
        exact .imported hb (by simpa using hvalue) (by simpa using hown)
    · simp at h
  · cases h with
    | declared hkind hown => simp [hkind, hown]
    | bound b => simp
    | imported hb hvalue hown =>
      simp only [hown, Bool.false_eq_true, if_false, List.mem_map]
      exact ⟨_, List.mem_filter.mpr ⟨hb, by simp [hvalue]⟩, rfl⟩

theorem mem_exposedNames {e : Script.Expr} {name : String} :
    name ∈ exposedNames e ↔ ∃ props, optionsObject? e = some props ∧ Exposes props name := by
  -- the names of a section come from the property with its key
  have hsection : ∀ (props : List ObjectProp) (f : ObjectProp → List String) (key : String),
      name ∈ ((findProp? props key).map f).getD [] ↔ ∃ p, findProp? props key = some p ∧ name ∈ f p := by
    intro props f key
    cases findProp? props key <;> simp
  rw [exposedNames]
  cases optionsObject? e with
  | none => simp
  | some props =>
    simp only [List.mem_eraseDups, List.mem_append, List.mem_flatMap, hsection, Option.some.injEq,
      exists_eq_left']
    constructor
    · rintro (⟨key, hkey, p, hp, hname⟩ | ⟨key, hkey, p, hp, hname⟩)
      · exact .declared hkey hp hname
      · exact .returned hkey hp hname
    · rintro (⟨hkey, hp, hname⟩ | ⟨hkey, hp, hname⟩)
      · exact .inl ⟨_, hkey, _, hp, hname⟩
      · exact .inr ⟨_, hkey, _, hp, hname⟩

namespace Scripts

variable {s : Scripts} {o : Options} {name : String}

theorem mem_bindings : name ∈ (s.context o).bindings ↔ s.Offers o name := by
  unfold context
  cases hsetup : s.setup with
  | none =>
    constructor
    · intro h
      cases hdefault : s.script.bind (·.defaultExport?) with
      | none => simp [hdefault] at h
      | some found =>
        obtain ⟨span, e⟩ := found
        obtain ⟨script, hscript, hdefault'⟩ := Option.bind_eq_some_iff.mp hdefault
        obtain ⟨props, hprops, hexposes⟩ := mem_exposedNames.mp (by simpa [hdefault] using h)
        exact .exposed hsetup hscript hdefault' hprops hexposes
    · intro h
      cases h with
      | given hsetup' => rw [hsetup] at hsetup'; cases hsetup'
      | exposed _ hscript hdefault hprops hexposes =>
        have hmem := mem_exposedNames.mpr ⟨_, hprops, hexposes⟩
        simpa [hscript, hdefault] using hmem
  | some setup =>
    simp only [List.mem_eraseDups, List.mem_filter, List.mem_flatMap, ScriptBlock.mem_valueNames,
      Bool.not_eq_true', Bool.eq_false_iff, ne_eq, List.isPrefixOf_iff_prefix]
    constructor
    · rintro ⟨⟨block, hblock, item, hitem, hgives⟩, hown⟩
      exact .given hsetup hblock hitem hgives hown
    · intro h
      cases h with
      | given _ hblock hitem hgives hown => exact ⟨⟨_, hblock, _, hitem, hgives⟩, hown⟩
      | exposed hnone => rw [hsetup] at hnone; cases hnone

theorem mem_props : name ∈ (s.context o).props ↔
    s.Declares name ∧ View.isIdentifier name.toList = true ∧ ¬ s.Offers o name := by
  rw [← mem_bindings]
  unfold context
  cases hsetup : s.setup with
  | none => simp [Declares, hsetup]
  | some setup =>
    simp only [setupProps, Declares, hsetup, List.mem_eraseDups, List.mem_filter, List.mem_flatMap,
      Option.mem_some_iff, exists_eq_left', Bool.and_eq_true, Bool.not_eq_true', Bool.or_eq_true,
      decide_eq_true_eq, List.contains_eq_mem, decide_eq_false_iff_not, and_assoc]

theorem nodup_context (s : Scripts) (o : Options) :
    ((s.context o).bindings ++ (s.context o).props).Nodup := by
  refine List.nodup_append.mpr ⟨?_, ?_, fun a ha b hb hab => ?_⟩
  · unfold context
    cases s.setup with
    | none =>
      cases s.script.bind (·.defaultExport?) with
      | none => exact List.nodup_nil
      | some found =>
        simp only [Option.map_some, Option.getD_some, exposedNames]
        split
        · exact List.nodup_nil
        · exact nodup_eraseDups _
    | some setup => exact nodup_eraseDups _
  · unfold context
    cases s.setup with
    | none => exact List.nodup_nil
    | some setup => exact nodup_eraseDups _
  · subst hab
    exact (mem_props.mp hb).2.2 (mem_bindings.mp ha)

end Scripts

def destructuring (names : List String) (object : String) : Text :=
  if names.isEmpty then []
  else ("const \x7b " ++ ", ".intercalate names ++ " \x7d = " ++ object ++ ";\n").toList

theorem renderHeader_eq (o : Options) (components : List String) {c : Context} (script : Text)
    (h : c.hasSetup = false → c.props = []) : ∃ opening, renderHeader o components c script =
      opening ++ destructuring c.bindings (o.name "ctx") ++
        destructuring c.props (o.name "ctx" ++ "." ++ o.name "props") ++ "return (<>".toList := by
  have hbindings : ∀ names object : String, (if c.bindings.isEmpty then "" else
      s!"const \x7b {names} \x7d = {object};\n").toList =
        if c.bindings.isEmpty then []
        else ("const \x7b " ++ names ++ " \x7d = " ++ object ++ ";\n").toList := by
    intro names object
    split <;> rfl
  have hprops : ∀ names object field : String, (if c.hasSetup && !c.props.isEmpty then
      s!"const \x7b {names} \x7d = {object}.{field};\n" else "").toList =
        if c.props.isEmpty then []
        else ("const \x7b " ++ names ++ " \x7d = " ++ (object ++ "." ++ field) ++ ";\n").toList := by
    intro names object field
    cases hsetup : c.hasSetup with
    | false => simp [h hsetup]
    | true => cases c.props.isEmpty <;> simp [toString]
  simp only [renderHeader, destructuring, String.toList_append, hbindings, hprops, ← List.append_assoc]
  exact ⟨_, rfl⟩

theorem exists_render_of_enclose {α : Type} {head foot : Text} {x a : α} {b b' : EditBuffer}
    (h : (do prepend head; append foot; return x : Editing α) b = .ok a b') :
    ∃ rest, b'.render = head ++ rest := by
  simp only [prepend, append, Editing.bind_apply, Editing.modify_apply, Editing.get_apply,
    Editing.pure_apply, record_apply, EStateM.Result.ok.injEq] at h
  obtain ⟨-, rfl⟩ := h
  exact ⟨_, (List.append_assoc ..).trans (List.append_assoc head b.intro _)⟩

theorem RenderModule.exists_header (o : Options) (d : Document) (c : Context) (script : Text) :
    ∃ components rest, (write o d c script).content = renderHeader o components c script ++ rest := by
  simp only [write]
  split
  next diagnostics b hrun =>
    simp only [editTemplate, EStateM.run, Editing.bind_apply] at hrun
    split at hrun
    next b₁ _ =>
      cases htemplate : (readTemplate d).map (·.1) with
      | none =>
        simp only [htemplate, pure_bind] at hrun
        exact ⟨[], exists_render_of_enclose hrun⟩
      | some t =>
        simp only [htemplate, Editing.bind_apply] at hrun
        split at hrun
        next rendered b₂ _ => exact ⟨rendered.components, exists_render_of_enclose hrun⟩
        next => cases hrun
    next => cases hrun
  next e b hrun => exact ⟨[], renderFooter, rfl⟩

namespace Scripts

theorem props_eq_nil {s : Scripts} {o : Options} (h : (s.context o).hasSetup = false) :
    (s.context o).props = [] := by
  unfold context at h ⊢
  cases hsetup : s.setup with
  | none => rfl
  | some setup => simp [hsetup] at h

end Scripts

theorem ScriptModule.context_write (o : Options) (d : Document) (s : Scripts) :
    (write o d s).context = {} ∧ (∃ x ∈ (write o d s).diagnostics, x.code = .editFailed) ∨
      (write o d s).context = s.context o := by
  simp only [write]
  split
  · exact .inr rfl
  · exact .inl ⟨rfl, _, List.mem_append_right _ (List.mem_singleton_self _), rfl⟩

/-- The names that the render module takes from the scripts are pairwise distinct, and the props among
them are identifiers. Unless the scripts could not be edited, the other names are those on offer, so all
are identifiers exactly if the names on offer are. The module writes the names out as they are. -/
theorem rendered_names_distinct (o : Options) (filename source : Text) :
    let d := (Document.parse o.keepEmpty source).1
    let s := Scripts.ofDocument o d
    let m := ScriptModule.write o d s
    let c := m.context
    (c.bindings ++ c.props).Nodup ∧ (∀ name ∈ c.props, View.isIdentifier name.toList = true) ∧
    (c = {} ∧ (∃ x ∈ m.diagnostics, x.code = .editFailed) ∨
      (∀ name, name ∈ c.bindings ↔ s.Offers o name) ∧
      (∀ name, name ∈ c.props ↔
        s.Declares name ∧ View.isIdentifier name.toList = true ∧ ¬ s.Offers o name) ∧
      ((∀ name ∈ c.bindings ++ c.props, View.isIdentifier name.toList = true) ↔
        ∀ name, s.Offers o name → View.isIdentifier name.toList = true)) ∧
    ∃ a ∈ (compile o filename source).artifacts, a.kind = .render ∧ ∃ opening rest,
      a.content = opening ++ destructuring c.bindings (o.name "ctx") ++
        destructuring c.props (o.name "ctx" ++ "." ++ o.name "props") ++ "return (<>".toList ++ rest := by
  intro d s m c
  have hwritten : c = {} ∧ (∃ x ∈ m.diagnostics, x.code = .editFailed) ∨ c = s.context o :=
    ScriptModule.context_write o d s
  have hc : c = {} ∨ c = s.context o := hwritten.imp_left And.left
  have hnodup : (c.bindings ++ c.props).Nodup := by
    rcases hc with hc | hc
    · simp [hc]
    · rw [hc]
      exact s.nodup_context o
  have hprops : ∀ name ∈ c.props, View.isIdentifier name.toList = true := by
    rcases hc with hc | hc
    · simp [hc]
    · rw [hc]
      exact fun name h => (Scripts.mem_props.mp h).2.1
  have hsetup : c.hasSetup = false → c.props = [] := by
    rcases hc with hc | hc
    · simp [hc]
    · rw [hc]
      exact Scripts.props_eq_nil
  refine ⟨hnodup, hprops, hwritten.imp_right fun hc => ?_, ?_⟩
  · have hbindings : ∀ name, name ∈ c.bindings ↔ s.Offers o name := by
      rw [hc]
      exact fun name => Scripts.mem_bindings
    refine ⟨hbindings, ?_, fun h name hname => ?_, fun h name hname => ?_⟩
    · rw [hc]
      exact fun name => Scripts.mem_props
    · exact h name (List.mem_append_left _ ((hbindings name).mpr hname))
    · rcases List.mem_append.mp hname with hname | hname
      · exact h name ((hbindings name).mp hname)
      · exact hprops name hname
  · obtain ⟨components, rest, hcontent⟩ :=
      RenderModule.exists_header o d c (specifier filename .script)
    obtain ⟨opening, hheader⟩ := renderHeader_eq o components (specifier filename .script) hsetup
    rw [hheader] at hcontent
    exact ⟨_, List.mem_cons_of_mem _ (List.mem_cons_self ..), rfl, opening, rest, hcontent⟩

/-- The string in the array of the props of this component is not an identifier. -/
theorem rendered_names_foo_bar :
    let source := "<script>export default \x7b props: ['foo-bar'] \x7d</script>".toList
    let d := (Document.parse true source).1
    let c := (ScriptModule.write {} d (Scripts.ofDocument {} d)).context
    c.bindings = ["foo-bar"] ∧ View.isIdentifier "foo-bar".toList = false ∧
      ∃ a ∈ (compile {} "Comp.vue".toList source).artifacts, a.kind = .render ∧
        "const \x7b foo-bar \x7d = ___VTSX___ctx;\n".toList <:+: a.content := by
  decide +kernel

/-- What a macro gives stays in front of the function where a type export ends at the first statement. -/
theorem macro_in_front_of_function :
    let source := "<script setup>export type A=1;const p=defineProps(\x7b\x7d)</script>".toList
    ∃ a ∈ (compile {} "Comp.vue".toList source).artifacts, a.kind = .script ∧
      ("export type A=1;const ___VTSX___props = defineProps(\x7b\x7d);\n" ++
        "type ___VTSX___Props = ___VTSX___ExtractProps<typeof ___VTSX___props>;\n" ++
        "export function ___VTSX___BindingContext() \x7b\nconst p=___VTSX___props").toList <:+: a.content := by
  decide +kernel

end Component
end SfcTsx
