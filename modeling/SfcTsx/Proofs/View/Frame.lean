import SfcTsx.Component.RenderModule
import SfcTsx.Proofs.Markup.Extract
import SfcTsx.Proofs.View.Render

namespace SfcTsx

variable {os : List Operation} {lo hi : Nat} {source : Text} {b : EditBuffer}

open Markup (Directive Document Tag Template)

namespace Operation

theorem Within.apply_append {o : Operation} (h : o.Within lo hi) {P M S : List Cell}
    (hP : ∀ c ∈ P, c.stop ≤ lo) (hS : ∀ c ∈ S, hi ≤ c.start) :
    apply (P ++ (M ++ S)) o = P ++ (apply M o ++ S) := by
  have hout : ∀ c ∈ P ++ S, c.stop ≤ lo ∨ hi ≤ c.start := by
    intro c hc
    exact (List.mem_append.mp hc).imp (hP c) (hS c)
  have hpaint : ∀ c ∈ P ++ S, o.paint c = c := by
    intro c hc
    have hside := hout c hc
    have hlt := c.start_lt_stop
    have hnot : ∀ s e, lo ≤ s → e ≤ hi → c.isIn s e = false := by
      intro s e hs he
      simp only [Cell.isIn, Bool.and_eq_false_iff, decide_eq_false_iff_not]
      omega
    cases o with
    | insertLeft n t =>
      simp only [Within] at h
      exact if_neg (by omega)
    | prependRight n t =>
      simp only [Within] at h
      exact if_neg (by omega)
    | remove s e =>
      simp only [Within] at h
      simp only [paint, hnot s e (by omega) (by omega)]
      rfl
    | overwrite s e t =>
      simp only [Within] at h
      simp only [paint, hnot s e (by omega) (by omega)]
      rfl
    | _ => rfl
  have hmap : (P ++ (M ++ S)).map o.paint = P ++ (M.map o.paint ++ S) := by
    rw [List.map_append, List.map_append, List.map_congr_left fun c hc => hpaint c (by simp [hc]),
      List.map_congr_left (l := S) fun c hc => hpaint c (by simp [hc]), List.map_id', List.map_id']
  cases o with
  | moveRange s e d =>
    simp only [Within] at h
    have hin : ∀ c ∈ P ++ S, c.isIn s e = false := by
      intro c hc
      have hside := hout c hc
      have hlt := c.start_lt_stop
      simp only [Cell.isIn, Bool.and_eq_false_iff, decide_eq_false_iff_not]
      omega
    have hd : ∀ c ∈ P ++ S, c.start ≠ d := by
      intro c hc
      have hside := hout c hc
      have hlt := c.start_lt_stop
      omega
    have hnone : ∀ l : List Cell, (∀ c ∈ l, c ∈ P ++ S) → l.filter (Cell.isIn s e) = [] := by
      intro l hl
      exact List.filter_eq_nil_iff.mpr fun c hc => by simp [hin c (hl c hc)]
    have hpass : ∀ l moved : List Cell, (∀ c ∈ l, c ∈ P ++ S) → l.flatMap (passing s e d moved) = l :=
      fun l moved hl => flatMap_passing (fun c hc => hin c (hl c hc)) fun c hc => hd c (hl c hc)
    have hmoved : (P ++ (M ++ S)).filter (Cell.isIn s e) = M.filter (Cell.isIn s e) := by
      rw [List.filter_append, List.filter_append, hnone P (by simp +contextual), hnone S (by simp +contextual),
        List.nil_append, List.append_nil]
    show relocate s e d (P ++ (M ++ S)) = P ++ (relocate s e d M ++ S)
    rw [relocate_append _ P M S rfl, hmoved, hpass P _ (by simp +contextual),
      hpass S _ (by simp +contextual)]
    rfl
  | _ => exact hmap

theorem applyAll_append (h : ∀ o ∈ os, o.Within lo hi)
    {P M S : List Cell} (hP : ∀ c ∈ P, c.stop ≤ lo) (hS : ∀ c ∈ S, hi ≤ c.start) :
    applyAll (P ++ (M ++ S)) os = P ++ (applyAll M os ++ S) := by
  induction os generalizing M with
  | nil => rfl
  | cons o os ih =>
    have hstep : applyAll (P ++ (M ++ S)) (o :: os) = applyAll (apply (P ++ (M ++ S)) o) os := rfl
    rw [hstep, (h o (by simp)).apply_append hP hS]
    exact ih fun o' ho' => h o' (by simp [ho'])

end Operation

namespace View

def TidyTemplate (source : Text) (t : Template) : Prop :=
  ∀ tag ∈ Markup.Node.allTags t.nodes, ∀ d ∈ tag.directives, Tidy source d

instance (source : Text) (d : Directive) : Decidable (Tidy source d) :=
  Option.decidableForallMem (d.span.text source).getLast?

instance (source : Text) (t : Template) : Decidable (TidyTemplate source t) :=
  inferInstanceAs (Decidable (∀ tag ∈ Markup.Node.allTags t.nodes, ∀ d ∈ tag.directives, Tidy source d))

section
variable {source : Text} {lo hi : Nat} (hlo : source.isBoundary lo = true)
  (hhi : source.isBoundary hi = true) (hle : lo ≤ hi)
include hlo hhi hle

theorem nodesPlaced_parse {ok : Tag → Prop}
    (hok : ∀ t ∈ Markup.Node.allTags (Template.parse source ⟨lo, hi⟩).1.nodes, TagPlaced source t → ok t) :
    NodesPlaced source ok lo hi (Template.parse source ⟨lo, hi⟩).1.nodes := by
  obtain ⟨t, ht⟩ := Text.At.of_isBoundary hlo
  obtain ⟨u, hu⟩ := Text.At.of_isBoundary hhi
  obtain ⟨s, rfl, rfl⟩ := ht.between hu hle
  have hsize := hu.le_size
  obtain ⟨ss, htext, hfits, hnodes⟩ := Template.exists_of_parse source hle (by omega)
  rw [ht.slice] at htext
  rw [hnodes] at hok ⊢
  rw [htext] at ht ⊢
  exact nodesPlaced_shapes ss hfits ht hok

theorem templateEdits_sound {p : Prop} (env : Setting) (henv : env.source = source)
    (htidy : p → TidyTemplate source (Template.parse source ⟨lo, hi⟩).1) :
    Operation.Sound source p lo hi (templateEdits env (Template.parse source ⟨lo, hi⟩).1) := by
  have hplaced : NodesPlaced source (fun t => p → ∀ d ∈ t.directives, Tidy source d) lo hi
      (Template.parse source ⟨lo, hi⟩).1.nodes :=
    nodesPlaced_parse hlo hhi hle fun t ht _ hp => htidy hp t ht
  obtain ⟨hformed, hdropped⟩ := buildAll_formed false none _ (Nat.le_refl lo) hplaced
  obtain ⟨hremove, hbare⟩ := removeSpans_sound (p := p) hdropped
  have hrender := renderAll_sound henv (fun tag h => h) _ hformed .child
  exact hremove.append hrender.sound fun o ho o' _ => hbare.compatible ho o'

omit hlo hle in
theorem Sound.fits {p : Prop} (h : Operation.Sound source p lo hi os) :
    ∀ o ∈ os, o.Fits source := by
  exact fun o ho => (h.within o ho).fits (Text.le_size_of_isBoundary hhi) (h.boundary o ho)

theorem render_templateEdits (env : Setting) (henv : env.source = source)
    (hok : EditBuffer.perform (templateEdits env (Template.parse source ⟨lo, hi⟩).1) (.ofText source) =
      .ok () b) :
    ∃ X, b.render = source.slice 0 lo ++ X ++ source.slice hi source.size := by
  have hsound := templateEdits_sound (p := False) hlo hhi hle env henv False.elim
  have hfits := Sound.fits hhi hsound
  obtain ⟨t, ht⟩ := Text.At.of_isBoundary hlo
  obtain ⟨after, hafter⟩ := Text.At.of_isBoundary hhi
  obtain ⟨content, rfl, rfl⟩ := ht.between hafter hle
  obtain ⟨before, rfl, rfl⟩ := ht
  have hfront : Text.slice 0 before.size (before ++ (content ++ after)) = before :=
    Text.slice_head before (content ++ after)
  have hback : Text.slice (before.size + content.size) (before ++ (content ++ after)).size
      (before ++ (content ++ after)) = after := (Text.slice_size hhi).unique hafter
  rw [hfront, hback]
  generalize templateEdits env (Template.parse _ _).1 = os at hok hsound hfits
  by_cases hne : before ++ (content ++ after) = []
  · obtain ⟨rfl, hrest⟩ := List.append_eq_nil_iff.mp hne
    obtain ⟨rfl, rfl⟩ := List.append_eq_nil_iff.mp hrest
    exact ⟨b.render, by simp⟩
  · have hrender := EditBuffer.render_perform hne hfits (hsound.compatible.imp fun h => h.1) hok
    have hcells : Text.cells 0 (before ++ (content ++ after)) = Text.cells 0 before ++
        (Text.cells before.size content ++ Text.cells (before.size + content.size) after) := by
      rw [Text.cells_append, Text.cells_append, Nat.zero_add]
    have hbefore : ∀ c ∈ Text.cells 0 before, c.stop ≤ before.size := by
      intro c hc
      have := (Text.mem_cells hc).2
      omega
    have hbehind : ∀ c ∈ Text.cells (before.size + content.size) after,
        before.size + content.size ≤ c.start := fun c hc => (Text.mem_cells hc).1
    rw [hcells, Operation.applyAll_append hsound.within hbefore hbehind, List.flatMap_append,
      List.flatMap_append, Text.flatMap_render_cells, Text.flatMap_render_cells] at hrender
    exact ⟨_, by rw [hrender, List.append_assoc]⟩

end

theorem renderTemplate_eq {env : Setting} {t : Template} {b' : EditBuffer} {out : Rendered} :
    renderTemplate env t b = .ok out b' → EditBuffer.perform (templateEdits env t) b = .ok () b' := by
  intro h
  simp only [renderTemplate, Editing.bind_apply] at h
  cases hp : EditBuffer.perform (templateEdits env t) b with
  | error e b₁ =>
    rw [hp] at h
    cases h
  | ok _ b₁ =>
    rw [hp] at h
    cases h
    rfl

theorem templateEdits_nil (env : Setting) (hlo : Text.isBoundary lo [] = true)
    (hhi : Text.isBoundary hi [] = true) : templateEdits env (Template.parse [] ⟨lo, hi⟩).1 = [] := by
  have hzero : ∀ n, Text.isBoundary n [] = true → n = 0 := fun n hn =>
    Nat.le_zero.mp (Text.le_size_of_isBoundary hn)
  obtain rfl := hzero lo hlo
  obtain rfl := hzero hi hhi
  rfl

theorem exists_renderTemplate {env : Setting} {t : Template} {b' : EditBuffer}
    (h : EditBuffer.perform (templateEdits env t) b = .ok () b') :
    ∃ out, renderTemplate env t b = .ok out b' := by
  simp only [renderTemplate, Editing.bind_apply, h]
  exact ⟨_, rfl⟩

def Removals (source : Text) (os : List Operation) : Prop := ∀ o ∈ os, ∃ s e, o = .remove s e ∧ s < e ∧
  source.isBoundary s = true ∧ source.isBoundary e = true

theorem removals_nil (source : Text) : Removals source [] := by simp [Removals]

theorem Removals.eq_nil (h : Removals [] os) : os = [] := by
  refine List.eq_nil_iff_forall_not_mem.mpr fun o ho => ?_
  obtain ⟨s, e, -, hlt, -, he⟩ := h o ho
  have hsize := Text.le_size_of_isBoundary he
  rw [Text.size_nil] at hsize
  omega

theorem removeExcept_removals {range : Span} {kept : List Span}
    (hrange : range.Fits source) (hkept : ∀ k ∈ kept, k.Fits source) :
    Removals source (removeExcept range kept) := by
  intro o ho
  obtain ⟨s, e, rfl, hlt, hs, he⟩ := mem_removeExcept ho
  refine ⟨s, e, rfl, hlt, ?_, ?_⟩
  · rcases hs with rfl | ⟨k, hk, rfl⟩
    · exact hrange.start
    · exact (hkept k hk).stop
  · rcases he with rfl | ⟨k, hk, rfl⟩
    · exact hrange.stop
    · exact (hkept k hk).start

theorem Removals.bare (h : Removals source os) : Bare os := by
  intro o ho
  obtain ⟨s, e, rfl, hlt, -⟩ := h o ho
  exact ⟨Nat.le_of_lt hlt, rfl⟩

theorem Removals.fits (h : Removals source os) : ∀ o ∈ os, o.Fits source := by
  intro o ho
  obtain ⟨s, e, rfl, hlt, hs, he⟩ := h o ho
  exact ⟨by simpa [Operation.offsets] using ⟨hs, he⟩, Nat.le_of_lt hlt⟩

/-- Texts can be removed before the edits of a template are made. -/
theorem exists_perform_removes (hhi : source.isBoundary hi = true)
    {os' : List Operation} (hos : Removals source os)
    (hsound : Operation.Sound source True lo hi os') (hnil : source = [] → os' = []) :
    ∃ b, EditBuffer.perform (os ++ os') (.ofText source) = .ok () b := by
  by_cases hne : source = []
  · have hos' : os = [] := Removals.eq_nil (by rwa [hne] at hos)
    rw [hos', hnil hne]
    exact ⟨_, rfl⟩
  · have hall := hos.bare.pairwise_append hsound.compatible
    refine EditBuffer.exists_perform hne ?_ (hall.imp fun h => h.1) (hall.imp fun h => h.2 trivial)
    exact List.forall_mem_append.mpr ⟨hos.fits, Sound.fits hhi hsound⟩

theorem perform_append (os os' : List Operation) (b : EditBuffer) :
    EditBuffer.perform (os ++ os') b =
      (EditBuffer.perform os >>= fun _ => EditBuffer.perform os') b := by
  induction os generalizing b with
  | nil => rfl
  | cons o os ih =>
    simp only [List.cons_append, EditBuffer.perform, Editing.bind_apply]
    cases o.run b with
    | error e b₁ => rfl
    | ok _ b₁ => simp [ih]

theorem exists_editTemplate (keepEmpty : Bool) (source : Text) (o : Component.Options)
    (context : Component.Context) (script : Text)
    (htidy : ∀ t ∈ Component.readTemplate (Document.parse keepEmpty source).1, TidyTemplate source t.1) :
    ∃ ds b, Component.editTemplate o (Document.parse keepEmpty source).1
      ((Component.readTemplate (Document.parse keepEmpty source).1).map (·.1)) context script
      (.ofText source) = .ok ds b := by
  generalize hd : (Document.parse keepEmpty source).1 = d at htidy ⊢
  have hsource : d.source = source := by rw [← hd]; rfl
  have htiles := hd ▸ (Markup.parse_tiles keepEmpty source).1
  have hsize : source.isBoundary source.size = true := (Text.At.size source).isBoundary
  have hzero : source.isBoundary 0 = true := (Text.At.zero source).isBoundary
  have hfits : ∀ block ∈ d.template?, block.content.Fits source := fun block hb =>
    (htiles block (List.mem_of_find?_eq_some hb)).1.content
  have hremoves : Removals source (removeExcept ⟨0, source.size⟩ (d.template?.toList.map (·.content))) := by
    refine removeExcept_removals ⟨Nat.zero_le _, hzero, hsize⟩ fun k hk => ?_
    obtain ⟨block, hb, rfl⟩ := List.mem_map.mp hk
    exact hfits block (Option.mem_toList.mp hb)
  unfold Component.editTemplate
  rw [hsource]
  cases hblock : d.template? with
  | none =>
    have hread : Component.readTemplate d = none := by simp [Component.readTemplate, hblock]
    rw [hblock] at hremoves
    obtain ⟨b, hb⟩ := exists_perform_removes hzero hremoves (Operation.Sound.nil (a := 0)) fun _ => rfl
    rw [List.append_nil] at hb
    simp only [hread, Option.map_none, Editing.bind_apply, hb, Editing.pure_apply]
    exact ⟨_, _, rfl⟩
  | some block =>
    have hread : Component.readTemplate d = some (Template.parse source block.content) := by
      simp [Component.readTemplate, hblock, hsource]
    obtain ⟨hle, hlo, hhi⟩ := hfits block hblock
    have hsound := templateEdits_sound (p := True) hlo hhi hle ⟨source, o.marker.toList⟩ rfl
      fun _ => htidy _ hread
    rw [hblock] at hremoves
    obtain ⟨b, hb⟩ := exists_perform_removes hhi hremoves hsound fun hnil => by
      subst hnil
      exact templateEdits_nil _ hlo hhi
    rw [perform_append, Editing.bind_apply] at hb
    cases hfirst : EditBuffer.perform
        (removeExcept ⟨0, source.size⟩ ((some block).toList.map (·.content))) (.ofText source) with
    | error e b₁ =>
      rw [hfirst] at hb
      cases hb
    | ok _ b₁ =>
      rw [hfirst] at hb
      obtain ⟨out, hout⟩ := exists_renderTemplate hb
      simp only [hread, Option.map_some, Editing.bind_apply, hfirst, hout]
      exact ⟨_, _, rfl⟩

/-- No edit is refused if no directive of the template ends with white space: the template is
rendered, and the render module of a document with it is written. -/
theorem renderTemplate_accepted (source : Text) :
    (∀ (marker : Text) (lo hi : Nat), source.isBoundary lo = true → source.isBoundary hi = true →
      lo ≤ hi → TidyTemplate source (Template.parse source ⟨lo, hi⟩).1 →
      ∃ out b, renderTemplate ⟨source, marker⟩ (Template.parse source ⟨lo, hi⟩).1 (.ofText source) =
        .ok out b) ∧
    ∀ (keepEmpty : Bool) (o : Component.Options) (context : Component.Context) (script : Text),
      (∀ t ∈ Component.readTemplate (Document.parse keepEmpty source).1, TidyTemplate source t.1) →
      ∃ ds b, Component.editTemplate o (Document.parse keepEmpty source).1
        ((Component.readTemplate (Document.parse keepEmpty source).1).map (·.1)) context script
        (.ofText source) = .ok ds b := by
  refine ⟨fun marker lo hi hlo hhi hle htidy => ?_, fun keepEmpty o context script htidy =>
    exists_editTemplate keepEmpty source o context script htidy⟩
  have hsound := templateEdits_sound (p := True) hlo hhi hle ⟨source, marker⟩ rfl fun _ => htidy
  obtain ⟨b, hb⟩ := exists_perform_removes hhi (removals_nil _) hsound fun hnil => by
    subst hnil
    exact templateEdits_nil _ hlo hhi
  obtain ⟨out, hout⟩ := exists_renderTemplate hb
  exact ⟨out, b, hout⟩

/-- A template with a loop, a condition and directives without values. -/
def guardedTemplate : Text :=
  "<template><p :a v-for=\"x in y\" v-if=\"x\" v-model @b>\x7b\x7b x \x7d\x7d</p></template>".toList

theorem renderTemplate_accepted_guarded :
    TidyTemplate guardedTemplate (Template.parse guardedTemplate ⟨10, 62⟩).1 ∧
      (∃ out b, renderTemplate ⟨guardedTemplate, []⟩ (Template.parse guardedTemplate ⟨10, 62⟩).1
        (.ofText guardedTemplate) = .ok out b) ∧
      ∃ ds b, Component.editTemplate {} (Document.parse false guardedTemplate).1
        ((Component.readTemplate (Document.parse false guardedTemplate).1).map (·.1)) {} []
        (.ofText guardedTemplate) = .ok ds b := by
  have htidy : TidyTemplate guardedTemplate (Template.parse guardedTemplate ⟨10, 62⟩).1 := by
    decide +kernel
  refine ⟨htidy, (renderTemplate_accepted guardedTemplate).1 [] 10 62 (by decide) (by decide) (by decide)
    htidy, (renderTemplate_accepted guardedTemplate).2 false {} {} [] ?_⟩
  decide +kernel

theorem exists_ok {α : Type} {r : EStateM.Result EditError EditBuffer α}
    (h : (match r with | .error _ _ => false | .ok _ _ => true) = true) : ∃ a b, r = .ok a b := by
  cases r with
  | error e b => cases h
  | ok a b => exact ⟨a, b, rfl⟩

theorem exists_error {α : Type} {r : EStateM.Result EditError EditBuffer α} {e : EditError}
    (h : (match r with | .error e _ => some e | .ok _ _ => none) = some e) : ∃ b, r = .error e b := by
  cases r with
  | error e' b => exact ⟨b, by rw [Option.some.inj h]⟩
  | ok a b => cases h

/-- The white space at the end of `:a` was replaced with it when `v-model` is to be removed with the
white space in front of it. -/
theorem renderTemplate_splitEdited : ∃ b, renderTemplate ⟨"<div :a\xa0 v-model></div>".toList, []⟩
      (Template.parse "<div :a\xa0 v-model></div>".toList ⟨0, 24⟩).1
      (.ofText "<div :a\xa0 v-model></div>".toList) = .error (.splitEdited 7) b :=
  exists_error (by decide +kernel)

/-- Rendering a template changes nothing outside of it. -/
theorem renderTemplate_outside (source marker : Text) (lo hi : Nat) (hlo : source.isBoundary lo = true)
    (hhi : source.isBoundary hi = true) (hle : lo ≤ hi) {out : Rendered} {b : EditBuffer}
    (hok : renderTemplate ⟨source, marker⟩ (Template.parse source ⟨lo, hi⟩).1 (.ofText source) =
      .ok out b) :
    ∃ X, b.render = source.slice 0 lo ++ X ++ source.slice hi source.size :=
  render_templateEdits hlo hhi hle _ rfl (renderTemplate_eq hok)

theorem renderTemplate_outside_guarded :
    ∃ out b X, renderTemplate ⟨guardedTemplate, []⟩ (Template.parse guardedTemplate ⟨10, 62⟩).1
        (.ofText guardedTemplate) = .ok out b ∧
      b.render = guardedTemplate.slice 0 10 ++ X ++ guardedTemplate.slice 62 guardedTemplate.size := by
  obtain ⟨out, b, hok⟩ : ∃ out b, renderTemplate ⟨guardedTemplate, []⟩
      (Template.parse guardedTemplate ⟨10, 62⟩).1 (.ofText guardedTemplate) = .ok out b :=
    exists_ok (by decide +kernel)
  obtain ⟨X, hX⟩ := renderTemplate_outside guardedTemplate [] 10 62 (by decide) (by decide) (by decide) hok
  exact ⟨out, b, X, hok, hX⟩

/-- What a source becomes that is a template as a whole. -/
def rendering? (source marker : Text) : Option Text :=
  match renderTemplate ⟨source, marker⟩ (Template.parse source ⟨0, source.size⟩).1 (.ofText source) with
  | .ok _ b => some b.render
  | .error .. => none

/-- The slash of a void element is stuck to what ends its start tag. A condition without quotes takes it
along when it is moved. -/
theorem rendering?_unquoted_condition :
    rendering? "<br v-if=ok>".toList [] = some "\x7b (ok/) ? <br> : undefined \x7d".toList ∧
      rendering? "<br v-if=\"ok\">".toList [] = some "\x7b (ok) ? <br/> : undefined \x7d".toList := by
  decide +kernel

/-- Whether a void element has its slash is read off its source, where a loop may stand behind it. -/
theorem rendering?_loop_behind_slash : rendering? "<br / v-for=\"x in y\">".toList [] =
        some "\x7b renderList(y, (x) => \x7b <br //> \x7d) \x7d".toList ∧
      rendering? "<br />".toList [] = some "<br />".toList := by
  decide +kernel

theorem rendering?_condition_behind_slash : rendering? "<br / v-if=\"a\">".toList [] =
      some "\x7b (a) ? <br //> : undefined \x7d".toList := by
  decide +kernel

/-- A closing tag that closes nothing is no node, and stays among the entries for the slots. -/
theorem rendering?_stray_among_entries :
    rendering? "<A><template #x>y</template></b></A>".toList [] =
      some "<A>\x7b\x7b x: () => <>y</></b> \x7d\x7d</A>".toList := by
  decide +kernel

end View
end SfcTsx
