import SfcTsx.Proofs.Script.Classify
import Mathlib.Data.List.Basic

namespace SfcTsx.Script

variable {c : Classification} {calls : List Call} {x : Item} {m : MacroItem} {o : ClassifyOptions}

def macroCallVisitor : Visitor (List Call) where
  enter node _ calls :=
    match node with
    | .expr e =>
      match e.macroCall? with
      | some (call, _) => (false, calls ++ [call])
      | none => (true, calls)
    | _ => (true, calls)
  leave _ _ calls := calls

def Program.macroCalls (p : Program) : List Call := walk macroCallVisitor .deep p []

/-- A macro call without type arguments and what it brings in. -/
structure Expansion where
  helper : ImportItem
  variableDecl : DeclarationItem
  aliasDecl : DeclarationItem
  marker : MacroItem

namespace Expansion

def items (e : Expansion) : List Item :=
  [.importItem e.helper, .declaration e.variableDecl, .declaration e.aliasDecl, .macroCall e.marker]

/-- An import, a constant and a type alias are brought in, and the marker has the names of the two. -/
structure Valid (e : Expansion) : Prop where
  helper : e.helper.generated = true
  variableDecl : e.variableDecl.generated = true ∧ e.variableDecl.kind = .variable .const ∧
    e.variableDecl.name = e.marker.variableName
  aliasDecl : e.aliasDecl.generated = true ∧ e.aliasDecl.kind = .typeAlias ∧
    e.aliasDecl.name = e.marker.aliasName
  typeArgs : e.marker.typeArgs = none

theorem eq_nil_of_import {e : Expansion} {i : ImportItem} {l r : List Item}
    (heq : e.items = l ++ .importItem i :: r) : l = [] ∧ e.helper = i := by
  match l with
  | [] => simp_all [items]
  | [_] | [_, _] | [_, _, _] | _ :: _ :: _ :: _ :: _ => simp [items] at heq

end Expansion

/-- Items that belong together: one that no macro has to do with, a marker with type arguments, or a
marker with what it brings in. -/
inductive Group where
  | plain (item : Item)
  | typed (marker : MacroItem)
  | called (expansion : Expansion)

namespace Group

def items : Group → List Item
  | .plain x => [x]
  | .typed m => [.macroCall m]
  | .called e => e.items

def Valid : Group → Prop
  | .plain x => x.isGenerated = false ∧ x.marker? = none
  | .typed m => m.typeArgs.isSome = true
  | .called e => e.Valid

variable {g : Group} {l r : List Item}

theorem Valid.of_generated (hg : g.Valid) (heq : g.items = l ++ x :: r)
    (hx : x.isGenerated = true) : ∃ e : Expansion, g = .called e ∧ e.Valid ∧ l.length < 3 := by
  cases g with
  | plain y =>
    obtain ⟨rfl, rfl⟩ : l = [] ∧ x = y := by cases l <;> simp_all [items]
    simp [hg.1] at hx
  | typed m =>
    obtain ⟨rfl, rfl⟩ : l = [] ∧ x = .macroCall m := by cases l <;> simp_all [items]
    cases hx
  | called e =>
    refine ⟨e, rfl, hg, ?_⟩
    by_contra hlen
    have hlast : x = .macroCall e.marker := by
      have hget := congrArg (·[l.length]?) heq
      have hlength := congrArg List.length heq
      simp only [items, Expansion.items, List.length_cons, List.length_nil,
        List.length_append] at hlength
      obtain hl : l.length = 3 := by omega
      simpa [items, Expansion.items, hl] using hget.symm
    rw [hlast] at hx
    cases hx

theorem Valid.of_marker (hg : g.Valid) (heq : g.items = l ++ .macroCall m :: r)
    (hm : m.typeArgs = none) :
    ∃ e : Expansion, g = .called e ∧ e.Valid ∧ e.marker = m ∧ l ++ [.macroCall m] = e.items := by
  cases g with
  | plain y =>
    obtain ⟨rfl, rfl⟩ : l = [] ∧ .macroCall m = y := by cases l <;> simp_all [items]
    cases hg.2
  | typed m' =>
    obtain ⟨rfl, rfl⟩ : l = [] ∧ m = m' := by cases l <;> simp_all [items]
    rw [Valid, hm] at hg
    cases hg
  | called e =>
    match l with
    | [] | [_] | [_, _] => simp [items, Expansion.items] at heq
    | [a, b, c] =>
      simp only [items, Expansion.items, List.cons_append, List.nil_append, List.cons.injEq,
        Item.macroCall.injEq] at heq
      obtain ⟨rfl, rfl, rfl, rfl, rfl⟩ := heq
      exact ⟨e, rfl, hg, rfl, rfl⟩
    | _ :: _ :: _ :: _ :: l => simp [items, Expansion.items] at heq

end Group

/-- The items are groups, one behind the other. -/
def Grouped (items : List Item) : Prop :=
  ∃ groups : List Group, items = groups.flatMap Group.items ∧ ∀ g ∈ groups, g.Valid

namespace Grouped

theorem append_group {items : List Item} (h : Grouped items) {g : Group} (hg : g.Valid) :
    Grouped (items ++ g.items) := by
  obtain ⟨groups, rfl, hall⟩ := h
  refine ⟨groups ++ [g], by simp, ?_⟩
  intro g' hg'
  rcases List.mem_append.mp hg' with hmem | hmem
  · exact hall g' hmem
  · rwa [List.mem_singleton.mp hmem]

theorem exists_group {items : List Item} (h : Grouped items) {l r : List Item}
    (heq : items = l ++ x :: r) :
    ∃ (g : Group) (l₁ l₂ r₁ r₂ : List Item), g.Valid ∧ g.items = l₂ ++ x :: r₁ ∧ l = l₁ ++ l₂ ∧
      r = r₁ ++ r₂ := by
  obtain ⟨groups, rfl, hall⟩ := h
  induction groups generalizing l with
  | nil => simp at heq
  | cons g groups ih =>
    rw [List.flatMap_cons] at heq
    rcases List.append_eq_append_iff.mp heq with ⟨l', rfl, hrest⟩ | ⟨r', hitems, hrest⟩
    · obtain ⟨g', l₁, l₂, r₁, r₂, hg', hitems, rfl, rfl⟩ :=
        ih (fun g' hg' => hall g' (.tail _ hg')) hrest
      exact ⟨g', g.items ++ l₁, l₂, r₁, r₂, hg', hitems, by rw [List.append_assoc], rfl⟩
    · cases r' with
      | nil =>
        obtain ⟨g', l₁, l₂, r₁, r₂, hg', hitems', hl, rfl⟩ :=
          ih (fun g' hg' => hall g' (.tail _ hg')) (l := []) hrest.symm
        obtain ⟨rfl, rfl⟩ := List.append_eq_nil_iff.mp hl.symm
        exact ⟨g', l, [], r₁, r₂, hg', hitems', by simp, rfl⟩
      | cons y r' =>
        obtain ⟨rfl, rfl⟩ := List.cons.inj hrest
        exact ⟨g, [], l, r', _, hall g (.head _), hitems, rfl, rfl⟩

end Grouped

/-- The names of a marker are made up for its kind and its model. -/
def MacroItem.Named (marker : String) (m : MacroItem) : Prop :=
  ∃ model, m.modelName = (if m.kind = .model then some model else none) ∧
    m.variableName = m.kind.variableName marker model ∧ m.aliasName = m.kind.aliasName marker model

namespace Classification

variable {o : ClassifyOptions}

/-- The marker has its names and is kept in mind: its model, or else its kind. -/
structure Knows (o : ClassifyOptions) (c : Classification) (m : MacroItem) : Prop where
  named : m.Named o.marker
  model : m.kind = .model → ∃ model ∈ c.models, m.modelName = some model
  single : m.kind ≠ .model → m.kind ∈ c.macros

theorem Knows.mono {c' : Classification} (h : c.Knows o m)
    (hmodels : c.models ⊆ c'.models) (hmacros : c.macros ⊆ c'.macros) : c'.Knows o m := by
  refine ⟨h.named, fun hk => ?_, fun hk => hmacros (h.single hk)⟩
  obtain ⟨model, hmem, hm⟩ := h.model hk
  exact ⟨model, hmodels hmem, hm⟩

end Classification

/-- The markers are of different kinds, or of different models. -/
def MacroItem.Differ (a b : MacroItem) : Prop :=
  a.kind = b.kind → a.kind = .model ∧ a.modelName ≠ b.modelName

namespace Classification

/-- The items answer the calls that have been met. -/
structure Answers (o : ClassifyOptions) (c : Classification) (calls : List Call) : Prop where
  grouped : Grouped c.items.toList
  known : ∀ m ∈ c.items.toList.filterMap Item.marker?, c.Knows o m
  differ : (c.items.toList.filterMap Item.marker?).Pairwise MacroItem.Differ
  verdicts : c.items.toList.filterMap Item.verdict? = calls.map Call.span

namespace Answers

variable {c c' : Classification} {calls : List Call} (h : c.Answers o calls)
include h

theorem congr (hitems : c'.items = c.items) (hmodels : c'.models = c.models)
    (hmacros : c'.macros = c.macros) : c'.Answers o calls := by
  obtain ⟨hgrouped, hknown, hdiffer, hverdicts⟩ := h
  rw [← hitems] at hgrouped hknown hdiffer hverdicts
  refine ⟨hgrouped, fun m hm => (hknown m hm).mono ?_ ?_, hdiffer, hverdicts⟩
  · rw [hmodels]
    exact List.Subset.refl _
  · rw [hmacros]
    exact List.Subset.refl _

theorem push (hx : (Group.plain x).Valid) {new : List Call}
    (hnew : x.verdict?.toList = new.map Call.span) : (c.push x).Answers o (calls ++ new) := by
  have hitems : (c.push x).items.toList = c.items.toList ++ [x] := by simp [Classification.push]
  have hmarkers :
      (c.push x).items.toList.filterMap Item.marker? = c.items.toList.filterMap Item.marker? := by
    rw [hitems, List.filterMap_append, List.filterMap_cons_none hx.2, List.filterMap_nil,
      List.append_nil]
  refine ⟨?_, ?_, ?_, ?_⟩
  · rw [hitems]
    exact h.grouped.append_group hx
  · rw [hmarkers]
    exact fun m hm => (h.known m hm).mono (List.Subset.refl _) (List.Subset.refl _)
  · rw [hmarkers]
    exact h.differ
  · rw [hitems, List.filterMap_append, h.verdicts, List.map_append, ← hnew]
    cases hv : x.verdict? with
    | none => simp [hv]
    | some s => simp [hv]

theorem adds (ho : o.mode = .deep) (hadds : Adds (Written o) c c') : c'.Answers o calls := by
  obtain ⟨xs, rfl, hxs⟩ := hadds
  induction xs generalizing c with
  | nil => simpa using h
  | cons x xs ih =>
    have hx := hxs x (.head _)
    have hpush : (c.push x).Answers o (calls ++ []) :=
      h.push ⟨hx.generated, hx.marker⟩ (by rw [hx.verdict ho]; rfl)
    rw [List.append_nil] at hpush
    simpa [Classification.push] using ih hpush fun y hy => hxs y (.tail _ hy)

theorem warn (message : String) (call : Call) :
    (c.warn message call.span).Answers o (calls ++ [call]) :=
  h.push ⟨rfl, rfl⟩ rfl

theorem mark {g : Group} (hg : g.Valid) {call : Call}
    (hmarker : g.items.filterMap Item.marker? = [m])
    (hverdict : g.items.filterMap Item.verdict? = [call.span])
    (hitems : c'.items = c.items ++ g.items.toArray) (hknows : ∀ m', c.Knows o m' → c'.Knows o m')
    (hm : c'.Knows o m) (hnew : ∀ m', c.Knows o m' → m'.Differ m) : c'.Answers o (calls ++ [call]) := by
  refine ⟨?_, ?_, ?_, ?_⟩
  · simpa [hitems] using h.grouped.append_group hg
  · intro m' hm'
    simp only [hitems, Array.toList_append, List.filterMap_append, hmarker, List.mem_append,
      List.mem_singleton] at hm'
    rcases hm' with hm' | rfl
    · exact hknows m' (h.known m' hm')
    · exact hm
  · simp only [hitems, Array.toList_append, List.filterMap_append, hmarker]
    refine List.pairwise_append.mpr ⟨h.differ, List.pairwise_singleton _ _, fun m' hm' m'' hm'' => ?_⟩
    rw [List.mem_singleton.mp hm'']
    exact hnew m' (h.known m' hm')
  · simp [hitems, h.verdicts, hverdict]

end Answers

theorem exists_group (o : ClassifyOptions) (m : MacroItem) : ∃ g : Group, g.Valid ∧
      g.items = (if m.typeArgs.isSome then [] else macroImports o m) ++ [.macroCall m] ∧
      g.items.filterMap Item.marker? = [m] ∧ g.items.filterMap Item.verdict? = [m.call] := by
  cases htype : m.typeArgs with
  | none => exact ⟨.called ⟨_, _, _, m⟩, ⟨rfl, ⟨rfl, rfl, rfl⟩, ⟨rfl, rfl, rfl⟩, htype⟩, rfl, rfl, rfl⟩
  | some span => exact ⟨.typed m, by simp [Group.Valid, htype], rfl, rfl, rfl⟩

theorem Answers.expand (h : c.Answers o calls)
    (source : Text) (top : Stmt) (name : String) (kind : MacroKind) (call : Call) :
    (c.expand o source top name kind call).Answers o (calls ++ [call]) := by
  have hkind : (macroItem o source top kind call).kind = kind := rfl
  have hcall : (macroItem o source top kind call).call = call.span := rfl
  have hmodel : (macroItem o source top kind call).modelName =
      if kind = .model then some call.modelName else none := rfl
  have hnamed : (macroItem o source top kind call).Named o.marker := ⟨call.modelName, rfl, rfl, rfl⟩
  unfold Classification.expand
  generalize macroItem o source top kind call = m at hkind hcall hmodel hnamed ⊢
  obtain ⟨g, hg, hitems, hmarker, hverdict⟩ := exists_group o m
  rw [hcall] at hverdict
  simp only [← hitems, foldl_push]
  by_cases hk : kind = .model
  · rw [if_pos hk] at hmodel
    simp only [hmodel]
    split
    · exact h.warn _ call
    · next hfresh =>
      refine h.mark hg hmarker hverdict rfl (fun m' hm' => hm'.mono (by simp) (by simp)) ?_ ?_
      · exact ⟨hnamed, fun _ => ⟨call.modelName, .head _, hmodel⟩, fun hne => absurd (hkind.trans hk) hne⟩
      · intro m' hm' hsame
        have hk' : m'.kind = .model := hsame.trans (hkind.trans hk)
        obtain ⟨model, hmem, hm⟩ := hm'.model hk'
        refine ⟨hk', fun heq => hfresh ?_⟩
        rw [hm, hmodel, Option.some.injEq] at heq
        simpa [← heq] using hmem
  · rw [if_neg hk] at hmodel
    simp only [hmodel]
    split
    · exact h.warn _ call
    · next hfresh =>
      refine h.mark hg hmarker hverdict rfl (fun m' hm' => hm'.mono (by simp) (by simp)) ?_ ?_
      · exact ⟨hnamed, fun heq => absurd (hkind.symm.trans heq) hk, fun _ => hkind ▸ .head _⟩
      · intro m' hm' hsame
        have hk' : m'.kind ≠ .model := fun heq => hk (hkind.symm.trans (hsame.symm.trans heq))
        refine absurd ?_ hfresh
        simpa [hsame, hkind] using hm'.single hk'

theorem Answers.macroCall (h : c.Answers o calls)
    (htop : c.top.isSome = true) (source : Text) (ctx : Context) (kind : MacroKind)
    (call : Call) : (c.macroCall o source ctx kind call).Answers o (calls ++ [call]) := by
  obtain ⟨top, htop⟩ := Option.isSome_iff_exists.mp htop
  simp only [Classification.macroCall, htop]
  split
  · exact h.warn _ call
  · split
    · exact h.warn _ call
    · exact h.expand source top _ kind call

/-- With so many statements of the top level open, the items answer the calls that have been met. -/
structure Tracks (o : ClassifyOptions) (n : Nat) (c : Classification) (calls : List Call) : Prop where
  openStmts : c.openStmts = n
  top : 0 < n → c.top.isSome = true
  answers : c.Answers o calls

theorem Tracks.macroCall {n : Nat} (h : c.Tracks o (n + 1) calls)
    (source : Text) (ctx : Context) (kind : MacroKind) (call : Call) :
    (c.macroCall o source ctx kind call).Tracks o (n + 1) (calls ++ [call]) := by
  have hanswers := h.answers.macroCall (h.top (Nat.succ_pos n)) source ctx kind call
  obtain ⟨macros, models, xs, heq, -⟩ := adds_macroCall o source c ctx kind call
  rw [heq] at hanswers ⊢
  exact ⟨h.openStmts, h.top, hanswers⟩

theorem Tracks.await {n : Nat} (h : c.Tracks o n calls)
    (s : Span) : Tracks o n { c.push (.async (some s)) with sawAwait := true } calls := by
  have hanswers : (c.push (.async (some s))).Answers o (calls ++ []) := h.answers.push ⟨rfl, rfl⟩ rfl
  rw [List.append_nil] at hanswers
  exact ⟨h.openStmts, h.top, hanswers.congr rfl rfl rfl⟩

theorem keeps_tracks (o : ClassifyOptions) (source : Text) (n : Nat) :
    (classifier o source).Keeps macroCallVisitor (fun c calls => c.Tracks o (n + 1) calls) := by
  refine ⟨?_, ?_⟩
  · intro node ctx c calls hd h
    cases node with
    | stmt x =>
      simp only [classifier, enter_stmt hd]
      exact ⟨rfl, h⟩
    | pat x => exact ⟨rfl, h⟩
    | expr e =>
      obtain ⟨call, kind, hcall, henter⟩ | ⟨s, arg, rfl, -, -, henter⟩ | ⟨hcall, -, henter⟩ :=
        enter_expr_cases o source e ctx c
      · simp only [classifier, henter, macroCallVisitor, hcall, true_and]
        exact h.macroCall source ctx kind call
      · simp only [classifier, henter]
        exact ⟨rfl, h.await s⟩
      · simpa only [classifier, henter, macroCallVisitor, hcall, true_and] using h
  · intro node ctx c calls hd h
    simpa only [classifier, leave_eq hd, macroCallVisitor] using h

theorem keepsTop_tracks (ho : o.mode = .deep) (source : Text) :
    (classifier o source).KeepsTop macroCallVisitor o.mode (fun n c calls => c.Tracks o n calls) where
  descend n x c calls h := ⟨rfl, rfl⟩
  enter n x c calls h := by
    have hopened : (c.opened x).Answers o calls := h.answers.congr rfl rfl rfl
    have hadds := adds_topLevel o (c.opened x) x
    have hanswers := hopened.adds ho hadds
    obtain ⟨xs, heq, -⟩ := hadds
    have htop : (c.opened x).top.isSome = true := by
      cases hc : c.top <;> simp [opened, hc]
    refine ⟨?_, fun _ => ?_, hanswers⟩
    · exact (congrArg openStmts heq).trans (congrArg (· + 1) h.openStmts)
    · exact (congrArg (fun c : Classification => c.top.isSome) heq).trans htop
  inner _ n := keeps_tracks o source n
  leave n x c calls h := by
    refine ⟨?_, fun hn => ?_, h.answers.congr rfl rfl rfl⟩
    · exact congrArg (· - 1) h.openStmts
    · have hmore : ¬ c.openStmts ≤ 1 := by
        rw [h.openStmts]
        omega
      exact (congrArg Option.isSome (if_neg hmore)).trans (h.top (Nat.succ_pos n))

theorem keepsTop_written (ho : o.mode = .shallow) (source : Text) :
    (classifier o source).KeepsTop macroCallVisitor o.mode
      (fun _ c _ => ∀ x ∈ c.items, (Group.plain x).Valid) where
  descend n x c calls h := ⟨rfl, rfl⟩
  enter n x c calls h := by
    obtain ⟨xs, heq, hxs⟩ := adds_topLevel o (c.opened x) x
    intro y hy
    have hmem : y ∈ (c.opened x).items ∨ y ∈ xs := by
      simpa using (congrArg (fun c : Classification => y ∈ c.items) heq).mp hy
    rcases hmem with hmem | hmem
    · exact h y hmem
    · exact ⟨(hxs y hmem).generated, (hxs y hmem).marker⟩
  inner hdeep := by
    rw [ho] at hdeep
    cases hdeep
  leave n x c calls h := h

end Classification

theorem Grouped.nil : Grouped [] := ⟨[], rfl, by simp⟩

/-- The items of a setup script answer the macro calls in it. -/
theorem exists_answers (ho : o.mode = .deep) (source : Text) (program : Program) :
    ∃ c : Classification, c.Answers o program.macroCalls ∧ c.items.toList = classify o source program := by
  have hstart : Classification.Tracks o 0 {} [] :=
    ⟨rfl, fun h => absurd h (Nat.lt_irrefl 0), Grouped.nil, by simp, .nil, rfl⟩
  have hwalk := ((Classification.keepsTop_tracks ho source).walk program hstart).answers
  rw [ho] at hwalk
  rw [classify_deep ho]
  refine ⟨_, ?_, rfl⟩
  split
  · exact hwalk
  · rw [← List.append_nil program.macroCalls]
    exact hwalk.push ⟨rfl, rfl⟩ rfl

/-- In a setup script, each import that is brought in starts an expansion, each marker without type
arguments ends one, and nothing else is brought in; the markers differ, and the markers and warnings are
about the macro calls in the order in which a walk comes to them. In another script no macro is
expanded. -/
theorem classify_expands (o : ClassifyOptions) (source : Text) (program : Program) :
    let items := classify o source program
    match o.mode with
    | .deep =>
      (∀ l r i, items = l ++ .importItem i :: r → i.generated = true →
        ∃ e : Expansion, e.Valid ∧ e.helper = i ∧ ∃ r', .importItem i :: r = e.items ++ r') ∧
      (∀ l r m, items = l ++ .macroCall m :: r → m.typeArgs = none →
        ∃ e : Expansion, e.Valid ∧ e.marker = m ∧ ∃ l', l ++ [.macroCall m] = l' ++ e.items) ∧
      (∀ l r x, items = l ++ x :: r → x.isGenerated = true →
        ∃ (e : Expansion) (l' r' : List Item), e.Valid ∧ items = l' ++ e.items ++ r' ∧
          l'.length ≤ l.length ∧ l.length < l'.length + 3) ∧
      (items.filterMap Item.marker?).Pairwise MacroItem.Differ ∧
      items.filterMap Item.verdict? = program.macroCalls.map Call.span
    | .shallow => ∀ x ∈ items, x.isGenerated = false ∧ x.marker? = none := by
  cases ho : o.mode with
  | deep =>
    obtain ⟨c, hc, hitems⟩ := exists_answers ho source program
    simp only [← hitems]
    refine ⟨?_, ?_, ?_, hc.differ, hc.verdicts⟩
    · intro l r i heq hi
      obtain ⟨g, l₁, l₂, r₁, r₂, hg, hgitems, rfl, rfl⟩ := hc.grouped.exists_group heq
      obtain ⟨e, rfl, he, -⟩ := hg.of_generated hgitems hi
      obtain ⟨rfl, hhelper⟩ := e.eq_nil_of_import hgitems
      have hgroup : e.items = .importItem i :: r₁ := hgitems
      exact ⟨e, he, hhelper, r₂, by rw [hgroup]; rfl⟩
    · intro l r m heq hm
      obtain ⟨g, l₁, l₂, r₁, r₂, hg, hgitems, rfl, rfl⟩ := hc.grouped.exists_group heq
      obtain ⟨e, rfl, he, hmarker, hl⟩ := hg.of_marker hgitems hm
      exact ⟨e, he, hmarker, l₁, by rw [List.append_assoc, hl]⟩
    · intro l r x heq hx
      obtain ⟨g, l₁, l₂, r₁, r₂, hg, hgitems, rfl, rfl⟩ := hc.grouped.exists_group heq
      obtain ⟨e, rfl, he, hlen⟩ := hg.of_generated hgitems hx
      refine ⟨e, l₁, r₂, he, ?_, by simp, by simpa using hlen⟩
      have hgroup : e.items = l₂ ++ x :: r₁ := hgitems
      rw [heq, hgroup]
      simp
  | shallow =>
    have hwalk := (Classification.keepsTop_written ho source).walk program (s := {}) (t := []) (by simp)
    rw [ho] at hwalk
    simp only [classify_shallow ho]
    exact fun x hx => hwalk x (Array.mem_toList_iff.mp hx)

end SfcTsx.Script
