import SfcTsx.Proofs.Script.Walk
import SfcTsx.Script.Classify

namespace SfcTsx.Script

variable {o : ClassifyOptions} {ctx : Context}

def Expr.macroCall? (e : Expr) : Option (Call × MacroKind) := do
  let call ← e.call?
  let kind ← call.macroKind?
  return (call, kind)

namespace Item

def isGenerated : Item → Bool
  | .importItem i => i.generated
  | .declaration d => d.generated
  | _ => false

def marker? : Item → Option MacroItem
  | .macroCall m => some m
  | _ => none

def verdict? : Item → Option Span
  | .macroCall m => some m.call
  | .warning p => some p.span
  | _ => none

/-- What an item says about waiting: where the script waits first, if it does. -/
def async? : Item → Option (Option Span)
  | .async first => some first
  | _ => none

end Item

namespace Classification

def Adds (P : Item → Prop) (c c' : Classification) : Prop :=
  ∃ xs : List Item, c' = { c with items := c.items ++ xs.toArray } ∧ ∀ x ∈ xs, P x

namespace Adds

variable {P : Item → Prop} {c c₁ c₂ : Classification}

theorem refl : Adds P c c := ⟨[], by simp, by simp⟩

theorem push {x : Item} (hx : P x) : Adds P c (c.push x) :=
  ⟨[x], by simp [Classification.push], by simpa using hx⟩

theorem trans (h₁ : Adds P c c₁) (h₂ : Adds P c₁ c₂) : Adds P c c₂ := by
  obtain ⟨xs, rfl, hxs⟩ := h₁
  obtain ⟨ys, rfl, hys⟩ := h₂
  refine ⟨xs ++ ys, by simp, fun x hx => ?_⟩
  rcases List.mem_append.mp hx with hmem | hmem
  · exact hxs x hmem
  · exact hys x hmem

theorem foldl {α : Type} {f : Classification → α → Classification} {l : List α}
    (hf : ∀ a ∈ l, ∀ c, Adds P c (f c a)) : Adds P c (l.foldl f c) := by
  induction l generalizing c with
  | nil => exact refl
  | cons a l ih => exact (hf a (.head _) c).trans (ih fun b hb => hf b (.tail _ hb))

end Adds

/-- An item that is written in the script: no macro has brought it in or is marked by it, and it is not
about waiting. A warning stands for a macro outside of a setup script. -/
structure Written (o : ClassifyOptions) (x : Item) : Prop where
  generated : x.isGenerated = false
  marker : x.marker? = none
  async : x.async? = none
  verdict : o.mode = .deep → x.verdict? = none

theorem adds_macroOutsideSetup (ho : o.mode = .shallow) (c : Classification) (e : Expr) :
    Adds (Written o) c (c.macroOutsideSetup e) := by
  have hwarn (message : String) (span : Span) : Adds (Written o) c (c.warn message span) :=
    .push ⟨rfl, rfl, rfl, fun h => by rw [ho] at h; cases h⟩
  unfold macroOutsideSetup
  split
  · split
    · exact hwarn _ _
    · exact .refl
  · exact .refl

theorem functionCall?_eq {e : Expr} {x : Item} (h : functionCall? e = some x) :
    ∃ item, x = .functionCall item := by
  simp only [functionCall?, Option.bind_eq_bind, Option.bind_eq_some_iff, Option.ite_none_left_eq_some,
    Option.some.injEq] at h
  obtain ⟨call, -, name, -, -, rfl⟩ := h
  exact ⟨_, rfl⟩

theorem adds_topLevel (o : ClassifyOptions) (c : Classification) (x : Stmt) :
    Adds (Written o) c (c.topLevel o x) := by
  have houtside (c : Classification) (e : Expr) :
      Adds (Written o) c (if o.mode = .shallow then c.macroOutsideSetup e else c) := by
    split
    · exact adds_macroOutsideSetup ‹_› c e
    · exact .refl
  have hexport (item : ExportItem) :
      Adds (Written o) c ((if o.mode = .deep && !item.typeOnly then
        c.push (.error ⟨"<script setup> cannot contain ES module exports", item.span⟩) else c).push
          (.exportItem item)) := by
    split
    · exact .trans (.push ⟨rfl, rfl, rfl, fun _ => rfl⟩) (.push ⟨rfl, rfl, rfl, fun _ => rfl⟩)
    · exact .push ⟨rfl, rfl, rfl, fun _ => rfl⟩
  cases x with
  | importDecl d => exact .push ⟨rfl, rfl, rfl, fun _ => rfl⟩
  | varDecl s kind _ ds =>
    refine .foldl fun d _ c => ?_
    have hnames : Adds (Written o) c ((d.items kind s).foldl push c) := by
      refine .foldl fun x hx c => .push ?_
      obtain ⟨leaf, -, rfl⟩ := List.mem_map.mp hx
      exact ⟨rfl, rfl, rfl, fun _ => rfl⟩
    cases hinit : d.init with
    | none => simpa only [hinit] using hnames
    | some e => simpa only [hinit] using hnames.trans (houtside _ e)
  | fn f =>
    simp only [topLevel]
    cases f.ident with
    | none => exact .refl
    | some i => exact .push ⟨rfl, rfl, rfl, fun _ => rfl⟩
  | classDecl _ i _ =>
    cases i with
    | none => exact .refl
    | some i => exact .push ⟨rfl, rfl, rfl, fun _ => rfl⟩
  | enumDecl d => exact .push ⟨rfl, rfl, rfl, fun _ => rfl⟩
  | expr _ e =>
    refine .trans ?_ (houtside _ e)
    cases hcall : functionCall? e with
    | none => exact .refl
    | some item =>
      obtain ⟨_, rfl⟩ := functionCall?_eq hcall
      exact .push ⟨rfl, rfl, rfl, fun _ => rfl⟩
  | exportDecl _ _ => exact hexport _
  | exportDefault _ _ => exact hexport _
  | exportNamed _ _ _ _ => exact hexport _
  | exportAll _ _ _ => exact hexport _
  | exportOther _ _ => exact hexport _
  | _ => exact .refl

/-- An expression is a macro call, or is waited for as the first one outside of functions, or passes. -/
theorem enter_expr_cases (o : ClassifyOptions) (source : Text) (e : Expr) (ctx : Context)
    (c : Classification) :
    (∃ call kind, e.macroCall? = some (call, kind) ∧
        c.enter o source (.expr e) ctx = (false, c.macroCall o source ctx kind call)) ∨
      (∃ s arg, e = .await s arg ∧ ctx.functionDepth = 0 ∧ c.sawAwait = false ∧
        c.enter o source (.expr e) ctx = (true, { c.push (.async (some s)) with sawAwait := true })) ∨
      (e.macroCall? = none ∧ (∀ s arg, e = .await s arg → ctx.functionDepth = 0 → c.sawAwait = true) ∧
        c.enter o source (.expr e) ctx = (true, c)) := by
  cases e with
  | await s arg =>
    by_cases hfirst : ctx.functionDepth = 0 ∧ c.sawAwait = false
    · exact .inr (.inl ⟨s, arg, rfl, hfirst.1, hfirst.2, by simp [enter, hfirst]⟩)
    · refine .inr (.inr ⟨rfl, fun _ _ _ hd => ?_, if_neg ?_⟩)
      · simpa [hd] using hfirst
      · simpa using hfirst
  | call s callee typeArgs args =>
    let call : Call := ⟨s, callee, typeArgs, args⟩
    cases hkind : call.macroKind? with
    | none =>
      refine .inr (.inr ⟨?_, by simp, ?_⟩)
      · simp [Expr.macroCall?, Expr.call?, call, hkind]
      · simp [enter, Expr.call?, call, hkind]
    | some kind =>
      refine .inl ⟨call, kind, ?_, ?_⟩
      · simp [Expr.macroCall?, Expr.call?, call, hkind]
      · simp [enter, Expr.call?, call, hkind]
  | _ => exact .inr (.inr ⟨rfl, by simp, rfl⟩)

theorem foldl_push (c : Classification) (xs : List Item) :
    xs.foldl push c = { c with items := c.items ++ xs.toArray } := by
  induction xs generalizing c with
  | nil => simp
  | cons x xs ih => simp [ih, push]

theorem adds_macroCall (o : ClassifyOptions) (source : Text) (c : Classification) (ctx : Context)
    (kind : MacroKind) (call : Call) :
    ∃ macros models, Adds (fun x => x.async? = none) { c with macros, models }
      (c.macroCall o source ctx kind call) := by
  have hwarn (message : String) : ∃ macros models,
      Adds (fun x => x.async? = none) { c with macros, models } (c.warn message call.span) :=
    ⟨c.macros, c.models, .push rfl⟩
  unfold macroCall
  split
  · exact hwarn _
  · split
    · exact ⟨c.macros, c.models, .refl⟩
    · split
      · exact hwarn _
      · next top _ _ =>
        have hasync (m : MacroItem) : ∀ x ∈ (if m.typeArgs.isSome then [] else macroImports o m) ++
            [.macroCall m], x.async? = none := by
          split <;> simp [macroImports, Item.async?]
        simp only [expand, foldl_push]
        split
        · split
          · exact hwarn _
          · next model _ _ => exact ⟨c.macros, model :: c.models, _, rfl, hasync _⟩
        · split
          · exact hwarn _
          · exact ⟨kind :: c.macros, c.models, _, rfl, hasync _⟩

theorem enter_stmt (hd : 0 < ctx.depth) (o : ClassifyOptions) (source : Text) (x : Stmt)
    (c : Classification) : c.enter o source (.stmt x) ctx = (true, c) :=
  if_neg (Nat.ne_of_gt hd)

theorem leave_eq (hd : 0 < ctx.depth) (node : Node) (c : Classification) :
    c.leave node ctx = c := by
  cases node with
  | stmt x => exact if_neg (Nat.ne_of_gt hd)
  | _ => rfl

def opened (c : Classification) (x : Stmt) : Classification :=
  { c with top := c.top.or (some x), openStmts := c.openStmts + 1 }

end Classification

def classifier (o : ClassifyOptions) (source : Text) : Visitor Classification where
  enter := Classification.enter o source
  leave := Classification.leave

theorem classify_deep (ho : o.mode = .deep) (source : Text) (program : Program) :
    classify o source program =
      let c := walk (classifier o source) .deep program {}
      (if c.sawAwait then c else c.push (.async none)).items.toList := by
  cases hsaw : (walk (classifier o source) .deep program {}).sawAwait <;>
    simp_all [classify, classifier]

theorem classify_shallow (ho : o.mode = .shallow) (source : Text) (program : Program) :
    classify o source program = (walk (classifier o source) .shallow program {}).items.toList := by
  simp [classify, ho, classifier]

end SfcTsx.Script
