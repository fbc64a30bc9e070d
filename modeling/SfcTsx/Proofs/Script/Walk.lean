import Mathlib.Data.List.Flatten
import SfcTsx.Script.Walk

namespace SfcTsx.Script

variable {σ τ : Type}

/-- A node in the context in which a walk comes to it. -/
structure Place where
  ctx : Context
  node : Node

def PropKey.children (ctx : Context) : PropKey → List Place
  | .computed e => [⟨ctx, .expr e⟩]
  | _ => []

def Fn.children (ctx : Context) (f : Fn) : List Place :=
  f.params.map (⟨ctx.inFunction, .pat ·⟩) ++ match f.body with
    | .block _ stmts => stmts.map (⟨ctx.inFunction, .stmt ·⟩)
    | .expr e => [⟨ctx.inFunction, .expr e⟩]
    | .none => []

def Declarator.children (ctx : Context) (d : Declarator) : List Place :=
  ⟨ctx, .pat d.name⟩ :: d.init.toList.map (⟨ctx, .expr ·⟩)

def ObjectProp.children (keys : Bool) (ctx : Context) : ObjectProp → List Place
  | .keyValue _ key value => key.children ctx ++ [⟨ctx, .expr value⟩]
  | .shorthand _ => []
  | .method _ key f => (if keys then key.children ctx else []) ++ f.children ctx
  | .spread _ arg => [⟨ctx, .expr arg⟩]

def PatProp.children (keys : Bool) (ctx : Context) : PatProp → List Place
  | .keyValue _ key value => (if keys then key.children ctx else []) ++ [⟨ctx, .pat value⟩]
  | .shorthand _ _ value => value.toList.map (⟨ctx, .expr ·⟩)
  | .rest _ arg => [⟨ctx, .pat arg⟩]

/-- The statements, expressions and patterns right below a node, in source order. With `keys` they
include the computed keys that no walk comes to: those of methods and those in patterns. -/
def Node.children (keys : Bool) (ctx : Context) : Node → List Place
  | .stmt (.exportDecl _ d) => [⟨ctx, .stmt d⟩]
  | .stmt (.exportDefault _ e) | .stmt (.expr _ e) => [⟨ctx.inStmt, .expr e⟩]
  | .stmt (.exportOther _ es) | .stmt (.classDecl _ _ es) => es.map (⟨ctx.inStmt, .expr ·⟩)
  | .stmt (.varDecl _ _ _ ds) => ds.flatMap (·.children ctx.inStmt)
  | .stmt (.fn f) => f.children ctx.inStmt
  | .stmt (.block _ xs) => xs.map (⟨ctx.inStmt, .stmt ·⟩)
  | .stmt (.ifElse _ test cons alt) =>
    ⟨ctx.inStmt, .expr test⟩ :: ⟨ctx.inStmt, .stmt cons⟩ :: alt.toList.map (⟨ctx.inStmt, .stmt ·⟩)
  | .stmt (.ret _ arg) => arg.toList.map (⟨ctx.inStmt, .expr ·⟩)
  | .stmt (.other _ xs es) => xs.map (⟨ctx.inStmt, .stmt ·⟩) ++ es.map (⟨ctx.inStmt, .expr ·⟩)
  | .expr (.call _ callee _ args) => ⟨ctx, .expr callee⟩ :: args.map (⟨ctx, .expr ·⟩)
  | .expr (.member _ e _) | .expr (.privateMember _ e _) | .expr (.spread _ e) | .expr (.await _ e)
  | .expr (.paren _ e) | .expr (.cast _ _ e _) => [⟨ctx, .expr e⟩]
  | .expr (.index _ object index) => [⟨ctx, .expr object⟩, ⟨ctx, .expr index⟩]
  | .expr (.fn f) => f.children ctx
  | .expr (.object _ props) => props.flatMap (·.children keys ctx)
  | .expr (.array _ elems) => elems.flatMap (·.toList.map (⟨ctx, .expr ·⟩))
  | .expr (.other _ es) => es.map (⟨ctx, .expr ·⟩)
  | .pat (.object _ props _) => props.flatMap (·.children keys ctx)
  | .pat (.array _ elems _) => elems.flatMap (·.toList.map (⟨ctx, .pat ·⟩))
  | .pat (.rest _ p) => [⟨ctx, .pat p⟩]
  | .pat (.assign _ left right) => [⟨ctx, .pat left⟩, ⟨ctx, .expr right⟩]
  | _ => []

/-- Goes into a node and out of it, with `inside` in between if its children are walked. -/
def Visitor.around (v : Visitor σ) (ctx : Context) (node : Node) (inside : σ → σ) (st : σ) : σ :=
  let entered := v.enter node ctx st
  v.leave node ctx (if entered.1 then inside entered.2 else entered.2)

def Place.walk (v : Visitor σ) : Place → σ → σ
  | ⟨ctx, .stmt x⟩ => walkStmt v .deep ctx x
  | ⟨ctx, .expr e⟩ => walkExpr v ctx e
  | ⟨ctx, .pat p⟩ => walkPat v ctx p

def walkPlaces (v : Visitor σ) (ps : List Place) (st : σ) : σ := ps.foldl (fun st p => p.walk v st) st

section lists

variable (v : Visitor σ) (ctx : Context)

theorem walkPlaces_append (ps qs : List Place) (st : σ) :
    walkPlaces v (ps ++ qs) st = walkPlaces v qs (walkPlaces v ps st) := List.foldl_append

theorem walkStmts_eq (xs : List Stmt) (st : σ) :
    walkStmts v ctx xs st = walkPlaces v (xs.map (⟨ctx, .stmt ·⟩)) st := by
  induction xs generalizing st with
  | nil => rfl
  | cons x xs ih => exact ih _

theorem walkExprs_eq (es : List Expr) (st : σ) :
    walkExprs v ctx es st = walkPlaces v (es.map (⟨ctx, .expr ·⟩)) st := by
  induction es generalizing st with
  | nil => rfl
  | cons e es ih => exact ih _

theorem walkPats_eq (ps : List Pat) (st : σ) :
    walkPats v ctx ps st = walkPlaces v (ps.map (⟨ctx, .pat ·⟩)) st := by
  induction ps generalizing st with
  | nil => rfl
  | cons p ps ih => exact ih _

theorem walkFn_eq (f : Fn) (st : σ) : walkFn v ctx f st = walkPlaces v (f.children ctx) st := by
  obtain ⟨_, _, _, _, params, body⟩ := f
  rw [Fn.children, walkPlaces_append, ← walkPats_eq]
  cases body with
  | block _ stmts => exact walkStmts_eq ..
  | expr e => rfl
  | none => rfl

theorem walkDeclarators_eq (ds : List Declarator) (st : σ) :
    walkDeclarators v ctx ds st = walkPlaces v (ds.flatMap (·.children ctx)) st := by
  induction ds generalizing st with
  | nil => rfl
  | cons d ds ih =>
    obtain ⟨_, name, _ | init⟩ := d <;> exact ih _

theorem walkElems_eq (es : List (Option Expr)) (st : σ) :
    walkElems v ctx es st = walkPlaces v (es.flatMap (·.toList.map (⟨ctx, .expr ·⟩))) st := by
  induction es generalizing st with
  | nil => rfl
  | cons e es ih => cases e <;> exact ih _

theorem walkPatElems_eq (ps : List (Option Pat)) (st : σ) :
    walkPatElems v ctx ps st = walkPlaces v (ps.flatMap (·.toList.map (⟨ctx, .pat ·⟩))) st := by
  induction ps generalizing st with
  | nil => rfl
  | cons p ps ih => cases p <;> exact ih _

theorem walkProps_eq (ps : List ObjectProp) (st : σ) :
    walkProps v ctx ps st = walkPlaces v (ps.flatMap (·.children false ctx)) st := by
  induction ps generalizing st with
  | nil => rfl
  | cons p ps ih =>
    rw [List.flatMap_cons, walkPlaces_append, ← ih]
    cases p with
    | keyValue _ key value => cases key <;> rfl
    | method _ _ f => exact congrArg (walkProps v ctx ps) (walkFn_eq v ctx f st)
    | _ => rfl

theorem walkPatProps_eq (ps : List PatProp) (st : σ) :
    walkPatProps v ctx ps st = walkPlaces v (ps.flatMap (·.children false ctx)) st := by
  induction ps generalizing st with
  | nil => rfl
  | cons p ps ih =>
    rw [List.flatMap_cons, walkPlaces_append, ← ih]
    cases p with
    | shorthand _ _ value => cases value <;> rfl
    | _ => rfl

end lists

theorem Stmt.induct_export {P : Stmt → Prop} (hdecl : ∀ span d, P d → P (.exportDecl span d))
    (hother : ∀ x : Stmt, (∀ span d, x ≠ .exportDecl span d) → P x) (x : Stmt) : P x := by
  cases x with
  | exportDecl span d => exact hdecl span d (induct_export hdecl hother d)
  | _ => exact hother _ fun span d h => by cases h

theorem walkStmt_exportDecl (v : Visitor σ) (mode : WalkMode) (ctx : Context) (span : Span) (d : Stmt) :
    walkStmt v mode ctx (.exportDecl span d) =
      v.around ctx (.stmt (.exportDecl span d)) (walkStmt v mode ctx d) := by
  funext st
  rw [walkStmt]
  cases mode <;> rfl

theorem walkStmt_eq (v : Visitor σ) (mode : WalkMode) (ctx : Context) {x : Stmt}
    (hx : ∀ span d, x ≠ .exportDecl span d) :
    walkStmt v mode ctx x = v.around ctx (.stmt x)
      (if mode = .deep then walkPlaces v ((Node.stmt x).children false ctx) else id) := by
  funext st
  rw [walkStmt]
  cases mode with
  | shallow => cases x <;> first | rfl | exact absurd rfl (hx _ _)
  | deep =>
    simp only [if_true, Visitor.around]
    cases x with
    | exportDecl span d => exact absurd rfl (hx span d)
    | exportOther _ es => simp only [walkExprs_eq, Node.children]
    | varDecl _ _ _ ds => simp only [walkDeclarators_eq, Node.children]
    | fn f => simp only [walkFn_eq, Node.children]
    | classDecl _ _ es => simp only [walkExprs_eq, Node.children]
    | block _ xs => simp only [walkStmts_eq, Node.children]
    | ifElse _ test cons alt => cases alt <;> rfl
    | ret span arg => cases arg <;> rfl
    | other _ xs es => simp only [walkExprs_eq, walkStmts_eq, Node.children, walkPlaces_append]
    | _ => rfl

theorem Place.walk_eq (v : Visitor σ) (p : Place) :
    p.walk v = v.around p.ctx p.node (walkPlaces v (p.node.children false p.ctx)) := by
  obtain ⟨ctx, node⟩ := p
  cases node with
  | stmt x =>
    induction x using Stmt.induct_export with
    | hdecl span d => exact walkStmt_exportDecl v .deep ctx span d
    | hother x hx => exact walkStmt_eq v .deep ctx hx
  | expr e =>
    funext st
    rw [Place.walk, walkExpr]
    cases e <;> simp only [Node.children, walkExprs_eq, walkFn_eq, walkProps_eq, walkElems_eq] <;> rfl
  | pat p =>
    funext st
    rw [Place.walk, walkPat]
    cases p <;> simp only [Node.children, walkPatProps_eq, walkPatElems_eq] <;> rfl

/-- The place is in what has the given size and stands in the context. -/
@[grind =]
def Place.Inside (ctx : Context) (n : Nat) (q : Place) : Prop :=
  sizeOf q.node ≤ n ∧ ctx.depth ≤ q.ctx.depth ∧ ctx.functionDepth ≤ q.ctx.functionDepth

section inside

variable {keys : Bool} {ctx : Context} {q : Place}

attribute [local grind →] List.sizeOf_lt_of_mem

@[grind →]
theorem PropKey.inside {k : PropKey} (h : q ∈ k.children ctx) : q.Inside ctx (sizeOf k) := by
  cases k <;> grind [children]

@[grind →]
theorem Fn.inside {f : Fn} (h : q ∈ f.children ctx) : q.Inside ctx (sizeOf f) := by
  obtain ⟨_, _, _, _, params, body⟩ := f
  cases body <;> grind [children, Context.inFunction]

@[grind →]
theorem Declarator.inside {d : Declarator} (h : q ∈ d.children ctx) : q.Inside ctx (sizeOf d) := by
  obtain ⟨_, name, init⟩ := d
  cases init <;> grind [children]

@[grind →]
theorem ObjectProp.inside {x : ObjectProp} (h : q ∈ x.children keys ctx) : q.Inside ctx (sizeOf x) := by
  cases x <;> grind [children]

@[grind →]
theorem PatProp.inside {x : PatProp} (h : q ∈ x.children keys ctx) : q.Inside ctx (sizeOf x) := by
  cases x <;> grind [children]

theorem Node.inside {n : Node} (h : q ∈ n.children keys ctx) :
    sizeOf q.node < sizeOf n ∧ ctx.depth ≤ q.ctx.depth ∧
      ctx.functionDepth ≤ q.ctx.functionDepth := by
  cases n with
  | stmt x => cases x <;> grind [children, Context.inStmt]
  | expr e => cases e <;> grind [children]
  | pat p => cases p <;> grind [children]

theorem Node.depth_lt {x : Stmt} (hx : ∀ span d, x ≠ .exportDecl span d)
    (h : q ∈ (Node.stmt x).children keys ctx) : ctx.depth < q.ctx.depth := by
  cases x <;> grind [children, Context.inStmt]

theorem Node.children_sublist (n : Node) (ctx : Context) :
    (n.children false ctx).Sublist (n.children true ctx) := by
  cases n with
  | stmt x => cases x <;> exact .refl _
  | expr e =>
    cases e with
    | object _ props =>
      refine List.Sublist.flatMap_right props fun x hx => ?_
      cases x with
      | method _ _ _ => exact List.sublist_append_right ..
      | _ => exact .refl _
    | _ => exact .refl _
  | pat p =>
    cases p with
    | object _ props _ =>
      refine List.Sublist.flatMap_right props fun x hx => ?_
      cases x with
      | keyValue _ _ _ => exact List.sublist_append_right ..
      | _ => exact .refl _
    | _ => exact .refl _

end inside

/-- What holds of a node if it holds of those right below it holds of every node. -/
theorem Node.induct {P : Node → Prop}
    (h : ∀ n : Node, (∀ keys ctx, ∀ q ∈ n.children keys ctx, P q.node) → P n) (n : Node) : P n :=
  h n fun _ _ q _ => Node.induct h q.node
termination_by sizeOf n
decreasing_by exact (Node.inside ‹_›).1

/-- Inside of statements, two visitors walk the same children and keep their states related. -/
structure Visitor.Keeps (v : Visitor σ) (w : Visitor τ) (R : σ → τ → Prop) : Prop where
  enter : ∀ node (ctx : Context) s t, 0 < ctx.depth → R s t →
    (v.enter node ctx s).1 = (w.enter node ctx t).1 ∧
      R (v.enter node ctx s).2 (w.enter node ctx t).2
  leave : ∀ node (ctx : Context) s t, 0 < ctx.depth → R s t →
    R (v.leave node ctx s) (w.leave node ctx t)

namespace Visitor.Keeps

variable {v : Visitor σ} {w : Visitor τ} {R : σ → τ → Prop}

theorem around (h : v.Keeps w R) {ctx : Context} (hd : 0 < ctx.depth) (node : Node) {f : σ → σ}
    {g : τ → τ} (hfg : ∀ s t, R s t → R (f s) (g t)) (s : σ) (t : τ) (hst : R s t) :
    R (v.around ctx node f s) (w.around ctx node g t) := by
  obtain ⟨hdescend, henter⟩ := h.enter node ctx s t hd hst
  simp only [Visitor.around, hdescend]
  apply h.leave node ctx _ _ hd
  split
  · exact hfg _ _ henter
  · exact henter

theorem walkPlaces {ps : List Place} (hps : ∀ p ∈ ps, ∀ s t, R s t → R (p.walk v s) (p.walk w t))
    (s : σ) (t : τ) (hst : R s t) : R (walkPlaces v ps s) (walkPlaces w ps t) := by
  induction ps generalizing s t with
  | nil => exact hst
  | cons p ps ih =>
    exact ih (fun q hq => hps q (.tail _ hq)) _ _ (hps p (.head _) s t hst)

theorem walk (h : v.Keeps w R) (p : Place) (hd : 0 < p.ctx.depth) (s : σ) (t : τ) (hst : R s t) :
    R (p.walk v s) (p.walk w t) := by
  obtain ⟨ctx, node⟩ := p
  induction node using Node.induct generalizing ctx s t with
  | h n ih =>
    rw [Place.walk_eq, Place.walk_eq]
    refine h.around hd n (walkPlaces fun q hq s t hst => ?_) s t hst
    exact ih false ctx q hq s t hst q.ctx (Nat.lt_of_lt_of_le hd (Node.inside hq).2.1)

end Visitor.Keeps

/-- On the top level, two visitors walk into every statement and keep their states related, where the
relation knows how many statements of the top level are open. -/
structure Visitor.KeepsTop (v : Visitor σ) (w : Visitor τ) (mode : WalkMode) (Q : Nat → σ → τ → Prop) :
    Prop where
  descend : ∀ n (x : Stmt) s t, Q n s t →
    (v.enter (.stmt x) {} s).1 = true ∧ (w.enter (.stmt x) {} t).1 = true
  enter : ∀ n (x : Stmt) s t, Q n s t → Q (n + 1) (v.enter (.stmt x) {} s).2 (w.enter (.stmt x) {} t).2
  inner : mode = .deep → ∀ n, v.Keeps w (Q (n + 1))
  leave : ∀ n (x : Stmt) s t, Q (n + 1) s t → Q n (v.leave (.stmt x) {} s) (w.leave (.stmt x) {} t)

namespace Visitor.KeepsTop

variable {v : Visitor σ} {w : Visitor τ} {mode : WalkMode} {Q : Nat → σ → τ → Prop}
  (h : v.KeepsTop w mode Q)
include h

theorem around {n : Nat} (x : Stmt) {f : σ → σ} {g : τ → τ}
    (hfg : ∀ s t, Q (n + 1) s t → Q (n + 1) (f s) (g t)) {s : σ} {t : τ} (hst : Q n s t) :
    Q n (v.around {} (.stmt x) f s) (w.around {} (.stmt x) g t) := by
  obtain ⟨hv, hw⟩ := h.descend n x s t hst
  simp only [Visitor.around, hv, hw, if_true]
  exact h.leave n x _ _ (hfg _ _ (h.enter n x s t hst))

theorem stmt (x : Stmt) {n : Nat} {s : σ} {t : τ} (hst : Q n s t) :
    Q n (walkStmt v mode {} x s) (walkStmt w mode {} x t) := by
  induction x using Stmt.induct_export generalizing n s t with
  | hdecl span d ih =>
    rw [walkStmt_exportDecl, walkStmt_exportDecl]
    exact h.around _ (fun s t hst => ih hst) hst
  | hother x hx =>
    rw [walkStmt_eq v mode {} hx, walkStmt_eq w mode {} hx]
    refine h.around x (fun s t hst => ?_) hst
    by_cases hmode : mode = .deep
    · simp only [hmode, if_true]
      exact Keeps.walkPlaces (fun p hp => (h.inner hmode n).walk p (Node.depth_lt hx hp)) s t hst
    · simp only [hmode, if_false]
      exact hst

/-- What every node keeps, the whole walk keeps. -/
theorem walk (p : Program) {s : σ} {t : τ} (hst : Q 0 s t) :
    Q 0 (Script.walk v mode p s) (Script.walk w mode p t) := by
  unfold Script.walk
  induction p.body generalizing s t with
  | nil => exact hst
  | cons x xs ih => exact ih (h.stmt x hst)

end Visitor.KeepsTop

/-- What a walk does at a place. -/
inductive Event where
  | enter (p : Place)
  | leave (p : Place)

def Visitor.handle (v : Visitor σ) (st : σ) : Event → σ
  | .enter p => (v.enter p.node p.ctx st).2
  | .leave p => v.leave p.node p.ctx st

/-- The events of a walk that comes to each of the places, in order, enters it, comes in the same way to
what is right below it, and leaves it. -/
inductive Walked (keys : Bool) : List Place → List Event → Prop where
  | nil : Walked keys [] []
  | cons {p : Place} {ps : List Place} {inside after : List Event} :
    Walked keys (p.node.children keys p.ctx) inside → Walked keys ps after →
      Walked keys (p :: ps) (.enter p :: (inside ++ .leave p :: after))

def Program.places (p : Program) : List Place := p.body.map (⟨{}, .stmt ·⟩)

namespace Walked

variable {ps qs : List Place} {es fs : List Event}

theorem exists_of_children {keys : Bool} (h : ∀ p ∈ ps, ∃ es, Walked keys (p.node.children keys p.ctx) es) :
    ∃ es, Walked keys ps es := by
  induction ps with
  | nil => exact ⟨[], .nil⟩
  | cons p ps ih =>
    obtain ⟨inside, hinside⟩ := h p (.head _)
    obtain ⟨after, hafter⟩ := ih fun q hq => h q (.tail _ hq)
    exact ⟨_, .cons hinside hafter⟩

theorem exists_events (keys : Bool) (ps : List Place) : ∃ es, Walked keys ps es := by
  refine exists_of_children ?_
  rintro ⟨ctx, n⟩ -
  induction n using Node.induct generalizing ctx with
  | h n ih => exact exists_of_children fun q hq => ih keys ctx q hq q.ctx

theorem walk_eq (h : Walked false ps es) {v : Visitor σ} (hv : ∀ n ctx st, (v.enter n ctx st).1 = true)
    (st : σ) : walkPlaces v ps st = es.foldl v.handle st := by
  induction h generalizing st with
  | nil => rfl
  | @cons p ps inside after _ _ ihinside ihafter =>
    show walkPlaces v ps (p.walk v st) = _
    rw [Place.walk_eq, Visitor.around, hv, if_pos rfl, ihinside, ihafter, List.foldl_cons,
      List.foldl_append, List.foldl_cons]
    rfl

theorem length_le (h : Walked false ps es) (h' : Walked true qs fs) (hsub : ps.Sublist qs) :
    es.length ≤ fs.length ∧ (es.length = fs.length → ps = qs ∧ ∀ q, .enter q ∈ es →
      q.node.children false q.ctx = q.node.children true q.ctx) := by
  induction h' generalizing ps es with
  | nil =>
    obtain rfl := List.sublist_nil.mp hsub
    cases h
    simp
  | @cons p qs inside after _ _ ihinside ihafter =>
    cases hsub with
    | cons _ hsub =>
      have hle := (ihafter h hsub).1
      simp only [List.length_cons, List.length_append]
      exact ⟨by omega, fun heq => by omega⟩
    | cons_cons _ hsub =>
      cases h with
      | cons hinside hafter =>
        obtain ⟨hle, heq⟩ := ihinside hinside (Node.children_sublist _ _)
        obtain ⟨hle', heq'⟩ := ihafter hafter hsub
        simp only [List.length_cons, List.length_append]
        refine ⟨by omega, fun hlen => ?_⟩
        obtain ⟨hchildren, hwhole⟩ := heq (by omega)
        obtain ⟨rfl, hrest⟩ := heq' (by omega)
        refine ⟨rfl, fun q hq => ?_⟩
        simp only [List.mem_cons, List.mem_append, Event.enter.injEq, reduceCtorEq, false_or] at hq
        rcases hq with rfl | hq | hq
        · exact hchildren
        · exact hwhole q hq
        · exact hrest q hq

theorem with_keys (h : Walked false ps es)
    (hwhole : ∀ q, .enter q ∈ es → q.node.children false q.ctx = q.node.children true q.ctx) :
    Walked true ps es := by
  induction h with
  | nil => exact .nil
  | @cons p ps inside after _ _ ihinside ihafter =>
    simp only [List.mem_cons, List.mem_append, Event.enter.injEq, reduceCtorEq, false_or] at hwhole
    refine .cons ?_ (ihafter fun q hq => hwhole q (.inr (.inr hq)))
    rw [← hwhole p (.inl rfl)]
    exact ihinside fun q hq => hwhole q (.inr (.inl hq))

end Walked

/-- A deep walk with a visitor that always goes on enters and leaves each node of the script once, each
inside of the one above it and with one more function around it for each function above it, except for
the computed keys of methods and in patterns. So it comes to every node exactly if there are none. -/
theorem walk_deep_events (p : Program) :
    ∃ es, Walked false p.places es ∧
      (∀ (σ : Type) (v : Visitor σ), (∀ n ctx st, (v.enter n ctx st).1 = true) →
        ∀ st, walk v .deep p st = es.foldl v.handle st) ∧
      (Walked true p.places es ↔
        ∀ q, .enter q ∈ es → q.node.children false q.ctx = q.node.children true q.ctx) := by
  obtain ⟨es, hes⟩ := Walked.exists_events false p.places
  refine ⟨es, hes, fun σ v hv st => ?_, fun h => ?_, hes.with_keys⟩
  · rw [← hes.walk_eq hv, Program.places, walkPlaces, List.foldl_map]
    rfl
  · exact ((hes.length_le h (.refl _)).2 rfl).2

/-- Lists the names that a walk comes to as expressions. -/
def nameVisitor : Visitor (List String) where
  enter node _ names := (true, match node with
    | .expr (.ident i) => i.name :: names
    | _ => names)
  leave _ _ names := names

/-- The key of a property is walked unless the property is a method. -/
theorem walk_skips_method_key :
    let key : PropKey := .computed (.ident ⟨⟨4, 5⟩, "a"⟩)
    let script (prop : ObjectProp) : Program :=
      ⟨⟨0, 14⟩, [.expr ⟨0, 14⟩ (.paren ⟨0, 14⟩ (.object ⟨1, 13⟩ [prop]))]⟩
    let fn : Fn := ⟨⟨4, 11⟩, none, false, false, [], .block ⟨9, 11⟩ []⟩
    walk nameVisitor .deep (script (.method ⟨3, 11⟩ key fn)) [] = [] ∧
      walk nameVisitor .deep (script (.keyValue ⟨3, 11⟩ key (.fn fn))) [] = ["a"] := ⟨rfl, rfl⟩

end SfcTsx.Script
