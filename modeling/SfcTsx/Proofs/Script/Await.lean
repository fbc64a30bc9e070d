import SfcTsx.Proofs.Script.Classify
import SfcTsx.Script.Parse

namespace SfcTsx.Script

mutual

/-- The statement waits outside of functions. With `everywhere` also the places count that a walk of a
classification does not come to. -/
def Stmt.awaits (everywhere : Bool) : Stmt → Bool
  | .exportDecl _ decl => decl.awaits everywhere
  | .exportDefault _ e => e.awaits everywhere
  | .exportOther _ es => exprsAwait everywhere es
  | .varDecl _ _ _ ds => declaratorsAwait everywhere ds
  | .classDecl _ _ members => exprsAwait everywhere members
  | .expr _ e => e.awaits everywhere
  | .block _ stmts => stmtsAwait everywhere stmts
  | .ifElse _ test cons alt =>
    test.awaits everywhere || cons.awaits everywhere || match alt with
      | some alt => alt.awaits everywhere
      | none => false
  | .ret _ (some arg) => arg.awaits everywhere
  | .other _ stmts es => stmtsAwait everywhere stmts || exprsAwait everywhere es
  | _ => false

def stmtsAwait (everywhere : Bool) : List Stmt → Bool
  | [] => false
  | x :: xs => x.awaits everywhere || stmtsAwait everywhere xs

def declaratorsAwait (everywhere : Bool) : List Declarator → Bool
  | [] => false
  | ⟨_, name, init⟩ :: ds =>
    name.awaits everywhere || (match init with
      | some init => init.awaits everywhere
      | none => false) || declaratorsAwait everywhere ds

def Expr.awaits (everywhere : Bool) : Expr → Bool
  | .await .. => true
  | .ident _ | .lit _ | .fn _ => false
  | .call s callee typeArgs args =>
    (everywhere || (Call.macroKind? ⟨s, callee, typeArgs, args⟩).isNone) &&
      (callee.awaits everywhere || exprsAwait everywhere args)
  | .member _ obj _ => obj.awaits everywhere
  | .privateMember _ obj _ => obj.awaits everywhere
  | .index _ obj key => obj.awaits everywhere || key.awaits everywhere
  | .object _ props => propsAwait everywhere props
  | .array _ elems => elemsAwait everywhere elems
  | .spread _ arg => arg.awaits everywhere
  | .paren _ e => e.awaits everywhere
  | .cast _ _ e _ => e.awaits everywhere
  | .other _ es => exprsAwait everywhere es

def exprsAwait (everywhere : Bool) : List Expr → Bool
  | [] => false
  | e :: es => e.awaits everywhere || exprsAwait everywhere es

def elemsAwait (everywhere : Bool) : List (Option Expr) → Bool
  | [] => false
  | none :: es => elemsAwait everywhere es
  | some e :: es => e.awaits everywhere || elemsAwait everywhere es

def PropKey.awaits (everywhere : Bool) : PropKey → Bool
  | .computed e => e.awaits everywhere
  | _ => false

def propsAwait (everywhere : Bool) : List ObjectProp → Bool
  | [] => false
  | .keyValue _ key value :: ps =>
    key.awaits everywhere || value.awaits everywhere || propsAwait everywhere ps
  | .shorthand _ :: ps => propsAwait everywhere ps
  | .method _ key _ :: ps => everywhere && key.awaits everywhere || propsAwait everywhere ps
  | .spread _ arg :: ps => arg.awaits everywhere || propsAwait everywhere ps

def Pat.awaits (everywhere : Bool) : Pat → Bool
  | .ident .. | .invalid _ => false
  | .object _ props _ => patPropsAwait everywhere props
  | .array _ elems _ => patElemsAwait everywhere elems
  | .rest _ arg => arg.awaits everywhere
  | .assign _ left right => left.awaits everywhere || right.awaits everywhere

def patElemsAwait (everywhere : Bool) : List (Option Pat) → Bool
  | [] => false
  | none :: ps => patElemsAwait everywhere ps
  | some p :: ps => p.awaits everywhere || patElemsAwait everywhere ps

def patPropsAwait (everywhere : Bool) : List PatProp → Bool
  | [] => false
  | .keyValue _ key value :: ps =>
    everywhere && key.awaits everywhere || value.awaits everywhere || patPropsAwait everywhere ps
  | .shorthand _ _ (some value) :: ps => value.awaits everywhere || patPropsAwait everywhere ps
  | .shorthand _ _ none :: ps => patPropsAwait everywhere ps
  | .rest _ arg :: ps => arg.awaits everywhere || patPropsAwait everywhere ps

end

def Program.awaits (everywhere : Bool) (p : Program) : Bool := stmtsAwait everywhere p.body

def Expr.isAwait : Expr → Bool
  | .await .. => true
  | _ => false

/-- Looks for what waits outside of functions, and does not walk into macro calls. -/
def awaitVisitor : Visitor Bool where
  enter node ctx found :=
    match node with
    | .expr e => (e.macroCall?.isNone, found || (ctx.functionDepth == 0 && e.isAwait))
    | _ => (true, found)
  leave _ _ found := found

namespace Node

def awaits (everywhere : Bool) : Node → Bool
  | .stmt x => x.awaits everywhere
  | .expr e => e.awaits everywhere
  | .pat p => p.awaits everywhere

def isAwait : Node → Bool
  | .expr e => e.isAwait
  | _ => false

def isMacro : Node → Bool
  | .expr e => e.macroCall?.isSome
  | _ => false

end Node

/-- The place waits, in no function that the context is not in. -/
def Place.waits (everywhere : Bool) (ctx : Context) (q : Place) : Bool :=
  q.ctx.functionDepth == ctx.functionDepth && q.node.awaits everywhere

section children

variable {everywhere : Bool} {ctx : Context}

attribute [local simp] Node.awaits Node.isAwait Node.isMacro Node.children Expr.isAwait Expr.macroCall?
  Expr.call?

@[simp] theorem Place.waits_mk (c : Context) (n : Node) :
    waits everywhere ctx ⟨c, n⟩ = (c.functionDepth == ctx.functionDepth && n.awaits everywhere) := rfl

@[simp] theorem stmtsAwait_eq (xs : List Stmt) :
    stmtsAwait everywhere xs = xs.any (·.awaits everywhere) := by
  induction xs with
  | nil => rfl
  | cons x xs ih => rw [stmtsAwait, ih, List.any_cons]

@[simp] theorem exprsAwait_eq (es : List Expr) :
    exprsAwait everywhere es = es.any (·.awaits everywhere) := by
  induction es with
  | nil => rfl
  | cons e es ih => rw [exprsAwait, ih, List.any_cons]

@[simp] theorem elemsAwait_eq (es : List (Option Expr)) :
    elemsAwait everywhere es = es.any (·.toList.any (·.awaits everywhere)) := by
  induction es with
  | nil => rfl
  | cons e es ih => cases e <;> simp [elemsAwait, ih]

@[simp] theorem patElemsAwait_eq (ps : List (Option Pat)) :
    patElemsAwait everywhere ps = ps.any (·.toList.any (·.awaits everywhere)) := by
  induction ps with
  | nil => rfl
  | cons p ps ih => cases p <;> simp [patElemsAwait, ih]

@[simp] theorem declaratorsAwait_eq (ds : List Declarator) : declaratorsAwait everywhere ds =
    ds.any fun d => d.name.awaits everywhere || d.init.toList.any (·.awaits everywhere) := by
  induction ds with
  | nil => rfl
  | cons d ds ih => obtain ⟨_, name, _ | init⟩ := d <;> simp [declaratorsAwait, ih]

@[simp] theorem Fn.children_waits (ctx : Context) (f : Fn) :
    (f.children ctx).any (·.waits everywhere ctx) = false := by
  obtain ⟨_, _, _, _, params, body⟩ := f
  cases body <;> simp [children, Context.inFunction]

@[simp] theorem PropKey.children_waits (k : PropKey) :
    (k.children ctx).any (·.waits everywhere ctx) = k.awaits everywhere := by
  cases k <;> simp [children, PropKey.awaits]

theorem propsAwait_eq (ctx : Context) (ps : List ObjectProp) : propsAwait everywhere ps =
    ps.any fun p => (p.children everywhere ctx).any (·.waits everywhere ctx) := by
  induction ps with
  | nil => rfl
  | cons p ps ih =>
    rw [List.any_cons, ← ih]
    cases p with
    | method _ key f => cases everywhere <;> simp [propsAwait, ObjectProp.children]
    | _ => simp [propsAwait, ObjectProp.children]

theorem patPropsAwait_eq (ctx : Context) (ps : List PatProp) : patPropsAwait everywhere ps =
    ps.any fun p => (p.children everywhere ctx).any (·.waits everywhere ctx) := by
  induction ps with
  | nil => rfl
  | cons p ps ih =>
    rw [List.any_cons, ← ih]
    cases p with
    | keyValue _ key value =>
      cases everywhere <;> simp [patPropsAwait, PatProp.children]
    | shorthand _ _ value =>
      cases value <;> simp [patPropsAwait, PatProp.children]
    | rest _ arg => simp [patPropsAwait, PatProp.children]

theorem Node.awaits_eq (everywhere : Bool) (ctx : Context) (n : Node) : n.awaits everywhere =
    (n.isAwait || (everywhere || !n.isMacro) &&
      (n.children everywhere ctx).any (·.waits everywhere ctx)) := by
  cases n with
  | stmt x =>
    cases x with
    | fn f => cases everywhere <;> exact (f.children_waits ctx.inStmt).symm
    | ifElse _ _ _ alt => cases alt <;> simp [Stmt.awaits, Context.inStmt, Bool.or_assoc]
    | ret _ arg => cases arg <;> simp [Stmt.awaits, Context.inStmt]
    | _ => simp [Stmt.awaits, Declarator.children, Context.inStmt, Function.comp_def]
  | expr e =>
    cases e with
    | fn f => cases everywhere <;> exact (f.children_waits ctx).symm
    | object _ props => simp [Expr.awaits, propsAwait_eq ctx]
    | call s callee typeArgs args =>
      cases h : Call.macroKind? ⟨s, callee, typeArgs, args⟩ <;> simp [Expr.awaits, h, Function.comp_def]
    | _ => simp [Expr.awaits, Function.comp_def]
  | pat p =>
    cases p with
    | object _ props _ => simp [Pat.awaits, patPropsAwait_eq ctx]
    | _ => simp [Pat.awaits, Function.comp_def]

end children

theorem around_await (ctx : Context) (n : Node) (inside : Bool → Bool) (found : Bool) :
    awaitVisitor.around ctx n inside found =
      (if n.isMacro then id else inside) (found || (ctx.functionDepth == 0 && n.isAwait)) := by
  cases n with
  | expr e => cases h : e.macroCall? <;> simp [Visitor.around, awaitVisitor, Node.isMacro, Node.isAwait, h]
  | _ => simp [Visitor.around, awaitVisitor, Node.isMacro, Node.isAwait]

theorem Place.walk_await (p : Place) (found : Bool) : p.walk awaitVisitor found =
    (found || (p.ctx.functionDepth == 0 && p.node.awaits false)) := by
  obtain ⟨ctx, n⟩ := p
  induction n using Node.induct generalizing ctx found with
  | h n ih =>
    have hplaces (ps : List Place) (hps : ∀ q ∈ ps, q ∈ n.children false ctx) (found : Bool) :
        walkPlaces awaitVisitor ps found =
          (found || (ctx.functionDepth == 0 && ps.any (·.waits false ctx))) := by
      induction ps generalizing found with
      | nil => simp [walkPlaces]
      | cons q ps ihps =>
        have hq := hps q (.head _)
        have hle := (Node.inside hq).2.2
        show walkPlaces awaitVisitor ps (q.walk awaitVisitor found) = _
        rw [ihps fun r hr => hps r (.tail _ hr), ih false ctx q hq, List.any_cons]
        grind [Place.waits]
    rw [Place.walk_eq, around_await, n.awaits_eq false ctx]
    cases n.isMacro
    · simp [hplaces _ fun _ => id, Bool.and_or_distrib_left, Bool.or_assoc]
    · simp

theorem walk_await (p : Program) : walk awaitVisitor .deep p false = p.awaits false := by
  have hall (xs : List Stmt) (found : Bool) :
      xs.foldl (fun b x => walkStmt awaitVisitor .deep {} x b) found =
        (found || stmtsAwait false xs) := by
    induction xs generalizing found with
    | nil => simp
    | cons x xs ih =>
      rw [List.foldl_cons, ih, show walkStmt awaitVisitor .deep {} x found = _ from
        Place.walk_await ⟨{}, .stmt x⟩ found, stmtsAwait, Bool.or_assoc]
      rfl
  exact hall p.body false

theorem Node.awaits_everywhere (n : Node) (h : n.awaits false = true) : n.awaits true = true := by
  induction n using Node.induct with
  | h n ih =>
    rw [n.awaits_eq _ {}] at h ⊢
    simp only [Bool.or_eq_true, Bool.and_eq_true, List.any_eq_true] at h ⊢
    refine h.imp_right ?_
    rintro ⟨-, q, hq, hw⟩
    refine ⟨.inl trivial, q, (n.children_sublist {}).subset hq, ?_⟩
    rw [Place.waits, Bool.and_eq_true] at hw ⊢
    exact ⟨hw.1, ih false {} q hq hw.2⟩

namespace Classification

/-- The items say at most once that the script waits, and do so once that has been found. -/
def Notes (c : Classification) (found : Bool) : Prop :=
  ∃ first : Option Span, c.items.toList.filterMap Item.async? = (first.map some).toList ∧
    first.isSome = found ∧ c.sawAwait = found

theorem Notes.adds {P : Item → Prop} {c c' : Classification} {found : Bool} (h : c.Notes found)
    (hadds : Adds P c c') (hP : ∀ x, P x → x.async? = none) : c'.Notes found := by
  obtain ⟨first, hfirst, hsome, hsaw⟩ := h
  obtain ⟨xs, rfl, hxs⟩ := hadds
  refine ⟨first, ?_, hsome, hsaw⟩
  have hnone : xs.filterMap Item.async? = [] :=
    List.filterMap_eq_nil_iff.mpr fun x hx => hP x (hxs x hx)
  simp [hfirst, hnone]

theorem Notes.first {c : Classification} {found : Bool} (h : c.Notes found) (hnew : c.sawAwait = false)
    (s : Span) : Notes { c.push (.async (some s)) with sawAwait := true } true := by
  obtain ⟨first, hfirst, hsome, hsaw⟩ := h
  obtain rfl : first = none := by
    rw [← hsaw, hnew] at hsome
    simpa using hsome
  refine ⟨some s, ?_, rfl, rfl⟩
  simp_all [push, Item.async?]

theorem keeps_notes (o : ClassifyOptions) (source : Text) :
    (classifier o source).Keeps awaitVisitor Notes := by
  refine ⟨?_, ?_⟩
  · intro node ctx c found hd h
    cases node with
    | stmt x =>
      simp only [classifier, enter_stmt hd]
      exact ⟨rfl, h⟩
    | pat x => exact ⟨rfl, h⟩
    | expr e =>
      obtain ⟨call, kind, hcall, henter⟩ | ⟨s, arg, rfl, hdepth, hnew, henter⟩ | ⟨hcall, hold, henter⟩ :=
        enter_expr_cases o source e ctx c
      · have hno : e.isAwait = false := by
          cases e <;> simp_all [Expr.macroCall?, Expr.call?, Expr.isAwait]
        simp only [classifier, henter, awaitVisitor, hno, Bool.and_false, Bool.or_false, hcall]
        obtain ⟨macros, models, hadds⟩ := adds_macroCall o source c ctx kind call
        have hkept : Notes { c with macros, models } found := h
        exact ⟨rfl, hkept.adds hadds fun _ hx => hx⟩
      · simp only [classifier, henter, awaitVisitor, hdepth, Expr.isAwait, beq_self_eq_true,
          Bool.and_true, Bool.or_true]
        exact ⟨rfl, h.first hnew s⟩
      · have hsame : (found || (ctx.functionDepth == 0 && e.isAwait)) = found := by
          cases e with
          | await s arg =>
            obtain ⟨-, -, -, hsaw⟩ := h
            by_cases hdepth : ctx.functionDepth = 0
            · rw [← hsaw, hold s arg rfl hdepth, Bool.true_or]
            · simp [hdepth]
          | _ => simp [Expr.isAwait]
        simp only [classifier, henter, awaitVisitor, hsame, hcall]
        exact ⟨rfl, h⟩
  · intro node ctx c found hd h
    simpa only [classifier, leave_eq hd, awaitVisitor] using h

theorem keepsTop_notes (o : ClassifyOptions) (source : Text) :
    (classifier o source).KeepsTop awaitVisitor .deep (fun _ => Notes) where
  descend n x c found h := ⟨rfl, rfl⟩
  enter n x c found h := by
    have hopened : (c.opened x).Notes found := h
    exact hopened.adds (adds_topLevel o (c.opened x) x) fun _ hx => hx.async
  inner _ n := keeps_notes o source
  leave n x c found h := h

end Classification

/-- A setup script is said once to wait or not. It is said to wait if it does so in a place that the walk
comes to, which is right unless it waits in other places only. -/
theorem classify_async (o : ClassifyOptions) (source : Text) (program : Program) :
    ∃ first : Option Span,
      (classify { o with mode := .deep } source program).filterMap Item.async? = [first] ∧
      first.isSome = program.awaits false ∧
      (first.isSome = program.awaits true ↔
        (program.awaits true = true → program.awaits false = true)) := by
  have hstart : Classification.Notes {} false := ⟨none, rfl, rfl, rfl⟩
  obtain ⟨first, hfirst, hsome, hsaw⟩ :=
    (Classification.keepsTop_notes { o with mode := .deep } source).walk program hstart
  rw [walk_await] at hsome hsaw
  refine ⟨first, ?_, hsome, ?_⟩
  · rw [classify_deep rfl]
    cases first with
    | none =>
      have hnot :
          (walk (classifier { o with mode := .deep } source) .deep program {}).sawAwait = false :=
        hsaw.trans hsome.symm
      simp [hnot, Classification.push, hfirst, Item.async?]
    | some s =>
      have hdid : (walk (classifier { o with mode := .deep } source) .deep program {}).sawAwait = true :=
        hsaw.trans hsome.symm
      simp [hdid, hfirst]
  · have hmono : program.awaits false = true → program.awaits true = true := by
      simp only [Program.awaits, stmtsAwait_eq, List.any_eq_true]
      rintro ⟨x, hx, h⟩
      exact ⟨x, hx, Node.awaits_everywhere (.stmt x) h⟩
    rw [hsome]
    cases hin : program.awaits false <;> cases hall : program.awaits true <;> simp_all

/-- A key in a pattern that is waited for goes unnoticed. -/
theorem classify_async_pattern_key :
    let source := "const { [await k()]: v } = o".toList
    let program := (read .ts false source).program
    (classify {} source program).filterMap Item.async? = [none] ∧ program.awaits true = true := by
  decide +kernel

end SfcTsx.Script
