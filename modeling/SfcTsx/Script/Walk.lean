import SfcTsx.Script.Tree

namespace SfcTsx.Script

inductive Node where
  | stmt (stmt : Stmt)
  | expr (expr : Expr)
  | pat (pat : Pat)

def Node.span : Node → Span
  | .stmt s => s.span
  | .expr e => e.span
  | .pat p => p.span

structure Context where
  functionDepth : Nat := 0
  /-- The number of statements around the node; what an export declares counts as the export. -/
  depth : Nat := 0
deriving DecidableEq, Repr

def Context.inStmt (ctx : Context) : Context := { ctx with depth := ctx.depth + 1 }

def Context.inFunction (ctx : Context) : Context :=
  { ctx with functionDepth := ctx.functionDepth + 1 }

/-- The hooks of a walk, with a state that goes through them. -/
structure Visitor (σ : Type) where
  /-- Runs before a node; its children are walked if the answer is `true`. -/
  enter : Node → Context → σ → Bool × σ
  /-- Runs after a node, also if its children were not walked. -/
  leave : Node → Context → σ → σ

inductive WalkMode where
  | shallow
  | deep
deriving DecidableEq, Repr

section

variable {σ : Type} (v : Visitor σ)

mutual

def walkStmt (mode : WalkMode) (ctx : Context) (stmt : Stmt) (st : σ) : σ :=
  let (descend, st) := v.enter (.stmt stmt) ctx st
  let st :=
    if descend then
      match stmt, mode with
      | .exportDecl _ decl, mode => walkStmt mode ctx decl st
      | _, .shallow => st
      | .exportDefault _ e, .deep => walkExpr ctx.inStmt e st
      | .exportOther _ es, .deep => walkExprs ctx.inStmt es st
      | .varDecl _ _ _ ds, .deep => walkDeclarators ctx.inStmt ds st
      | .fn f, .deep => walkFn ctx.inStmt f st
      | .classDecl _ _ members, .deep => walkExprs ctx.inStmt members st
      | .expr _ e, .deep => walkExpr ctx.inStmt e st
      | .block _ stmts, .deep => walkStmts ctx.inStmt stmts st
      | .ifElse _ test cons alt, .deep =>
        let st := walkExpr ctx.inStmt test st
        let st := walkStmt .deep ctx.inStmt cons st
        match alt with
        | some alt => walkStmt .deep ctx.inStmt alt st
        | none => st
      | .ret _ (some arg), .deep => walkExpr ctx.inStmt arg st
      | .other _ stmts es, .deep => walkExprs ctx.inStmt es (walkStmts ctx.inStmt stmts st)
      | _, .deep => st
    else st
  v.leave (.stmt stmt) ctx st

def walkStmts (ctx : Context) : List Stmt → σ → σ
  | [], st => st
  | s :: ss, st => walkStmts ctx ss (walkStmt .deep ctx s st)

def walkDeclarators (ctx : Context) : List Declarator → σ → σ
  | [], st => st
  | ⟨_, name, init⟩ :: ds, st =>
    let st := walkPat ctx name st
    let st := match init with
      | some init => walkExpr ctx init st
      | none => st
    walkDeclarators ctx ds st

def walkFn (ctx : Context) : Fn → σ → σ
  | ⟨_, _, _, _, params, body⟩, st =>
    let st := walkPats ctx.inFunction params st
    match body with
    | .block _ stmts => walkStmts ctx.inFunction stmts st
    | .expr e => walkExpr ctx.inFunction e st
    | .none => st

def walkExpr (ctx : Context) (expr : Expr) (st : σ) : σ :=
  let (descend, st) := v.enter (.expr expr) ctx st
  let st :=
    if descend then
      match expr with
      | .ident _ | .lit _ => st
      | .call _ callee _ args => walkExprs ctx args (walkExpr ctx callee st)
      | .member _ object _ => walkExpr ctx object st
      | .privateMember _ object _ => walkExpr ctx object st
      | .index _ object index => walkExpr ctx index (walkExpr ctx object st)
      | .fn f => walkFn ctx f st
      | .object _ props => walkProps ctx props st
      | .array _ elems => walkElems ctx elems st
      | .spread _ arg => walkExpr ctx arg st
      | .await _ arg => walkExpr ctx arg st
      | .paren _ e => walkExpr ctx e st
      | .cast _ _ e _ => walkExpr ctx e st
      | .other _ es => walkExprs ctx es st
    else st
  v.leave (.expr expr) ctx st

def walkExprs (ctx : Context) : List Expr → σ → σ
  | [], st => st
  | e :: es, st => walkExprs ctx es (walkExpr ctx e st)

def walkElems (ctx : Context) : List (Option Expr) → σ → σ
  | [], st => st
  | none :: es, st => walkElems ctx es st
  | some e :: es, st => walkElems ctx es (walkExpr ctx e st)

/-- The key of a property is walked if it is computed and the property is no method. -/
def walkProps (ctx : Context) : List ObjectProp → σ → σ
  | [], st => st
  | .keyValue _ (.computed key) value :: ps, st =>
    walkProps ctx ps (walkExpr ctx value (walkExpr ctx key st))
  | .keyValue _ _ value :: ps, st => walkProps ctx ps (walkExpr ctx value st)
  | .shorthand _ :: ps, st => walkProps ctx ps st
  | .method _ _ f :: ps, st => walkProps ctx ps (walkFn ctx f st)
  | .spread _ arg :: ps, st => walkProps ctx ps (walkExpr ctx arg st)

def walkPat (ctx : Context) (pat : Pat) (st : σ) : σ :=
  let (descend, st) := v.enter (.pat pat) ctx st
  let st :=
    if descend then
      match pat with
      | .ident .. | .invalid _ => st
      | .object _ props _ => walkPatProps ctx props st
      | .array _ elems _ => walkPatElems ctx elems st
      | .rest _ arg => walkPat ctx arg st
      | .assign _ left right => walkExpr ctx right (walkPat ctx left st)
    else st
  v.leave (.pat pat) ctx st

def walkPats (ctx : Context) : List Pat → σ → σ
  | [], st => st
  | p :: ps, st => walkPats ctx ps (walkPat ctx p st)

def walkPatElems (ctx : Context) : List (Option Pat) → σ → σ
  | [], st => st
  | none :: ps, st => walkPatElems ctx ps st
  | some p :: ps, st => walkPatElems ctx ps (walkPat ctx p st)

/-- The key of a property is not walked. -/
def walkPatProps (ctx : Context) : List PatProp → σ → σ
  | [], st => st
  | .keyValue _ _ value :: ps, st => walkPatProps ctx ps (walkPat ctx value st)
  | .shorthand _ _ (some value) :: ps, st => walkPatProps ctx ps (walkExpr ctx value st)
  | .shorthand _ _ none :: ps, st => walkPatProps ctx ps st
  | .rest _ arg :: ps, st => walkPatProps ctx ps (walkPat ctx arg st)

end

def walk (mode : WalkMode) (program : Program) (st : σ) : σ :=
  program.body.foldl (fun st stmt => walkStmt v mode {} stmt st) st

end

end SfcTsx.Script
