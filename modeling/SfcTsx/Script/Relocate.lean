import SfcTsx.Script.Tree

namespace SfcTsx.Script

/-- Where the spans of a tree lie in another text. -/
structure Relocation where
  span : Span → Span
  source : Text

namespace Relocation

def text (m : Relocation) (s : Span) : Text := (m.span s).text m.source

def ident (m : Relocation) (i : Ident) : Ident := ⟨m.span i.span, String.ofList (m.text i.span)⟩

def stringLit (m : Relocation) (l : StringLit) : StringLit :=
  ⟨m.span l.span, String.ofList (unquote (m.text l.span))⟩

def lit (m : Relocation) (l : Lit) : Lit :=
  let text := m.text l.span
  ⟨m.span l.span, l.kind, String.ofList (if l.kind = .string then unquote text else text)⟩

def importDecl (m : Relocation) (d : ImportDecl) : ImportDecl :=
  { d with
    span := m.span d.span
    source := m.stringLit d.source
    specifiers := d.specifiers.map fun s => { s with span := m.span s.span, name := m.ident s.name } }

def exportSpecifier (m : Relocation) (s : ExportSpecifier) : ExportSpecifier :=
  { s with span := m.span s.span, name := m.ident s.name, exported := s.exported.map m.ident }

end Relocation

variable (m : Relocation)

mutual

def Stmt.relocate : Stmt → Stmt
  | .importDecl d => .importDecl (m.importDecl d)
  | .exportDecl s d => .exportDecl (m.span s) d.relocate
  | .exportDefault s e => .exportDefault (m.span s) e.relocate
  | .exportNamed s t specifiers source =>
    .exportNamed (m.span s) t (specifiers.map m.exportSpecifier) (source.map m.stringLit)
  | .exportAll s t source => .exportAll (m.span s) t (m.stringLit source)
  | .exportOther s exprs => .exportOther (m.span s) (relocateExprs exprs)
  | .varDecl s kind declare ds => .varDecl (m.span s) kind declare (relocateDeclarators ds)
  | .fn f => .fn f.relocate
  | .classDecl s i members => .classDecl (m.span s) (i.map m.ident) (relocateExprs members)
  | .enumDecl d => .enumDecl { d with span := m.span d.span, ident := m.ident d.ident }
  | .typeDecl d => .typeDecl { d with span := m.span d.span, ident := m.ident d.ident }
  | .expr s e => .expr (m.span s) e.relocate
  | .block s stmts => .block (m.span s) (relocateStmts stmts)
  | .ifElse s test cons alt =>
    .ifElse (m.span s) test.relocate cons.relocate (relocateStmt? alt)
  | .ret s arg => .ret (m.span s) (relocateExpr? arg)
  | .other s stmts exprs => .other (m.span s) (relocateStmts stmts) (relocateExprs exprs)

def relocateStmts : List Stmt → List Stmt
  | [] => []
  | s :: ss => s.relocate :: relocateStmts ss

def relocateStmt? : Option Stmt → Option Stmt
  | none => none
  | some s => some s.relocate

def relocateExprs : List Expr → List Expr
  | [] => []
  | e :: es => e.relocate :: relocateExprs es

def relocateExpr? : Option Expr → Option Expr
  | none => none
  | some e => some e.relocate

def relocateElems : List (Option Expr) → List (Option Expr)
  | [] => []
  | e :: es => relocateExpr? e :: relocateElems es

def relocateDeclarators : List Declarator → List Declarator
  | [] => []
  | d :: ds => d.relocate :: relocateDeclarators ds

def Declarator.relocate : Declarator → Declarator
  | ⟨s, name, init⟩ => ⟨m.span s, name.relocate, relocateExpr? init⟩

def Fn.relocate : Fn → Fn
  | ⟨s, ident, isAsync, isArrow, params, body⟩ =>
    ⟨m.span s, ident.map m.ident, isAsync, isArrow, relocatePats params, body.relocate⟩

def FnBody.relocate : FnBody → FnBody
  | .block s stmts => .block (m.span s) (relocateStmts stmts)
  | .expr e => .expr e.relocate
  | .none => .none

def Expr.relocate : Expr → Expr
  | .ident i => .ident (m.ident i)
  | .lit l => .lit (m.lit l)
  | .call s callee typeArgs args =>
    .call (m.span s) callee.relocate (typeArgs.map m.span) (relocateExprs args)
  | .member s object name => .member (m.span s) object.relocate (m.ident name)
  | .privateMember s object name => .privateMember (m.span s) object.relocate (m.ident name)
  | .index s object index => .index (m.span s) object.relocate index.relocate
  | .fn f => .fn f.relocate
  | .object s props => .object (m.span s) (relocateProps props)
  | .array s elems => .array (m.span s) (relocateElems elems)
  | .spread s arg => .spread (m.span s) arg.relocate
  | .await s arg => .await (m.span s) arg.relocate
  | .paren s e => .paren (m.span s) e.relocate
  | .cast s kind e type => .cast (m.span s) kind e.relocate (type.map m.span)
  | .other s exprs => .other (m.span s) (relocateExprs exprs)

def relocateProps : List ObjectProp → List ObjectProp
  | [] => []
  | p :: ps => p.relocate :: relocateProps ps

def ObjectProp.relocate : ObjectProp → ObjectProp
  | .keyValue s key value => .keyValue (m.span s) key.relocate value.relocate
  | .shorthand i => .shorthand (m.ident i)
  | .method s key f => .method (m.span s) key.relocate f.relocate
  | .spread s arg => .spread (m.span s) arg.relocate

def PropKey.relocate : PropKey → PropKey
  | .ident i => .ident (m.ident i)
  | .string l => .string (m.stringLit l)
  | .number l => .number { l with span := m.span l.span }
  | .computed e => .computed e.relocate

def relocatePats : List Pat → List Pat
  | [] => []
  | p :: ps => p.relocate :: relocatePats ps

def relocatePatElems : List (Option Pat) → List (Option Pat)
  | [] => []
  | none :: ps => none :: relocatePatElems ps
  | some p :: ps => some p.relocate :: relocatePatElems ps

def Pat.relocate : Pat → Pat
  | .ident i type => .ident (m.ident i) (type.map m.span)
  | .object s props type => .object (m.span s) (relocatePatProps props) (type.map m.span)
  | .array s elems type => .array (m.span s) (relocatePatElems elems) (type.map m.span)
  | .rest s arg => .rest (m.span s) arg.relocate
  | .assign s left right => .assign (m.span s) left.relocate right.relocate
  | .invalid s => .invalid (m.span s)

def relocatePatProps : List PatProp → List PatProp
  | [] => []
  | p :: ps => p.relocate :: relocatePatProps ps

def PatProp.relocate : PatProp → PatProp
  | .keyValue s key value => .keyValue (m.span s) key.relocate value.relocate
  | .shorthand s key value => .shorthand (m.span s) (m.ident key) (relocateExpr? value)
  | .rest s arg => .rest (m.span s) arg.relocate

end

def Program.relocate (p : Program) : Program :=
  { span := m.span p.span, body := relocateStmts m p.body }

end SfcTsx.Script
