import SfcTsx.Outline
import SfcTsx.Script.Tree

namespace SfcTsx.Script

open SfcTsx.Outline

def Ident.outline (i : Ident) : Text := node "id" [Outline.span i.span, string i.name]

def StringLit.outline (l : StringLit) : Text := node "str" [Outline.span l.span, string l.value]

def LitKind.label : LitKind → String
  | .string => "str"
  | .number => "num"
  | .bool true => "true"
  | .bool false => "false"
  | .null => "null"
  | .regex => "regex"
  | .template => "template"

def Lit.outline (l : Lit) : Text :=
  node "lit" [Outline.span l.span, l.kind.label.toList, string l.value]

def ImportKind.label : ImportKind → String
  | .default => "default"
  | .named => "named"
  | .star => "namespace"

def ImportSpecifier.outline (s : ImportSpecifier) : Text :=
  node "spec" [s.kind.label, Outline.span s.span, s.name.outline, part string s.imported,
    Outline.named "type" (flag s.typeOnly)]

def ImportDecl.outline (d : ImportDecl) : Text :=
  node "import" ([Outline.span d.span, Outline.named "type" (flag d.typeOnly), d.source.outline] ++
    d.specifiers.map (·.outline))

def ExportSpecifier.outline (s : ExportSpecifier) : Text :=
  node "spec" [Outline.span s.span, s.name.outline, part Ident.outline s.exported,
    Outline.named "type" (flag s.typeOnly)]

def EnumDecl.outline (d : EnumDecl) : Text :=
  node "enum" [Outline.span d.span, d.ident.outline, Outline.named "const" (flag d.isConst),
    Outline.named "declare" (flag d.declare)]

def TypeDecl.outline (d : TypeDecl) : Text :=
  node "type" [Outline.span d.span,
    match d.kind with
    | .alias => "alias"
    | .interface => "interface",
    d.ident.outline]

def CastKind.label : CastKind → String
  | .as => "as"
  | .satisfies => "satisfies"
  | .nonNull => "nonnull"
  | .assertion => "assertion"

def exportOutline (span : Span) (typeOnly : Bool) (kind : Text) : Text :=
  node "export" [Outline.span span, Outline.named "type" (flag typeOnly), kind]

def otherOutline (span : Span) (stmts exprs : List Text) : Text :=
  node "other" [Outline.span span, node "stmts" stmts, node "exprs" exprs]

mutual

def Stmt.outline : Stmt → Text
  | .importDecl d => d.outline
  | .exportDecl s d => exportOutline s false (node "decl" [d.outline])
  | .exportDefault s e => exportOutline s false (node "default" [e.outline])
  | .exportNamed s t specifiers source =>
    exportOutline s t
      (node "named" (part StringLit.outline source :: specifiers.map (·.outline)))
  | .exportAll s t source => exportOutline s t (node "all" [source.outline])
  | .exportOther s exprs => exportOutline s false (otherOutline s [] (outlineExprs exprs))
  | .varDecl s kind declare ds =>
    node "var" (Outline.span s :: kind.keyword :: Outline.named "declare" (flag declare) ::
      outlineDeclarators ds)
  | .fn f => node "fndecl" [f.outline]
  | .classDecl s i members =>
    node "class" (Outline.span s :: part Ident.outline i :: outlineExprs members)
  | .enumDecl d => d.outline
  | .typeDecl d => d.outline
  | .expr s e => node "expr" [Outline.span s, e.outline]
  | .block s stmts => node "block" (Outline.span s :: outlineStmts stmts)
  | .ifElse s test cons alt =>
    node "if" [Outline.span s, test.outline, cons.outline, outlineStmt? alt]
  | .ret s arg => node "return" [Outline.span s, outlineExpr? arg]
  | .other s stmts exprs => otherOutline s (outlineStmts stmts) (outlineExprs exprs)

def outlineStmts : List Stmt → List Text
  | [] => []
  | s :: ss => s.outline :: outlineStmts ss

def outlineStmt? : Option Stmt → Text
  | none => ['-']
  | some s => s.outline

def outlineExprs : List Expr → List Text
  | [] => []
  | e :: es => e.outline :: outlineExprs es

def outlineExpr? : Option Expr → Text
  | none => ['-']
  | some e => e.outline

def outlineElems : List (Option Expr) → List Text
  | [] => []
  | e :: es => outlineExpr? e :: outlineElems es

def outlineDeclarators : List Declarator → List Text
  | [] => []
  | d :: ds => d.outline :: outlineDeclarators ds

def Declarator.outline : Declarator → Text
  | ⟨s, name, init⟩ => node "declarator" [Outline.span s, name.outline, outlineExpr? init]

def Fn.outline : Fn → Text
  | ⟨s, ident, isAsync, isArrow, params, body⟩ =>
    node "fn" [Outline.span s, part Ident.outline ident, Outline.named "async" (flag isAsync),
      Outline.named "arrow" (flag isArrow), node "params" (outlinePats params), body.outline]

def FnBody.outline : FnBody → Text
  | .block s stmts => node "block" (Outline.span s :: outlineStmts stmts)
  | .expr e => node "ret" [e.outline]
  | .none => ['-']

def Expr.outline : Expr → Text
  | .ident i => i.outline
  | .lit l => l.outline
  | .call s callee typeArgs args =>
    node "call" (Outline.span s :: callee.outline :: span? typeArgs :: outlineExprs args)
  | .member s object name => node "member" [Outline.span s, object.outline, name.outline]
  | .privateMember s object name =>
    node "member" [Outline.span s, object.outline, node "private" [name.outline]]
  | .index s object index =>
    node "member" [Outline.span s, object.outline, node "computed" [index.outline]]
  | .fn f => f.outline
  | .object s props => node "object" (Outline.span s :: outlineProps props)
  | .array s elems => node "array" (Outline.span s :: outlineElems elems)
  | .spread s arg => node "spread" [Outline.span s, arg.outline]
  | .await s arg => node "await" [Outline.span s, arg.outline]
  | .paren s e => node "paren" [Outline.span s, e.outline]
  | .cast s kind e type => node "ts" [Outline.span s, kind.label, e.outline, span? type]
  | .other s exprs => otherOutline s [] (outlineExprs exprs)

def outlineProps : List ObjectProp → List Text
  | [] => []
  | p :: ps => p.outline :: outlineProps ps

def ObjectProp.outline : ObjectProp → Text
  | .keyValue s key value => node "kv" [Outline.span s, key.outline, value.outline]
  | .shorthand i => node "short" [i.outline]
  | .method s key f => node "method" [Outline.span s, key.outline, f.outline]
  | .spread s arg => node "spread" [Outline.span s, arg.outline]

def PropKey.outline : PropKey → Text
  | .ident i => i.outline
  | .string l => l.outline
  | .number l => l.outline
  | .computed e => node "computed" [e.outline]

def outlinePats : List Pat → List Text
  | [] => []
  | p :: ps => p.outline :: outlinePats ps

def outlinePatElems : List (Option Pat) → List Text
  | [] => []
  | none :: ps => ['-'] :: outlinePatElems ps
  | some p :: ps => p.outline :: outlinePatElems ps

def Pat.outline : Pat → Text
  | .ident i type => node "pid" [Outline.span i.span, i.outline, span? type]
  | .object s props type =>
    node "pobject" (Outline.span s :: span? type :: outlinePatProps props)
  | .array s elems type => node "parray" (Outline.span s :: span? type :: outlinePatElems elems)
  | .rest s arg => node "rest" [Outline.span s, arg.outline]
  | .assign s left right => node "passign" [Outline.span s, left.outline, right.outline]
  | .invalid s => node "invalid" [Outline.span s]

def outlinePatProps : List PatProp → List Text
  | [] => []
  | p :: ps => p.outline :: outlinePatProps ps

def PatProp.outline : PatProp → Text
  | .keyValue s key value => node "kv" [Outline.span s, key.outline, value.outline]
  | .shorthand s key value => node "short" [Outline.span s, key.outline, outlineExpr? value]
  | .rest s arg => node "rest" [Outline.span s, arg.outline]

end

end SfcTsx.Script
