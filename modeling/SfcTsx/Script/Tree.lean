import SfcTsx.Span

namespace SfcTsx.Script

inductive Dialect where
  | ts
  | tsx
  | js
  | jsx
deriving DecidableEq, Repr, Inhabited

namespace Dialect

def isTyped (d : Dialect) : Bool := d == .ts || d == .tsx

def hasMarkup (d : Dialect) : Bool := d == .tsx || d == .jsx

def extension : Dialect → String
  | .ts => "ts"
  | .tsx => "tsx"
  | .js => "js"
  | .jsx => "jsx"

end Dialect

structure Ident where
  span : Span
  name : String
deriving DecidableEq, Repr, Inhabited

/-- A string literal; the value is what stands between the quotes. -/
structure StringLit where
  span : Span
  value : String
deriving DecidableEq, Repr, Inhabited

inductive LitKind where
  | string
  | number
  | bool (value : Bool)
  | null
  | regex
  | template
deriving DecidableEq, Repr

/-- A literal; the value of a string is what stands between its quotes, of all others the text. -/
structure Lit where
  span : Span
  kind : LitKind
  value : String
deriving DecidableEq, Repr

inductive ImportKind where
  | default
  | named
  | star
deriving DecidableEq, Repr

structure ImportSpecifier where
  span : Span
  kind : ImportKind
  name : Ident
  /-- The name it has in the other module, if that is written. -/
  imported : Option String
  typeOnly : Bool
deriving DecidableEq, Repr

structure ImportDecl where
  span : Span
  specifiers : List ImportSpecifier
  source : StringLit
  typeOnly : Bool
deriving DecidableEq, Repr

structure ExportSpecifier where
  span : Span
  name : Ident
  exported : Option Ident
  typeOnly : Bool
deriving DecidableEq, Repr

def ExportSpecifier.exportedName (s : ExportSpecifier) : String := (s.exported.getD s.name).name

inductive VarKind where
  | const
  | let
  | var
  | using
deriving DecidableEq, Repr

def VarKind.keyword : VarKind → String
  | .const => "const"
  | .let => "let"
  | .var => "var"
  | .using => "using"

structure EnumDecl where
  span : Span
  ident : Ident
  isConst : Bool
  declare : Bool
deriving DecidableEq, Repr

inductive TypeDeclKind where
  | alias
  | interface
deriving DecidableEq, Repr

structure TypeDecl where
  span : Span
  kind : TypeDeclKind
  ident : Ident
deriving DecidableEq, Repr

/-- What a typed wrapper around an expression is. -/
inductive CastKind where
  | as
  | satisfies
  | nonNull
  | assertion
deriving DecidableEq, Repr

mutual

inductive Stmt where
  | importDecl (decl : ImportDecl)
  | exportDecl (span : Span) (decl : Stmt)
  /-- A default export; a function or class becomes an expression. -/
  | exportDefault (span : Span) (expr : Expr)
  | exportNamed (span : Span) (typeOnly : Bool) (specifiers : List ExportSpecifier)
      (source : Option StringLit)
  | exportAll (span : Span) (typeOnly : Bool) (source : StringLit)
  | exportOther (span : Span) (exprs : List Expr)
  | varDecl (span : Span) (kind : VarKind) (declare : Bool) (declarators : List Declarator)
  | fn (fn : Fn)
  /-- A class; its members are methods as functions, and initial values. -/
  | classDecl (span : Span) (ident : Option Ident) (members : List Expr)
  | enumDecl (decl : EnumDecl)
  | typeDecl (decl : TypeDecl)
  | expr (span : Span) (expr : Expr)
  | block (span : Span) (stmts : List Stmt)
  | ifElse (span : Span) (test : Expr) (cons : Stmt) (alt : Option Stmt)
  | ret (span : Span) (arg : Option Expr)
  | other (span : Span) (stmts : List Stmt) (exprs : List Expr)

structure Declarator where
  span : Span
  name : Pat
  init : Option Expr

structure Fn where
  span : Span
  ident : Option Ident
  isAsync : Bool
  isArrow : Bool
  params : List Pat
  body : FnBody

inductive FnBody where
  | block (span : Span) (stmts : List Stmt)
  | expr (expr : Expr)
  | none

inductive Expr where
  | ident (ident : Ident)
  | lit (lit : Lit)
  /-- A call; the type arguments are a span with their angle brackets. -/
  | call (span : Span) (callee : Expr) (typeArgs : Option Span) (args : List Expr)
  | member (span : Span) (object : Expr) (name : Ident)
  | privateMember (span : Span) (object : Expr) (name : Ident)
  | index (span : Span) (object : Expr) (index : Expr)
  | fn (fn : Fn)
  | object (span : Span) (props : List ObjectProp)
  | array (span : Span) (elems : List (Option Expr))
  | spread (span : Span) (arg : Expr)
  | await (span : Span) (arg : Expr)
  | paren (span : Span) (expr : Expr)
  | cast (span : Span) (kind : CastKind) (expr : Expr) (type : Option Span)
  | other (span : Span) (exprs : List Expr)

inductive ObjectProp where
  | keyValue (span : Span) (key : PropKey) (value : Expr)
  | shorthand (ident : Ident)
  /-- A method, getter or setter. -/
  | method (span : Span) (key : PropKey) (fn : Fn)
  | spread (span : Span) (arg : Expr)

inductive PropKey where
  | ident (ident : Ident)
  | string (lit : StringLit)
  | number (lit : Lit)
  | computed (expr : Expr)

inductive Pat where
  | ident (ident : Ident) (type : Option Span)
  | object (span : Span) (props : List PatProp) (type : Option Span)
  | array (span : Span) (elems : List (Option Pat)) (type : Option Span)
  | rest (span : Span) (arg : Pat)
  | assign (span : Span) (left : Pat) (right : Expr)
  | invalid (span : Span)

inductive PatProp where
  | keyValue (span : Span) (key : PropKey) (value : Pat)
  | shorthand (span : Span) (key : Ident) (value : Option Expr)
  | rest (span : Span) (arg : Pat)

end

structure Program where
  span : Span
  body : List Stmt

def Stmt.span : Stmt → Span
  | .importDecl d => d.span
  | .exportDecl s _ => s
  | .exportDefault s _ => s
  | .exportNamed s .. => s
  | .exportAll s .. => s
  | .exportOther s _ => s
  | .varDecl s .. => s
  | .fn f => f.span
  | .classDecl s .. => s
  | .enumDecl d => d.span
  | .typeDecl d => d.span
  | .expr s _ => s
  | .block s _ => s
  | .ifElse s .. => s
  | .ret s _ => s
  | .other s .. => s

def Expr.span : Expr → Span
  | .ident i => i.span
  | .lit l => l.span
  | .call s .. => s
  | .member s .. => s
  | .privateMember s .. => s
  | .index s .. => s
  | .fn f => f.span
  | .object s _ => s
  | .array s _ => s
  | .spread s _ => s
  | .await s _ => s
  | .paren s _ => s
  | .cast s .. => s
  | .other s _ => s

def Pat.span : Pat → Span
  | .ident i _ => i.span
  | .object s .. => s
  | .array s .. => s
  | .rest s _ => s
  | .assign s .. => s
  | .invalid s => s

def Expr.unwrapped : Expr → Expr
  | .paren _ e => e.unwrapped
  | .cast _ _ e _ => e.unwrapped
  | e => e

def Expr.name? : Expr → Option String
  | .ident i => some i.name
  | _ => none

namespace PropKey

def name? : PropKey → Option String
  | .ident i => some i.name
  | .string l => some l.value
  | .number l => some l.value
  | .computed _ => none

def span : PropKey → Span
  | .ident i => i.span
  | .string l => l.span
  | .number l => l.span
  | .computed e => e.span

end PropKey

def ObjectProp.name? : ObjectProp → Option String
  | .keyValue _ key _ => key.name?
  | .shorthand i => some i.name
  | .method _ key _ => key.name?
  | .spread .. => none

/-- Takes one pair of like quotes off a text, or else a lone quote at its start. -/
def unquote (text : Text) : Text :=
  let isQuote (c : Char) : Bool := c == '"' || c == '\''
  match text with
  | [] => []
  | first :: rest =>
    if (isQuote first || first == '\x60') && rest.getLast? == some first then rest.dropLast
    else if isQuote first then rest
    else text

end SfcTsx.Script
