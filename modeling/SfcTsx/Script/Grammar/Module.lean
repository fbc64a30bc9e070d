import SfcTsx.Script.Grammar.Stmt

namespace SfcTsx.Script.Grammar

open Rule

def importAttributes (r : Rules) : Rule Unit := do
  let l ← lexeme
  if (← typed?) && !l.newlineBefore && (l.isWord "with" || l.isWord "assert") then
    advance
    let _ ← objectLit r

/-- The source of an import or export, and the end of the statement. -/
def moduleSource (r : Rules) : Rule StringLit := do
  let source ← stringLit
  importAttributes r
  semicolon
  return source

/-- A specifier that begins with the word `type`, which may be a name itself. -/
inductive TypeSpecifier (α : Type) where
  /-- The word makes the specifier with this name a type. -/
  | modifier (name : Ident)
  | whole (specifier : α)

/-- Reads what follows `type` in a specifier of which it is the first word. The word `as` can be a
name or stand between two names: `build` gets the name, the new name, whether the specifier is a
type, and whether its span ends with the first word. -/
def typeSpecifier {α : Type} (first : Ident) (other : Rule Ident)
    (build : Ident → Option Ident → (typeOnly toFirst : Bool) → Rule α) : Rule (TypeSpecifier α) := do
  let second ← word
  if second.name != "as" then return .modifier second
  if (← lexeme).kind != .word then return .whole (← build second none true false)
  let third ← other
  if third.name == "as" && (← lexeme).kind == .word then
    let fourth ← other
    return .whole (← build second (some fourth) true true)
  return .whole (← build first (some third) false (third.name != "as"))

def importSpecifier (typeOnly : Bool) : Rule ImportSpecifier := do
  let start ← start
  if (← lexeme).kind == .string then
    let source ← stringLit
    expectWord "as"
    let name ← bindingName
    return ⟨← spanFrom start, .named, name, some source.value, false⟩
  let first ← word
  let plain (name : Ident) (isType : Bool) : Rule ImportSpecifier := do
    if ← eatWord? "as" then
      let newName ← bindingName
      return ⟨← spanFrom start, .named, newName, some name.name, isType⟩
    require !(isReserved name.name)
    return ⟨← spanFrom start, .named, name, none, isType⟩
  if first.name == "type" && (← typed?) && (← lexeme).kind == .word then
    let build (name : Ident) (newName : Option Ident) (isType toFirst : Bool) :
        Rule ImportSpecifier := do
      require !(isType && typeOnly)
      let span ← spanFrom start
      let span := if toFirst then ⟨start, first.span.stop⟩ else span
      return ⟨span, .named, newName.getD name, newName.map fun _ => name.name, isType⟩
    match ← typeSpecifier first bindingName build with
    | .whole specifier => return specifier
    | .modifier name =>
      require !typeOnly
      plain name true
  else plain first false

/-- What follows the names in front of the braces or star of an import. -/
def importList (typeOnly : Bool) : Rule (List ImportSpecifier) := do
  let start ← start
  if ← eat? "*" then
    expectWord "as"
    let name ← bindingName
    return [⟨← spanFrom start, .star, name, none, false⟩]
  expect "\x7b"
  commaList "\x7d" (importSpecifier typeOnly)

def importEquals (start : Nat) : Rule Item := do
  expect "="
  if (← atWord? "require") && (← peek).isPunct "(" then
    advance
    advance
    let _ ← stringLit
    expect ")"
  else
    let _ ← name
    qualifiersFrom (← setting).fuel
  semicolon
  return { stmt := .exportOther (← spanFrom start) [] }

/-- The default name of an import; the word `type` in front of it makes the import one of types. -/
def importDefault : Rule (Option Ident × Bool) := do
  let l ← lexeme
  unless l.isName do return (none, false)
  let name ← bindingName
  if name.name == "type" && (← typed?) then
    if ← atAny? ["*", "\x7b"] then return (none, true)
    let l ← lexeme
    let next ← peek
    if l.isName && (l.text != "from" || next.isWord "from" || next.isPunct "=") then
      return (some (← bindingName), true)
  return (some name, false)

def importDecl (r : Rules) (start : Nat) : Rule Item := do
  expectWord "import"
  let declare (specifiers : List ImportSpecifier) (typeOnly : Bool) : Rule Item := do
    let source ← moduleSource r
    return { stmt := .importDecl ⟨← spanFrom start, specifiers, source, typeOnly⟩ }
  if (← lexeme).kind == .string then return ← declare [] false
  let (name, typeOnly) ← importDefault
  match name with
  | none =>
    let specifiers ← importList typeOnly
    expectWord "from"
    declare specifiers typeOnly
  | some name =>
    if (← typed?) && (← at? "=") then return ← importEquals start
    let first : ImportSpecifier := ⟨name.span, .default, name, none, false⟩
    let rest ← if ← eat? "," then importList typeOnly else pure []
    expectWord "from"
    declare (first :: rest) typeOnly

def exportName : Rule Ident := do
  let l ← lexeme
  require (l.kind == .word || l.kind == .string)
  advance
  return l.ident

def exportSpecifier (typeOnly : Bool) : Rule ExportSpecifier := do
  let start ← start
  let first ← exportName
  let plain (name : Ident) (isType : Bool) : Rule ExportSpecifier := do
    let exported ← if ← eatWord? "as" then some <$> exportName else pure none
    return ⟨← spanFrom start, name, exported, isType⟩
  if first.name == "type" && (← typed?) && (← lexeme).kind == .word then
    let build (name : Ident) (newName : Option Ident) (isType toFirst : Bool) :
        Rule ExportSpecifier := do
      require !(isType && typeOnly)
      let span ← spanFrom start
      let span := if toFirst || newName.isSome then ⟨start, first.span.stop⟩ else span
      return ⟨span, name, newName, isType⟩
    match ← typeSpecifier first word build with
    | .whole specifier => return specifier
    | .modifier name =>
      require !typeOnly
      plain name true
  else plain first false

/-- What is exported without a source has to be a name of this module. -/
def isLocalSpecifier (s : ExportSpecifier) : Bool :=
  !isReserved s.name.name && !(s.name.name.toList.head?.any fun c => c == '"' || c == '\'')

def exportStar (r : Rules) (start : Nat) (typeOnly : Bool) : Rule Item := do
  let place ← get
  expect "*"
  if ← eatWord? "as" then
    let _ ← exportName
    let span ← spanFrom place.lexeme.span.start
    expectWord "from"
    let source ← moduleSource r
    let specifier : ExportSpecifier := ⟨span, ⟨span, textFrom place span⟩, none, false⟩
    return { stmt := .exportNamed (← spanFrom start) typeOnly [specifier] (some source) }
  expectWord "from"
  let source ← moduleSource r
  return { stmt := .exportAll (← spanFrom start) typeOnly source }

def exportNames (r : Rules) (start : Nat) (typeOnly : Bool) : Rule Item := do
  expect "\x7b"
  let specifiers ← commaList "\x7d" (exportSpecifier typeOnly)
  if ← eatWord? "from" then
    let source ← moduleSource r
    return { stmt := .exportNamed (← spanFrom start) typeOnly specifiers (some source) }
  require (specifiers.all isLocalSpecifier)
  semicolon
  return { stmt := .exportNamed (← spanFrom start) typeOnly specifiers none }

def exportDefault (r : Rules) (start : Nat) (decorators : List Expr) : Rule Item := do
  let l ← lexeme
  let next ← peek
  let at' := l.span.start
  let typed ← typed?
  let sameLine (word : String) : Bool := next.isWord word && !next.newlineBefore
  let fn (isAsync : Bool) : Rule Item := do
    let fn ← function r at' isAsync false
    return { stmt := .exportDefault (← spanFrom start) (.fn fn), exprs := [.fn { fn with ident := none }] }
  let ofClass : Rule Item := do
    let own ← Grammar.decorators r
    if typed then
      let _ ← eatWord? "abstract"
    let (_, exprs) ← classRest r (decorators ++ own) false
    let span ← spanFrom at'
    return { stmt := .exportDefault (← spanFrom start) (.other span exprs), exprs }
  if l.isWord "class" || l.isPunct "@" || typed && l.isWord "abstract" && sameLine "class" then
    ofClass
  else if l.isWord "function" then fn false
  else if l.isWord "async" && sameLine "function" then
    advance
    fn true
  else if typed && l.isWord "interface" && next.kind == .word then
    let item ← interfaceDecl r at'
    let span ← spanFrom at'
    return { item with stmt := .exportDefault (← spanFrom start) (.other span []) }
  else
    let o ← bracketed r.assign
    semicolon
    return { stmt := .exportDefault (← spanFrom start) o.expr, exprs := [o.expr] }

def typedExport? (r : Rules) (start : Nat) : Rule (Option Item) := do
  unless ← typed? do return none
  let l ← lexeme
  let next ← peek
  if l.isPunct "=" then
    advance
    let o ← bracketed (expression r)
    semicolon
    return some { stmt := .exportOther (← spanFrom start) [o.expr], exprs := [o.expr] }
  if l.isWord "as" && next.isWord "namespace" then
    advance
    advance
    let _ ← word
    semicolon
    return some { stmt := .exportOther (← spanFrom start) [] }
  if l.isWord "import" && next.kind == .word then
    advance
    let (name, _) ← importDefault
    require name.isSome
    return some (← importEquals start)
  if l.isWord "type" && next.isPunct "\x7b" then
    advance
    return some (← exportNames r start true)
  if l.isWord "type" && next.isPunct "*" then
    advance
    return some (← exportStar r start true)
  return none

def exportDecl (r : Rules) (start : Nat) (decorators : List Expr) : Rule Item := do
  expectWord "export"
  let l ← lexeme
  unless decorators.isEmpty do
    require (l.isWord "class" || l.isWord "abstract" || l.isWord "default")
  if let some item ← typedExport? r start then return item
  if l.isPunct "*" then exportStar r start false
  else if l.isPunct "\x7b" then exportNames r start false
  else if l.isWord "default" then
    advance
    exportDefault r start decorators
  else if !decorators.isEmpty then
    if ← typed? then
      let _ ← eatWord? "abstract"
    let item ← classDecl r l.span.start decorators
    return { item with stmt := .exportDecl (← spanFrom start) item.stmt }
  else
    let item ← ofOption (← declaration? r true)
    return { item with stmt := .exportDecl (← spanFrom start) item.stmt }

def item (r : Rules) : Rule Item := do
  let l ← lexeme
  if l.isPunct "@" then
    let place ← get
    let decorators ← decorators r
    if ← atWord? "export" then return ← exportDecl r (← start) decorators
    set place
  if l.isWord "import" then
    let next ← peek
    unless next.isPunct "(" || next.isPunct "." do return ← importDecl r l.span.start
  if l.isWord "export" then return ← exportDecl r l.span.start []
  return .ofStmt (← r.stmt true)

end SfcTsx.Script.Grammar
