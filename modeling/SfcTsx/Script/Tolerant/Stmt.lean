import SfcTsx.Script.Tolerant.Expr

namespace SfcTsx.Script.Tolerant

def moduleName : Parse StringLit := do
  if ← isAt .string then return (← bump).stringLit
  else return ⟨.empty (← endOffset), ""⟩

def isAtTypeModifier : Parse Bool := do
  let next ← ahead 1
  return (← isAtWord "type") && (next.kind == .word || next.kind == .string) && !next.isWord "as"

/-- The name of a specifier, with what may stand in front of it; `none` if there is no name. -/
def specifierName? : Parse (Option (Bool × Token)) := do
  let typeOnly ← isAtTypeModifier
  if typeOnly then discard bump
  let kind := (← peek).kind
  if kind = .word || kind = .string then return some (typeOnly, ← bump) else return none

def importSpecifier? : Parse (Option ImportSpecifier) := do
  let start ← startOffset
  match ← specifierName? with
  | none => return none
  | some (typeOnly, first) =>
    if ← eatWord "as" then
      unless ← isAt .word do return none
      let name ← bump
      return some ⟨← spanFrom start, .named, name.ident, some first.stringLit.value, typeOnly⟩
    else return some ⟨← spanFrom start, .named, first.ident, none, typeOnly⟩

def exportSpecifier? : Parse (Option ExportSpecifier) := do
  let start ← startOffset
  match ← specifierName? with
  | none => return none
  | some (typeOnly, name) =>
    let exported ← if ← eatWord "as" then do
        let kind := (← peek).kind
        if kind = .word || kind = .string then (some ·.ident) <$> bump else pure none
      else pure none
    return some ⟨← spanFrom start, name.ident, exported, typeOnly⟩

def specifiers {α : Type} (item : Parse (Option α)) : Parse (List α) := do
  discard bump
  let items ← listed do return (← item).toList
  accept .closeBrace
  return items

def starSpecifier : Parse (List ImportSpecifier) := do
  let start ← startOffset
  discard bump
  discard (eatWord "as")
  if ← isAt .word then
    let name ← bump
    return [⟨← spanFrom start, .star, name.ident, none, false⟩]
  else return []

def skipImportAttributes : Parse Unit := do
  if ((← isAtWord "with") || (← isAtWord "assert")) && (← ahead 1).kind = .openBrace then
    discard bump
    skipBalanced

def importStmt : Parse Stmt := do
  let start ← startOffset
  discard bump
  let next ← ahead 1
  let typeOnly := (← isAtWord "type") && !next.isWord "from" &&
    (next.kind == .word || next.kind == .openBrace || next.kind == .star)
  if typeOnly then discard bump
  let default? ← if ← isAt .word then some <$> bump else pure none
  if default?.isSome && (← isAt .equals) then
    skipStmt
    return .other (← spanFrom start) [] []
  if default?.isSome then accept .comma
  let defaults : List ImportSpecifier :=
    (default?.map fun token => ⟨token.span, .default, token.ident, none, false⟩).toList
  let stars ← if ← isAt .star then starSpecifier else pure []
  let named ← if ← isAt .openBrace then specifiers importSpecifier? else pure []
  discard (eatWord "from")
  let source ← moduleName
  skipImportAttributes
  accept .semicolon
  return .importDecl ⟨← spanFrom start, defaults ++ stars ++ named, source, typeOnly⟩

def fromClause? : Parse (Option StringLit) := do
  unless ← eatWord "from" do return none
  if ← isAt .string then return some (← bump).stringLit else return none

def exportStar (start : Nat) (typeOnly : Bool) : Parse Stmt := do
  discard bump
  if ← eatWord "as" then
    let name ← bump
    let source ← fromClause?
    accept .semicolon
    return .exportNamed (← spanFrom start) typeOnly [⟨name.span, name.ident, none, false⟩] source
  else
    let source ← match ← fromClause? with
      | some source => pure source
      | none => pure ⟨.empty (← endOffset), ""⟩
    accept .semicolon
    return .exportAll (← spanFrom start) typeOnly source

def enumStmt : Parse Stmt := do
  let start ← startOffset
  let isConst ← eatWord "const"
  discard bump
  let name ← bump
  if ← isAt .openBrace then skipBalanced
  return .enumDecl ⟨← spanFrom start, name.ident, isConst, false⟩

def typeAlias : Parse Stmt := do
  let start ← startOffset
  discard bump
  let name ← bump
  if ← isAt .less then skipAngle
  accept .equals
  discard (skipType [])
  accept .semicolon
  return .typeDecl ⟨← spanFrom start, .alias, name.ident⟩

def interfaceStmt : Parse Stmt := do
  let start ← startOffset
  discard bump
  let name ← bump
  unless ← isAt .openBrace do discard (skipType [.openBrace])
  if ← isAt .openBrace then skipBalanced
  return .typeDecl ⟨← spanFrom start, .interface, name.ident⟩

/-- The statement with `declare` in front of it, which widens the span of a declaration. -/
def declared (span : Span) : Stmt → Stmt
  | .varDecl _ kind _ declarators => .varDecl span kind true declarators
  | .enumDecl decl => .enumDecl { decl with span, declare := true }
  | .fn fn => .fn { fn with span }
  | .classDecl _ ident members => .classDecl span ident members
  | .typeDecl decl => .typeDecl { decl with span }
  | .other _ stmts exprs => .other span stmts exprs
  | stmt => stmt

namespace Level

variable (up : Level)

def defaultExport : Parse Expr := do
  let next ← ahead 1
  if (← isAtWord "function") || ((← isAtWord "async") && next.isWord "function") then
    let fn ← up.function
    accept .semicolon
    return .fn fn
  else if (← isAtWord "class") || ((← isAtWord "abstract") && next.isWord "class") then
    let parts ← up.classDecl
    return .other parts.span parts.members
  else if ← isAtWord "interface" then
    return .other (← interfaceStmt).span []
  else
    let expr ← up.assign
    accept .semicolon
    return expr

def exportStmt : Parse Stmt := do
  let start ← startOffset
  discard bump
  if ← eatWord "default" then
    let expr ← up.defaultExport
    return .exportDefault (← spanFrom start) expr
  let next := (← ahead 1).kind
  let typeOnly := (← isAtWord "type") && (next == .openBrace || next == .star)
  if typeOnly then discard bump
  if ← isAt .openBrace then
    let names ← specifiers exportSpecifier?
    let source ← fromClause?
    accept .semicolon
    return .exportNamed (← spanFrom start) typeOnly names source
  if ← isAt .star then exportStar start typeOnly
  else if (← isAt .equals) || (← isAtWord "as") || (← isAtWord "import") then
    skipStmt
    return .exportOther (← spanFrom start) []
  else
    let decl ← up.stmt
    return .exportDecl (← spanFrom start) decl

def declarator : Parse Declarator := do
  let start ← startOffset
  let name ← up.bindingPat
  accept .bang
  if ← eat .colon then discard (skipType [.equals, .comma])
  let init ← if ← eat .equals then some <$> up.assign else pure none
  return ⟨← spanFrom start, name, init⟩

/-- Declarators separated by commas; one that takes no token is the last. -/
def declarators : Nat → Parse (List Declarator)
  | 0 => return []
  | fuel + 1 => do
    let before ← get
    let first ← up.declarator
    if (← get) = before then return [first]
    if ← eat .comma then return first :: (← declarators fuel) else return [first]

def varStmt : Parse Stmt := do
  let start ← startOffset
  discard (eatWord "await")
  let kind : VarKind := match (← bump).text with
    | "const" => .const
    | "let" => .let
    | "var" => .var
    | _ => .using
  let decls ← up.declarators ((← read).tokens.size - (← get) + 1)
  unless (← eat .semicolon) || (← isAtStmtEnd) do skipStmt
  return .varDecl (← spanFrom start) kind false decls

def declareStmt : Parse Stmt := do
  let start ← startOffset
  discard bump
  let stmt ← up.stmt
  return declared (← spanFrom start) stmt

def namespaceStmt : Parse Stmt := do
  let start ← startOffset
  discard bump
  let stop : Parse Bool := return (← isAt .openBrace) || (← isAtStmtEnd)
  discard <| repeatUntil stop do
    discard bump
    return ([] : List Unit)
  let stmts ← if ← isAt .openBrace then List.singleton <$> up.block
    else do
      accept .semicolon
      pure []
  return .other (← spanFrom start) stmts []

def ifStmt : Parse Stmt := do
  let start ← startOffset
  discard bump
  accept .openParen
  let test ← up.sequence
  accept .closeParen
  let cons ← up.stmt
  let alt ← if ← eatWord "else" then some <$> up.stmt else pure none
  return .ifElse (← spanFrom start) test cons alt

def returnStmt : Parse Stmt := do
  let start ← startOffset
  discard bump
  let arg ← if ← isAtStmtEnd then pure none else some <$> up.sequence
  accept .semicolon
  return .ret (← spanFrom start) arg

def headExprs : Parse (List Expr) := do
  unless ← eat .openParen do return []
  let exprs ← repeatUntil isAtCloser do
    let token ← peek
    if ["const", "let", "var", "using"].contains token.text || token.kind = .semicolon ||
        token.kind = .comma then
      discard bump
      return []
    advancing do return [← up.assign]
  accept .closeParen
  return exprs

def blocks : Parse (List Stmt) := do
  if ← isAt .openBrace then List.singleton <$> up.block else return []

def tryBlocks : Parse (List Stmt) := do
  let body ← up.blocks
  let handler ← if ← eatWord "catch" then do
      if ← isAt .openParen then skipBalanced
      up.blocks
    else pure []
  let finalizer ← if ← eatWord "finally" then up.blocks else pure []
  return body ++ handler ++ finalizer

def keywordParts (keyword : String) : Parse (List Stmt × List Expr) := do
  match keyword with
  | "for" =>
    discard (eatWord "await")
    let exprs ← up.headExprs
    return ([← up.stmt], exprs)
  | "while" | "with" =>
    let exprs ← up.headExprs
    return ([← up.stmt], exprs)
  | "do" =>
    let body ← up.stmt
    let exprs ← if ← eatWord "while" then up.headExprs else pure []
    accept .semicolon
    return ([body], exprs)
  | "try" => return (← up.tryBlocks, [])
  | "switch" =>
    let exprs ← up.headExprs
    return (← up.blocks, exprs)
  | "case" =>
    let expr ← up.sequence
    accept .colon
    return ([], [expr])
  | "default" =>
    accept .colon
    return ([], [])
  | "throw" =>
    let expr ← up.sequence
    accept .semicolon
    return ([], [expr])
  | _ =>
    let token ← peek
    if token.kind = .word && !token.newlineBefore then discard bump
    accept .semicolon
    return ([], [])

/-- Loops, `try`, `switch` and the other statements without a form of their own. -/
def keywordStmt : Parse Stmt := do
  let start ← startOffset
  let keyword ← bump
  let (stmts, exprs) ← up.keywordParts keyword.text
  return .other (← spanFrom start) stmts exprs

def exprStmt : Parse Stmt := do
  let start ← startOffset
  let expr ← up.sequence
  if (← eat .semicolon) || (← isAtStmtEnd) then return .expr (← spanFrom start) expr
  skipStmt
  return .other (← spanFrom start) [] [expr]

def classStmt : Parse Stmt := do
  let parts ← up.classDecl
  return .classDecl parts.span parts.ident parts.members

def isStmtKeyword (word : String) : Bool :=
  ["for", "while", "do", "try", "switch", "case", "default", "throw", "break", "continue", "with",
    "debugger"].contains word

def wordStmt (token : Token) : Parse Stmt := do
  let next ← ahead 1
  let wordFollows := next.kind == .word && !next.newlineBefore
  let word := token.text
  if word == "import" && next.kind != .openParen && next.kind != .dot then importStmt
  else if word == "export" then up.exportStmt
  else if word == "const" && next.isWord "enum" then enumStmt
  else if word == "const" || word == "var" then up.varStmt
  else if word == "let" && [.word, .openBrace, .openBracket].contains next.kind then up.varStmt
  else if word == "using" && wordFollows && next.text != "in" && next.text != "of" then up.varStmt
  else if word == "await" && next.isWord "using" then up.varStmt
  else if word == "function" then return .fn (← up.function)
  else if word == "async" && next.isWord "function" && !next.newlineBefore then
    return .fn (← up.function)
  else if word == "class" || (word == "abstract" && next.isWord "class") then up.classStmt
  else if word == "enum" && wordFollows then enumStmt
  else if word == "declare" && wordFollows then up.declareStmt
  else if word == "type" && wordFollows then typeAlias
  else if word == "interface" && wordFollows then interfaceStmt
  else if ["namespace", "module", "global"].contains word &&
      [.word, .string, .openBrace].contains next.kind && !next.newlineBefore then up.namespaceStmt
  else if word == "if" then up.ifStmt
  else if word == "return" then up.returnStmt
  else if isStmtKeyword word then up.keywordStmt
  else if next.kind == .colon then do
    discard bump
    discard bump
    up.stmt
  else up.exprStmt

/-- A statement with decorators, which belong to the span of a class. -/
def decoratedStmt : Parse Stmt := do
  let start ← startOffset
  up.decorators
  match ← up.stmt with
  | .classDecl _ ident members => return .classDecl (← spanFrom start) ident members
  | stmt => return stmt

def statement : Parse Stmt := do
  let token ← peek
  match token.kind with
  | .semicolon | .closeBrace | .closeParen | .closeBracket =>
    discard bump
    return .other token.span [] []
  | .openBrace => up.block
  | .at => up.decoratedStmt
  | .word => up.wordStmt token
  | _ => up.exprStmt

end Level
end SfcTsx.Script.Tolerant
