import SfcTsx.Script.Grammar.Declaration

namespace SfcTsx.Script.Grammar

open Rule

def condition (r : Rules) : Rule Expr := do
  expect "("
  let o ← bracketed (expression r)
  expect ")"
  return o.expr

def loopBody (r : Rules) : Rule Stmt :=
  within (fun s => { s with canBreak := true, canContinue := true }) (r.stmt false)

def otherStmt (start : Nat) (stmts : List Stmt) (exprs : List Expr) : Rule Stmt := do
  return .other (← spanFrom start) stmts exprs

def ifStmt (r : Rules) (start : Nat) : Rule Stmt := do
  let test ← condition r
  let cons ← r.stmt false
  let alt ← if ← eatWord? "else" then some <$> r.stmt false else pure none
  return .ifElse (← spanFrom start) test cons alt

def returnStmt (r : Rules) (start : Nat) : Rule Stmt := do
  require (← setting).inFunction
  let bare := (← at? ";") || (← atLineEnd?)
  let arg ← if bare then pure none else some <$> bracketed (expression r)
  semicolon
  return .ret (← spanFrom start) (arg.map Operand.expr)

def doStmt (r : Rules) (start : Nat) : Rule Stmt := do
  let body ← loopBody r
  expectWord "while"
  let test ← condition r
  let _ ← eat? ";"
  otherStmt start [body] [test]

def jumpLabel : Rule (Option String) := do
  let label ← if (← at? ";") || (← atLineEnd?) then pure none else some <$> name
  semicolon
  return label.map Ident.name

def breakStmt (start : Nat) : Rule Stmt := do
  let label ← jumpLabel
  let s ← setting
  require (match label with
    | some label => s.labels.contains label
    | none => s.canBreak)
  otherStmt start [] []

def continueStmt (start : Nat) : Rule Stmt := do
  let label ← jumpLabel
  let s ← setting
  require (s.canContinue && match label with
    | some label => s.labels.contains label
    | none => true)
  otherStmt start [] []

/-- The clauses of a `switch`: the tests and the statements. -/
def caseClausesFrom (r : Rules) : Nat → Bool → Rule (List Expr × List Stmt)
  | 0, _ => failure
  | fuel + 1, mayDefault => do
    if ← eat? "\x7d" then return ([], [])
    if (← atWord? "case") || (← atWord? "default") then
      let isDefault ← atWord? "default"
      require (mayDefault || !isDefault)
      advance
      let test ← if isDefault then pure [] else do
        let o ← bracketed (expression r)
        pure [o.expr]
      expect ":"
      let (tests, stmts) ← caseClausesFrom r fuel (mayDefault && !isDefault)
      return (test ++ tests, stmts)
    let s ← r.stmt true
    let (tests, stmts) ← caseClausesFrom r fuel mayDefault
    return (tests, s :: stmts)

def switchStmt (r : Rules) (start : Nat) : Rule Stmt := do
  let subject ← condition r
  expect "\x7b"
  require ((← at? "\x7d") || (← atWord? "case") || (← atWord? "default"))
  let (tests, stmts) ←
    within (fun s => { s with canBreak := true }) (caseClausesFrom r (← setting).fuel true)
  otherStmt start stmts (subject :: tests)

def tryStmt (r : Rules) (start : Nat) : Rule Stmt := do
  let (_, body) ← braced r
  let handler ←
    if ← eatWord? "catch" then
      if ← eat? "(" then
        let _ ← r.pattern false
        let _ ← typeAnnotation? r
        expect ")"
      some <$> braced r
    else pure none
  let finalizer ← if ← eatWord? "finally" then some <$> braced r else pure none
  require (handler.isSome || finalizer.isSome)
  let stmts (part : Option (Span × List Stmt)) : List Stmt := (part.map Prod.snd).getD []
  otherStmt start (body ++ stmts handler ++ stmts finalizer) []

def countingLoop (r : Rules) (start : Nat) (init : List Expr) : Rule Stmt := do
  let test ← if ← at? ";" then pure [] else do
    let o ← bracketed (expression r)
    pure [o.expr]
  expect ";"
  let update ← if ← at? ")" then pure [] else do
    let o ← bracketed (expression r)
    pure [o.expr]
  expect ")"
  let body ← loopBody r
  otherStmt start [body] (init ++ test ++ update)

def eachLoop (r : Rules) (start : Nat) (isAwait : Bool) : Rule Stmt := do
  let isOf ← eatWord? "of"
  unless isOf do
    expectWord "in"
    require !isAwait
  let right ← bracketed (if isOf then r.assign else expression r)
  expect ")"
  let body ← loopBody r
  otherStmt start [body] [right.expr]

def isLoopVariable (d : Declarator) : Bool :=
  d.init.isNone && match d.name with
    | .ident _ type => type.isNone
    | _ => true

def forStmt (r : Rules) (start : Nat) : Rule Stmt := do
  let s ← setting
  let isAwait ← eatWord? "await"
  require (!isAwait || s.isAsync || !s.inFunction)
  expect "("
  let each? : Rule Bool := return (← atWord? "of") || (← atWord? "in")
  if ← eat? ";" then
    require !isAwait
    return ← countingLoop r start []
  let l ← lexeme
  let next ← peek
  let isUsing := s.isTyped && l.isWord "using" && next.isName && !next.isWord "of" &&
    !next.newlineBefore
  if let some kind := if isUsing then some VarKind.using else varKind? l then
    advance
    let ds ← within (fun s => { s with allowIn := false, colonFollows := false })
      (declarators r kind true)
    if ← each? then
      require (ds.length == 1 && ds.all isLoopVariable)
      return ← eachLoop r start isAwait
    require !isAwait
    expect ";"
    return ← countingLoop r start (ds.filterMap Declarator.init)
  let init ← within (fun s => { s with allowIn := false, colonFollows := false }) (expression r)
  if ← each? then
    require (init.target.isSome && (isSimpleTarget init || !s.isTyped || !(← atWord? "in")))
    return ← eachLoop r start isAwait
  require !isAwait
  expect ";"
  countingLoop r start [init.expr]

/-- Resources that are released at the end of the block, from the word `using` on. -/
def usingStmt (r : Rules) (start : Nat) : Rule Stmt := do
  require (← typed?)
  expectWord "using"
  let ds ← declarators r .using false
  let isPlain (d : Declarator) : Bool := match d.name with
    | .ident .. => d.init.isSome
    | _ => false
  require (ds.all isPlain)
  otherStmt start [] (ds.filterMap Declarator.init)

def labelled (r : Rules) (start : Nat) : Rule Stmt := do
  let label ← name
  expect ":"
  require !((← setting).labels.contains label.name)
  let change (s : Setting) : Setting :=
    { s with canBreak := true, labels := label.name :: s.labels }
  let body ← within change (r.stmt false)
  otherStmt start [body] []

def exprStmt (r : Rules) (start : Nat) : Rule Stmt := do
  let o ← bracketed (expression r)
  semicolon
  return .expr (← spanFrom start) o.expr

def keywordStmt? (r : Rules) (l : Lexeme) : Rule (Option Stmt) := do
  let start := l.span.start
  let keyword (rule : Rule Stmt) : Rule (Option Stmt) := do
    advance
    some <$> rule
  match l.text with
  | "if" => keyword (ifStmt r start)
  | "return" => keyword (returnStmt r start)
  | "for" => keyword (forStmt r start)
  | "while" => keyword do
    let test ← condition r
    let body ← loopBody r
    otherStmt start [body] [test]
  | "do" => keyword (doStmt r start)
  | "break" => keyword (breakStmt start)
  | "continue" => keyword (continueStmt start)
  | "switch" => keyword (switchStmt r start)
  | "throw" => keyword do
    require !(← lexeme).newlineBefore
    let o ← bracketed (expression r)
    semicolon
    otherStmt start [] [o.expr]
  | "try" => keyword (tryStmt r start)
  | "debugger" => keyword do
    semicolon
    otherStmt start [] []
  | _ => return none

/-- A statement; without `declarations` only variables with `var` can be declared. -/
def stmt (r : Rules) (declarations : Bool) : Rule Stmt := do
  let l ← lexeme
  let start := l.span.start
  if l.isPunct "\x7b" then
    let (span, stmts) ← braced r
    return .block span stmts
  if ← eat? ";" then return ← otherStmt start [] []
  if l.kind == .word then
    if let some s ← keywordStmt? r l then return s
    let next ← peek
    if l.isName && next.isPunct ":" then return ← labelled r start
    if declarations then
      if l.text == "using" && next.isName && !next.newlineBefore then return ← usingStmt r start
      if l.text == "await" && next.isWord "using" && !next.newlineBefore then
        let using? : Rule Stmt := do
          advance
          require (← peek).isName
          usingStmt r start
        if let some s ← attempt using? then return s
  if declarations || l.isWord "var" then
    if let some item ← declaration? r false then return item.stmt
  require !(["function", "class", "const", "let"].contains l.text)
  exprStmt r start

end SfcTsx.Script.Grammar
