import SfcTsx.Script.Tolerant.Cursor

namespace SfcTsx.Script.Tolerant

structure Level where
  stmt : Parse Stmt
  assign : Parse Expr
  unary : Parse Expr
  primary : Parse Expr
  bindingPat : Parse Pat

namespace Level

/-- Too deep to descend: statements and operands are skipped. -/
def bottom : Level where
  stmt := do
    let start ← startOffset
    advancing skipStmt
    return .other (← spanFrom start) [] []
  assign := return .other (← skipOperand) []
  unary := return .other (← skipOperand) []
  primary := return .other (← skipOperand) []
  bindingPat := return .invalid (← skipOperand)

variable (up : Level)

def sequence : Parse Expr := do
  let start ← startOffset
  let first ← up.assign
  if ← isAt .comma then
    let stop : Parse Bool := return (← peek).kind ≠ .comma
    let rest ← repeatUntil stop do
      accept .comma
      if ← isAtCloser then return []
      return [← up.assign]
    return .other (← spanFrom start) (first :: rest)
  else return first

def braced : Parse (Span × List Stmt) := do
  let start ← startOffset
  discard bump
  let stop : Parse Bool := return (← isAt .closeBrace) || (← isAt .endOfText)
  let stmts ← repeatUntil stop do return [← up.stmt]
  accept .closeBrace
  return (← spanFrom start, stmts)

def block : Parse Stmt := do
  let (span, stmts) ← up.braced
  return .block span stmts

def blockBody : Parse FnBody := do
  let (span, stmts) ← up.braced
  return .block span stmts

def spreadable : Parse Expr := do
  let start ← startOffset
  if ← eat .ellipsis then
    let arg ← up.assign
    return .spread (← spanFrom start) arg
  else up.assign

def arguments : Parse (List Expr) := do
  discard bump
  let args ← listed do return [← up.spreadable]
  accept .closeParen
  return args

def indexed (start : Nat) (object : Expr) : Parse Expr := do
  discard bump
  let index ← up.sequence
  accept .closeBracket
  return .index (← spanFrom start) object index

/-- Takes type arguments if a call follows them. -/
def typeArguments? : Parse (Option Span) := do
  let input ← read
  let index ← get
  match input.matchingAngle index true with
  | some close =>
    if (input.tokenAt (close + 1)).kind = .openParen then
      set (close + 1)
      return some ⟨(input.tokenAt index).span.start, (input.tokenAt close).span.stop⟩
    else return none
  | none => return none

/-- The member that a dot leads to, after the dot; `none` if it leads nowhere. -/
def dotted? (start : Nat) (optional : Bool) (object : Expr) : Parse (Option Expr) := do
  let kind := (← peek).kind
  if optional && kind = .openParen then
    let args ← up.arguments
    return some (.call (← spanFrom start) object none args)
  else if optional && kind = .openBracket then
    return some (← up.indexed start object)
  else
    let isPrivate ← eat .hash
    if ← isAt .word then
      let name := (← bump).ident
      let span ← spanFrom start
      return some (if isPrivate then .privateMember span object name else .member span object name)
    else return none

/-- What continues an operand: a member, an index, a call, a template, `!`, `++` or `--`; `none` if
nothing does. -/
def suffix? (start : Nat) (operand : Expr) : Parse (Option Expr) := do
  let token ← peek
  match token.kind with
  | .dot | .questionDot =>
    discard bump
    up.dotted? start (token.kind == .questionDot) operand
  | .openBracket => return some (← up.indexed start operand)
  | .openParen =>
    let args ← up.arguments
    return some (.call (← spanFrom start) operand none args)
  | .less =>
    match ← typeArguments? with
    | some typeArgs =>
      let args ← up.arguments
      return some (.call (← spanFrom start) operand (some typeArgs) args)
    | none => return none
  | .template =>
    discard bump
    return some (.other (← spanFrom start) [operand])
  | .bang =>
    if !token.newlineBefore && (← read).dialect.isTyped then
      discard bump
      return some (.cast (← spanFrom start) .nonNull operand none)
    else return none
  | .operator =>
    if (token.text == "++" || token.text == "--") && !token.newlineBefore then
      discard bump
      return some (.other (← spanFrom start) [operand])
    else return none
  | _ => return none

def suffixes (start : Nat) : Nat → Expr → Parse Expr
  | 0, operand => return operand
  | fuel + 1, operand => do
    match ← up.suffix? start operand with
    | some longer => suffixes start fuel longer
    | none => return operand

def operand : Parse Expr := do
  let start ← startOffset
  let first ← up.primary
  up.suffixes start ((← read).tokens.size - (← get)) first

def decorators : Parse Unit := do
  let stop : Parse Bool := return (← peek).kind ≠ .at
  discard <| repeatUntil stop do
    accept .at
    discard up.operand
    return ([] : List Unit)

end Level
end SfcTsx.Script.Tolerant
