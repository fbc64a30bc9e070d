import SfcTsx.Script.Tolerant.Binding

namespace SfcTsx.Script.Tolerant

/-- The tokens from `index` on are a return type and the arrow after it. -/
def Input.arrowAfterType (input : Input) : Nat → Nat → Nat → Bool
  | 0, _, _ => false
  | fuel + 1, nest, index =>
    let kind := (input.tokenAt index).kind
    let go := arrowAfterType input fuel
    if kind = .arrow && nest = 0 then true
    else if Token.isOpener kind || kind = .less then go (nest + 1) (index + 1)
    else if Token.isCloser kind || kind = .greater then
      match nest with
      | 0 => false
      | nest + 1 => go nest (index + 1)
    else if nest = 0 && [.semicolon, .comma, .question, .equals].contains kind then false
    else if kind = .endOfText then false
    else go nest (index + 1)

def Input.arrowParamsAt (input : Input) (index : Nat) : Bool :=
  match input.matching index with
  | some close =>
    match (input.tokenAt (close + 1)).kind with
    | .arrow => true
    | .colon => input.arrowAfterType (input.tokens.size - (close + 2)) 0 (close + 2)
    | _ => false
  | none => false

/-- An arrow function, its `async` apart, starts at `index`. -/
def Input.arrowAt (input : Input) (index : Nat) : Bool :=
  match (input.tokenAt index).kind with
  | .word => (input.tokenAt (index + 1)).kind == .arrow
  | .openParen => input.arrowParamsAt index
  | .less =>
    let generic := match input.dialect with
      | .ts => true
      | .tsx =>
        let next := input.tokenAt (index + 2)
        next.kind == .comma || next.isWord "extends"
      | .js | .jsx => false
    generic &&
      match input.matchingAngle index false with
      | some close =>
        (input.tokenAt (close + 1)).kind == .openParen && input.arrowParamsAt (close + 1)
      | none => false
  | _ => false

def skipUntil (kinds : List TokenKind) : Parse Unit := do
  let stop : Parse Bool := return kinds.contains (← peek).kind
  discard <| repeatUntil stop do
    discard bump
    return ([] : List Unit)

/-- Takes an opening tag of markup after its `<`, and tells whether it closes itself. -/
def skipOpeningTag : Parse Bool := do
  let stop : Parse Bool := return (← isAt .greater) || (← isAt .endOfText)
  let slashes ← repeatUntil stop do
    if ← isAt .openBrace then
      skipBalanced
      return []
    return [(← bump).kind == .slash]
  discard bump
  return slashes.getLast?.getD false

/-- Takes markup in which `depth` tags are open, up to the tag that closes the first. -/
def skipMarkup : Nat → Nat → Parse Unit
  | 0, _ => return
  | fuel + 1, depth => do
    match (← peek).kind with
    | .endOfText => return
    | .less =>
      discard bump
      let depth ← if ← eat .slash then do
          skipUntil [.greater, .endOfText]
          discard bump
          pure (depth - 1)
        else do
          let closed ← skipOpeningTag
          pure (if closed then depth else depth + 1)
      if depth = 0 then return
      skipMarkup fuel depth
    | .openBrace =>
      skipBalanced
      skipMarkup fuel depth
    | _ =>
      discard bump
      skipMarkup fuel depth

namespace Level

variable (up : Level)

def arrayLit : Parse Expr := do
  let start ← startOffset
  discard bump
  let elems ← elements up.spreadable
  accept .closeBracket
  return .array (← spanFrom start) elems

/-- A property of an object, if one is there. A default value is taken and left out. -/
def objectProp? : Parse (Option ObjectProp) := do
  let start ← startOffset
  if ← eat .ellipsis then
    let arg ← up.assign
    return some (.spread (← spanFrom start) arg)
  let token ← peek
  let modified := token.kind == .word && ["get", "set", "async"].contains token.text &&
    startsMemberKey (← ahead 1)
  if modified then discard bump
  accept .star
  match ← up.propKey? with
  | none => return none
  | some key =>
    if ← eat .colon then
      let value ← up.assign
      return some (.keyValue (← spanFrom start) key value)
    let kind := (← peek).kind
    if kind = .openParen || kind = .less then
      let fn ← up.functionTail key.span.start none (modified && token.text == "async")
      return some (.method (← spanFrom start) key fn)
    match key with
    | .ident name =>
      if ← eat .equals then discard up.assign
      return some (.shorthand name)
    | _ => return none

def objectLit : Parse Expr := do
  let start ← startOffset
  discard bump
  let props ← listed do return (← up.objectProp?).toList
  accept .closeBrace
  return .object (← spanFrom start) props

def wordPrimary (token : Token) : Parse Expr := do
  let next ← ahead 1
  let literal (kind : LitKind) : Parse Expr := do
    discard bump
    return .lit ⟨token.span, kind, token.text⟩
  match token.text with
  | "function" => return .fn (← up.function)
  | "class" =>
    let parts ← up.classDecl
    return .other parts.span parts.members
  | "true" => literal (.bool true)
  | "false" => literal (.bool false)
  | "null" => literal .null
  | text =>
    if text == "async" && next.isWord "function" && !next.newlineBefore then
      return .fn (← up.function)
    else if text == "new" && next.kind != .dot then
      discard bump
      let callee ← up.operand
      return .other (← spanFrom token.span.start) [callee]
    else
      discard bump
      return .ident token.ident

def primaryExpr : Parse Expr := do
  let token ← peek
  let start := token.span.start
  match token.kind with
  | .word => up.wordPrimary token
  | .number =>
    discard bump
    return .lit ⟨token.span, .number, token.text⟩
  | .regex =>
    discard bump
    return .lit ⟨token.span, .regex, token.text⟩
  | .string =>
    discard bump
    return .lit ⟨token.span, .string, token.stringLit.value⟩
  | .template =>
    discard bump
    if Text.contains ['$', '\x7b'] token.text.toList then return .other token.span []
    else return .lit ⟨token.span, .template, token.text⟩
  | .openParen =>
    discard bump
    let expr ← up.sequence
    accept .closeParen
    return .paren (← spanFrom start) expr
  | .openBracket => up.arrayLit
  | .openBrace => up.objectLit
  | .hash =>
    discard bump
    if ← isAt .word then discard bump
    let span ← spanFrom start
    return .ident ⟨span, String.ofList (span.text (← read).source)⟩
  | .closeParen | .closeBracket | .closeBrace | .semicolon | .comma | .endOfText =>
    return .other (.empty start) []
  | kind =>
    if kind = .less && (← read).dialect.hasMarkup then
      skipMarkup ((← read).tokens.size - (← get)) 0
      return .other (← spanFrom start) []
    else
      discard bump
      return .other token.span []

def isLeadingSign (text : String) : Bool := ["+", "-", "~", "++", "--"].contains text

def startsOperand (token : Token) : Bool :=
  !([.semicolon, .comma, .closeParen, .closeBracket, .closeBrace, .endOfText, .equals, .dot,
      .questionDot, .arrow, .colon, .question].contains token.kind) &&
    !(token.kind == .operator && !isLeadingSign token.text)

def unaryExpr : Parse Expr := do
  let token ← peek
  let start := token.span.start
  let signed : Parse Expr := do
    discard bump
    let arg ← up.unary
    return .other (← spanFrom start) [arg]
  match token.kind with
  | .word =>
    if token.text == "await" && startsOperand (← ahead 1) then
      discard bump
      let arg ← up.unary
      return .await (← spanFrom start) arg
    else if ["typeof", "void", "delete", "yield"].contains token.text &&
        startsOperand (← ahead 1) then
      discard bump
      accept .star
      let arg ← up.unary
      return .other (← spanFrom start) [arg]
    else up.operand
  | .bang => signed
  | .operator => if isLeadingSign token.text then signed else up.operand
  | .less =>
    if (← read).dialect = .ts then
      skipAngle
      let type : Span := ⟨start, ← endOffset⟩
      let expr ← up.unary
      return .cast (← spanFrom start) .assertion expr (some type)
    else up.operand
  | _ => up.operand

def isAssignment (token : Token) : Bool :=
  match token.kind with
  | .equals | .slashEquals => true
  | .operator =>
    token.text.toList.getLast? == some '=' &&
      !(["==", "===", "!=", "!==", "<=", ">="].contains token.text)
  | _ => false

def isBinaryOperator (token : Token) : Bool :=
  match token.kind with
  | .operator => !(["++", "--", "~"].contains token.text) && !isAssignment token
  | .less | .greater | .star | .slash => true
  | .word => token.text == "instanceof" || token.text == "in"
  | _ => false

/-- What follows an operand: operators with their operands, and casts. -/
def binaryRest (start : Nat) : Nat → Expr → Parse Expr
  | 0, left => return left
  | fuel + 1, left => do
    let token ← peek
    if isBinaryOperator token then
      discard bump
      let right ← up.unary
      binaryRest start fuel (.other (← spanFrom start) [left, right])
    else if (token.isWord "as" || token.isWord "satisfies") && !token.newlineBefore then
      discard bump
      let type ← skipType [.comma, .equals, .question, .colon, .arrow, .operator]
      let kind : CastKind := if token.text == "as" then .as else .satisfies
      binaryRest start fuel (.cast (← spanFrom start) kind left type)
    else return left

def binary : Parse Expr := do
  let start ← startOffset
  let left ← up.unary
  up.binaryRest start ((← read).tokens.size - (← get)) left

def conditional : Parse Expr := do
  let start ← startOffset
  let test ← up.binary
  if ← eat .question then
    let cons ← up.assign
    accept .colon
    let alt ← up.assign
    return .other (← spanFrom start) [test, cons, alt]
  else return test

def arrowParams : Parse (List Pat) := do
  if ← isAt .word then return [.ident (← bump).ident none]
  if ← isAt .less then skipAngle
  let params ← up.params
  if ← eat .colon then discard (skipType [.arrow])
  return params

def arrow (isAsync : Bool) : Parse Expr := do
  let start ← startOffset
  if isAsync then discard bump
  let params ← up.arrowParams
  accept .arrow
  let body ← if ← isAt .openBrace then up.blockBody else FnBody.expr <$> up.assign
  return .fn ⟨← spanFrom start, none, isAsync, true, params, body⟩

def assignExpr : Parse Expr := do
  let input ← read
  let index ← get
  let isAsync := (input.tokenAt index).isWord "async" &&
    !(input.tokenAt (index + 1)).newlineBefore && input.arrowAt (index + 1)
  if isAsync || input.arrowAt index then up.arrow isAsync
  else
    let start ← startOffset
    let left ← up.conditional
    if isAssignment (← peek) then
      discard bump
      let right ← up.assign
      return .other (← spanFrom start) [left, right]
    else return left

end Level
end SfcTsx.Script.Tolerant
