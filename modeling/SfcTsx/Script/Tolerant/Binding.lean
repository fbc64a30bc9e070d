import SfcTsx.Script.Tolerant.Level

namespace SfcTsx.Script.Tolerant.Level

variable (up : Level)

def propKey? : Parse (Option PropKey) := do
  let token ← peek
  match token.kind with
  | .word =>
    discard bump
    return some (.ident token.ident)
  | .hash =>
    discard bump
    let name ← bump
    return some (.ident ⟨← spanFrom token.span.start, name.text⟩)
  | .string =>
    discard bump
    return some (.string token.stringLit)
  | .number =>
    discard bump
    return some (.number ⟨token.span, .number, token.text⟩)
  | .openBracket =>
    discard bump
    let expr ← up.assign
    unless ← eat .closeBracket do
      discard (skipType [])
      accept .closeBracket
    return some (.computed expr)
  | _ => return none

def patType : Parse (Option Span) := do
  accept .question
  if ← eat .colon then skipType [.equals, .comma] else return none

def patWithDefault : Parse Pat := do
  let start ← startOffset
  let pat ← up.bindingPat
  if ← eat .equals then
    let right ← up.assign
    return .assign (← spanFrom start) pat right
  else return pat

def patProp? : Parse (Option PatProp) := do
  let start ← startOffset
  if ← eat .ellipsis then
    let arg ← up.bindingPat
    return some (.rest (← spanFrom start) arg)
  match ← up.propKey? with
  | none => return none
  | some key =>
    if ← eat .colon then
      let value ← up.patWithDefault
      return some (.keyValue (← spanFrom start) key value)
    match key with
    | .ident name =>
      let value ← if ← eat .equals then some <$> up.assign else pure none
      return some (.shorthand (← spanFrom start) name value)
    | _ => return none

def objectPat (start : Nat) : Parse Pat := do
  discard bump
  let props ← listed do return (← up.patProp?).toList
  accept .closeBrace
  let span ← spanFrom start
  return .object span props (← patType)

/-- Items of an array up to a closing bracket: a comma in front of an item is a hole. -/
def elements {α : Type} (item : Parse α) : Parse (List (Option α)) :=
  repeatUntil isAtCloser do
    if ← eat .comma then return [none]
    advancing do
      let elem ← item
      accept .comma
      return [some elem]

def arrayPat (start : Nat) : Parse Pat := do
  discard bump
  let elems ← elements up.patWithDefault
  accept .closeBracket
  let span ← spanFrom start
  return .array span elems (← patType)

def pattern : Parse Pat := do
  let token ← peek
  let start := token.span.start
  match token.kind with
  | .word =>
    discard bump
    return .ident token.ident (← patType)
  | .openBrace => up.objectPat start
  | .openBracket => up.arrayPat start
  | .ellipsis =>
    discard bump
    let arg ← up.bindingPat
    return .rest (← spanFrom start) arg
  | kind =>
    unless (← isAtCloser) || kind = .equals || kind = .comma do discard bump
    return .invalid token.span

/-- Takes the words that declare a parameter as a property. -/
def skipParamModifiers : Parse Unit := do
  let stop : Parse Bool := do
    let next := (← ahead 1).kind
    return !(["public", "private", "protected", "readonly", "override"].contains (← peek).text &&
      (next == .word || next == .openBrace || next == .openBracket))
  discard <| repeatUntil stop do
    discard bump
    return ([] : List Unit)

def params : Parse (List Pat) := do
  discard bump
  let params ← listed do
    up.decorators
    skipParamModifiers
    return [← up.patWithDefault]
  accept .closeParen
  return params

def functionTail (start : Nat) (ident : Option Ident) (isAsync : Bool) : Parse Fn := do
  if ← isAt .less then skipAngle
  let params ← if ← isAt .openParen then up.params else pure []
  if ← eat .colon then discard (skipType [.openBrace])
  let body ← if ← isAt .openBrace then up.blockBody
    else do
      accept .semicolon
      pure FnBody.none
  return ⟨← spanFrom start, ident, isAsync, false, params, body⟩

def function : Parse Fn := do
  let start ← startOffset
  let isAsync ← eatWord "async"
  discard bump
  accept .star
  let ident ← if ← isAt .word then (some ·.ident) <$> bump else pure none
  up.functionTail start ident isAsync

def startsMemberKey (token : Token) : Bool :=
  !token.newlineBefore &&
    [.word, .string, .number, .openBracket, .hash, .star].contains token.kind

/-- Takes the modifiers of a class member, and tells whether `async` is one of them. -/
def skipMemberModifiers : Parse Bool := do
  let stop : Parse Bool := do
    let token ← peek
    return !(token.kind == .word &&
      ["static", "public", "private", "protected", "readonly", "abstract", "override", "declare",
        "async", "get", "set", "accessor"].contains token.text && startsMemberKey (← ahead 1))
  let words ← repeatUntil stop do return [(← bump).text]
  return words.contains "async"

def classMember : Parse (List Expr) := do
  let start ← startOffset
  up.decorators
  if (← isAtWord "static") && (← ahead 1).kind = .openBrace then
    discard bump
    let body ← up.blockBody
    return [.fn ⟨← spanFrom start, none, false, false, [], body⟩]
  let isAsync ← skipMemberModifiers
  accept .star
  discard up.propKey?
  accept .question
  accept .bang
  let kind := (← peek).kind
  if kind = .openParen || kind = .less then return [.fn (← up.functionTail start none isAsync)]
  if ← eat .colon then discard (skipType [.equals])
  let value ← if ← eat .equals then List.singleton <$> up.assign else pure []
  accept .semicolon
  return value

def classBody : Parse (List Expr) := do
  discard bump
  let members ← repeatUntil isAtCloser (advancing up.classMember)
  accept .closeBrace
  return members

structure ClassParts where
  span : Span
  ident : Option Ident
  members : List Expr

def classDecl : Parse ClassParts := do
  let start ← startOffset
  discard (eatWord "abstract")
  discard bump
  let token ← peek
  let ident ←
    if token.kind = .word && token.text ≠ "extends" && token.text ≠ "implements" then do
      discard bump
      pure (some token.ident)
    else pure none
  if ← isAt .less then skipAngle
  let base ← if ← eatWord "extends" then List.singleton <$> up.operand else pure []
  unless ← isAt .openBrace do discard (skipType [.openBrace])
  let members ← if ← isAt .openBrace then up.classBody else pure []
  return ⟨← spanFrom start, ident, base ++ members⟩

end SfcTsx.Script.Tolerant.Level
