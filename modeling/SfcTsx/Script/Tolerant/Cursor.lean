import SfcTsx.Script.Token
import SfcTsx.Script.Tree

namespace SfcTsx.Script

namespace Token

def isWord (token : Token) (word : String) : Bool := token.kind == .word && token.text == word

def ident (token : Token) : Ident := ⟨token.span, token.text⟩

def stringLit (token : Token) : StringLit :=
  ⟨token.span, String.ofList (unquote token.text.toList)⟩

end Token

namespace Tolerant

structure Input where
  dialect : Dialect
  source : Text
  tokens : Array Token

abbrev Parse := ReaderT Input (StateM Nat)

namespace Input

def ofText (dialect : Dialect) (source : Text) : Input :=
  { dialect, source, tokens := (Token.tokenize source).toArray }

def last (input : Input) : Nat := input.tokens.size - 1

/-- The token at an index; past the last token that one again. -/
def tokenAt (input : Input) (index : Nat) : Token :=
  input.tokens.getD (min index input.last) default

def endBefore (input : Input) (index : Nat) : Nat :=
  match index with
  | 0 => 0
  | previous + 1 => (input.tokenAt previous).span.stop

/-- The index of the token that closes the bracket at `index`, if `depth` brackets are open. -/
def matchingFrom (input : Input) : Nat → Nat → Nat → Option Nat
  | 0, _, _ => none
  | fuel + 1, depth, index =>
    let kind := (input.tokenAt index).kind
    if Token.isOpener kind then matchingFrom input fuel (depth + 1) (index + 1)
    else if Token.isCloser kind then
      match depth with
      | 0 => none
      | 1 => some index
      | depth + 1 => matchingFrom input fuel depth (index + 1)
    else if kind = .endOfText then none
    else matchingFrom input fuel depth (index + 1)

def matching (input : Input) (index : Nat) : Option Nat :=
  input.matchingFrom (input.tokens.size - index) 0 index

/-- The index of the `>` that closes an angle bracket, if `angles` of them and `nest` other brackets
are open. With `typeLike`, an operator that no type argument holds ends the search. -/
def matchingAngleFrom (input : Input) (typeLike : Bool) : Nat → Nat → Nat → Nat → Option Nat
  | 0, _, _, _ => none
  | fuel + 1, angles, nest, index =>
    let token := input.tokenAt index
    let go := matchingAngleFrom input typeLike fuel
    if token.kind = .less then go (angles + 1) nest (index + 1)
    else if token.kind = .greater then
      match angles with
      | 0 => none
      | 1 => some index
      | angles + 1 => go angles nest (index + 1)
    else if Token.isOpener token.kind then go angles (nest + 1) (index + 1)
    else if Token.isCloser token.kind then
      match nest with
      | 0 => none
      | nest + 1 => go angles nest (index + 1)
    else if token.kind = .semicolon && nest = 0 then none
    else if token.kind = .operator && typeLike && token.text ≠ "|" && token.text ≠ "&" then none
    else if token.kind = .endOfText then none
    else go angles nest (index + 1)

def matchingAngle (input : Input) (index : Nat) (typeLike : Bool) : Option Nat :=
  input.matchingAngleFrom typeLike (input.tokens.size - index) 0 0 index

/-- A line break in front of the token at `index` ends the type before it. -/
def lineEndsType (input : Input) (index : Nat) : Bool :=
  let next := input.tokenAt index
  let previousEnds := match (input.tokenAt (index - 1)).kind with
    | .word | .string | .number | .template | .closeParen | .closeBracket | .closeBrace
    | .greater => true
    | _ => false
  let nextStarts := match next.kind with
    | .word => !(["extends", "is", "as", "satisfies", "infer", "keyof"].contains next.text)
    | .string | .number | .template | .at | .hash => true
    | _ => false
  previousEnds && nextStarts

/-- A type that is open in no bracket ends in front of the token at `index`. -/
def typeEndsAt (input : Input) (stops : List TokenKind) (first index : Nat) : Bool :=
  let token := input.tokenAt index
  if Token.isCloser token.kind || token.kind = .semicolon || token.kind = .greater then true
  else
    first < index &&
      (stops.contains token.kind &&
          !(token.kind = .operator && (token.text = "|" || token.text = "&")) ||
        token.newlineBefore && input.lineEndsType index)

def typeEndFrom (input : Input) (stops : List TokenKind) (first : Nat) :
    Nat → Nat → Nat → Nat → Nat
  | 0, _, _, index => index
  | fuel + 1, nest, angles, index =>
    let kind := (input.tokenAt index).kind
    let go := typeEndFrom input stops first fuel
    if kind = .endOfText then index
    else if nest = 0 && angles = 0 && input.typeEndsAt stops first index then index
    else if Token.isOpener kind then go (nest + 1) angles (index + 1)
    else if Token.isCloser kind then go (nest - 1) angles (index + 1)
    else if kind = .less then go nest (angles + 1) (index + 1)
    else if kind = .greater then go nest (angles - 1) (index + 1)
    else go nest angles (index + 1)

def typeEnd (input : Input) (stops : List TokenKind) (index : Nat) : Nat :=
  input.typeEndFrom stops index (input.tokens.size - index) 0 0 index

/-- The word begins a new statement even if a bracket is still open. -/
def startsDeclaration (token : Token) : Bool :=
  token.kind = .word &&
    ["import", "export", "const", "let", "var", "function", "class"].contains token.text

/-- The index of the token after a statement that began at `first`, its semicolon included. -/
def stmtEndFrom (input : Input) (first : Nat) : Nat → Nat → Nat → Nat
  | 0, _, index => index
  | fuel + 1, depth, index =>
    let token := input.tokenAt index
    let go := stmtEndFrom input first fuel
    if token.kind = .endOfText then index
    else if token.kind = .semicolon && depth = 0 then index + 1
    else if token.kind = .closeBrace && depth = 0 then index
    else if token.newlineBefore && first < index && (depth = 0 || startsDeclaration token) then
      index
    else if Token.isOpener token.kind then go (depth + 1) (index + 1)
    else if Token.isCloser token.kind then go (depth - 1) (index + 1)
    else go depth (index + 1)

def stmtEnd (input : Input) (index : Nat) : Nat :=
  input.stmtEndFrom index (input.tokens.size - index) 0 index

end Input

def peek : Parse Token := return (← read).tokenAt (← get)

def ahead (n : Nat) : Parse Token := return (← read).tokenAt ((← get) + n)

def isAt (kind : TokenKind) : Parse Bool := return (← peek).kind == kind

def isAtWord (word : String) : Parse Bool := return (← peek).isWord word

/-- Takes a token; the end of the text stays. -/
def bump : Parse Token := do
  let token ← peek
  unless token.kind = .endOfText do modify (· + 1)
  return token

def eat (kind : TokenKind) : Parse Bool := do
  if ← isAt kind then
    discard bump
    return true
  else return false

def eatWord (word : String) : Parse Bool := do
  if ← isAtWord word then
    discard bump
    return true
  else return false

def accept (kind : TokenKind) : Parse Unit := discard (eat kind)

def startOffset : Parse Nat := return (← peek).span.start

def endOffset : Parse Nat := return (← read).endBefore (← get)

def spanFrom (start : Nat) : Parse Span := return ⟨start, max (← endOffset) start⟩

def isAtCloser : Parse Bool := do
  let kind := (← peek).kind
  return Token.isCloser kind || kind == .endOfText

def isAtStmtEnd : Parse Bool := do
  let token ← peek
  return token.kind == .semicolon || token.kind == .closeBrace || token.kind == .endOfText ||
    token.newlineBefore

/-- Takes a bracket with all it holds, up to the end of the text if it is not closed. -/
def skipBalanced : Parse Unit := do
  let input ← read
  match input.matching (← get) with
  | some close => set (close + 1)
  | none => set input.last

/-- Takes an angle bracket with all it holds, or the one token if it is not closed. -/
def skipAngle : Parse Unit := do
  match (← read).matchingAngle (← get) false with
  | some close => set (close + 1)
  | none => discard bump

/-- Takes a type, up to one of `stops` or what else ends a type; `none` if there is none. -/
def skipType (stops : List TokenKind) : Parse (Option Span) := do
  let first ← get
  let start ← startOffset
  let stop := (← read).typeEnd stops first
  if first < stop then
    set stop
    return some (← spanFrom start)
  else return none

def skipStmt : Parse Unit := do
  let input ← read
  modify input.stmtEnd

/-- Takes one token, unless it closes an enclosing bracket, and gives its span. -/
def skipOperand : Parse Span := do
  let token ← peek
  unless ← isAtCloser do discard bump
  return token.span

/-- Runs `item` until `stop` holds, at most `fuel` times, and joins the results. -/
def repeatFor {α : Type} (stop : Parse Bool) (item : Parse (List α)) : Nat → Parse (List α)
  | 0 => return []
  | fuel + 1 => do
    if ← stop then return []
    let first ← item
    return first ++ (← repeatFor stop item fuel)

/-- Runs `item` until `stop` holds. Every run takes a token, so the number of tokens left bounds the
number of runs. -/
def repeatUntil {α : Type} (stop : Parse Bool) (item : Parse (List α)) : Parse (List α) := do
  repeatFor stop item ((← read).tokens.size - (← get))

/-- Runs `item`, and takes a token if that took none. -/
def advancing {α : Type} (item : Parse α) : Parse α := do
  let before ← get
  let result ← item
  if (← get) = before then discard bump
  return result

def listed {α : Type} (item : Parse (List α)) : Parse (List α) :=
  repeatUntil isAtCloser (advancing do
    let result ← item
    accept .comma
    return result)

end Tolerant
end SfcTsx.Script
