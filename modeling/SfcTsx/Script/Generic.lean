import SfcTsx.Script.Grammar
import SfcTsx.Script.Token

namespace SfcTsx.Script

structure Generics where
  source : Text
  names : List String
  marker : Text
  declaration : Text
  position : Span

namespace Generics

def isOpening : TokenKind → Bool
  | .openParen | .openBracket | .openBrace | .less => true
  | _ => false

def isClosing : TokenKind → Bool
  | .closeParen | .closeBracket | .closeBrace | .greater => true
  | _ => false

def depthAfter (depth : Nat) (token : Token) : Nat :=
  if isOpening token.kind then depth + 1 else if isClosing token.kind then depth - 1 else depth

/-- The tokens of each parameter, after the tokens of one in reverse: a comma outside of brackets ends
a parameter, and so does the end. -/
def splitFrom : (depth : Nat) → (current : List Token) → List Token → List (List Token)
  | _, _, [] => []
  | depth, current, token :: rest =>
    if depth = 0 && (token.kind = .comma || token.kind = .endOfText) then
      current.reverse :: splitFrom depth [] rest
    else splitFrom (depthAfter depth token) (token :: current) rest

def params (tokens : List Token) : List (List Token) :=
  (splitFrom 0 [] tokens).filter (!·.isEmpty)

/-- The name of a parameter from the words at its start: the first that is no modifier, or the last. -/
def nameOf : List Token → Option String
  | [] => none
  | [token] => some token.text
  | token :: rest =>
    if ["const", "in", "out"].contains token.text then nameOf rest else some token.text

def paramName? (param : List Token) : Option String :=
  nameOf (param.takeWhile (·.kind = .word))

def hasDefaultFrom : (depth : Nat) → List Token → Bool
  | _, [] => false
  | depth, token :: rest =>
    (depth = 0 && token.kind = .equals) || hasDefaultFrom (depthAfter depth token) rest

/-- A word between two tokens is the name of a member and no reference. -/
def isMemberName (previous next : Option TokenKind) : Bool :=
  match previous with
  | some .dot | some .questionDot => true
  | some .openBrace | some .semicolon | some .comma => next = some .colon || next = some .question
  | _ => false

/-- The text of a parameter from `cursor` on, with the marker in front of each reference. -/
def markFrom (source marker : Text) (names : List String) :
    (cursor : Nat) → (previous : Option TokenKind) → List Token → Text
  | _, _, [] => []
  | cursor, previous, token :: rest =>
    let upTo := source.slice cursor token.span.start
    let next := rest.head?.map Token.kind
    let isReference := token.kind = .word && names.contains token.text &&
      !isMemberName previous next
    upTo ++ (if isReference then marker else []) ++ token.text.toList ++
      markFrom source marker names token.span.stop (some token.kind) rest

/-- A parameter of a declaration; one without a default gets `any`. -/
def declareParam (source marker : Text) (names : List String) (param : List Token) : Text :=
  let start := (param.head?.map (·.span.start)).getD 0
  markFrom source marker names start none param ++
    (if hasDefaultFrom 0 param then [] else (" = any" : String))

/-- Reads type parameters that are written at `position`, if the grammar takes them for some. -/
def parse? (source : Text) (position : Span) (marker : Text) : Option Generics := do
  let _ ← Grammar.parse? .ts (("type X<" : String) ++ source ++ ("> = \x7b\x7d" : String))
  let params := params (Token.tokenize source)
  let names := params.filterMap paramName?
  let declared := params.map (declareParam source marker names)
  return {
    source, names, marker, position
    declaration := ['<'] ++ Text.join (", " : String) declared ++ ['>'] }

def markedNames (g : Generics) : List Text := g.names.map fun name => g.marker ++ name.toList

def arguments (g : Generics) : Text :=
  ['<'] ++ Text.join (", " : String) g.markedNames ++ ['>']

end Generics
end SfcTsx.Script
