import SfcTsx.Markup.Error
import SfcTsx.Markup.Token

namespace SfcTsx.Markup

structure Value where
  content : Text
  span : Span
deriving DecidableEq, Repr

structure RawAttr where
  name : String
  nameSpan : Span
  value : Option Value
  span : Span
deriving Repr

structure StartTag where
  name : String
  nameSpan : Span
  attrs : List RawAttr
  span : Span
  selfClosing : Bool
deriving Repr

namespace StartTag

/-- The name stands at the start of the text, and no longer name does. -/
def hasName (name text : Text) : Bool :=
  match Text.after? name text with
  | some [] => true
  | some (c :: _) => Text.isTagSpace c || c == '>' || c == '/'
  | none => false

/-- The tokens that belong to a value without quotes, behind its first one: its text and what
follows. -/
def gluedFrom : Nat → Nat → Text → Text × Text
  | 0, _, rest => ([], rest)
  | fuel + 1, offset, rest =>
    let (token, after) := Token.next offset rest
    if token.span.start = offset && (token.kind = .name || token.kind = .slash) then
      let (more, rest) := gluedFrom fuel token.span.stop after
      (token.text ++ more, rest)
    else ([], rest)

def scanValue (name : Token) (equals : Token) (rest : Text) :
    Except ParseError (Value × Nat × Text) :=
  let (token, after) := Token.next equals.span.stop rest
  match token.kind with
  | .quoted =>
    .ok (⟨(token.text.drop 1).dropLast, ⟨token.span.start + 1, token.span.stop - 1⟩⟩,
      token.span.stop, after)
  | .name | .slash =>
    let (more, after) := gluedFrom after.length token.span.stop after
    let text := token.text ++ more
    let stop := token.span.start + Text.size text
    .ok (⟨text, ⟨token.span.start, stop⟩⟩, stop, after)
  | _ =>
    .error ⟨.invalidAttribute ("missing value for `" ++ String.ofList name.text ++ "`"), equals.span⟩

def scanAttr (name : Token) (rest : Text) : Except ParseError (RawAttr × Nat × Text) :=
  let (token, after) := Token.next name.span.stop rest
  if token.kind = .equals then do
    let (value, stop, rest) ← scanValue name token after
    return (⟨String.ofList name.text, name.span, some value, ⟨name.span.start, stop⟩⟩, stop, rest)
  else .ok (⟨String.ofList name.text, name.span, none, name.span⟩, name.span.stop, rest)

/-- The attributes of a tag that began at `start`, up to and with its last token. -/
def scanAttrs (start : Nat) (tag : String) : Nat → Nat → Text → Except ParseError (List RawAttr × Token)
  | 0, offset, _ => .error ⟨.unterminatedStartTag tag, ⟨start, offset⟩⟩
  | fuel + 1, offset, rest =>
    let (token, after) := Token.next offset rest
    match token.kind with
    | .closeAngle | .slashCloseAngle => .ok ([], token)
    | .name => do
      let (attr, stop, rest) ← scanAttr token after
      let (attrs, last) ← scanAttrs start tag fuel stop rest
      return (attr :: attrs, last)
    | .slash => scanAttrs start tag fuel token.span.stop after
    | .equals | .quoted =>
      .error ⟨.invalidAttribute ("unexpected " ++ token.kind.describe), token.span⟩
    | .openAngle | .openAngleSlash | .endOfText | .invalid =>
      .error ⟨.unterminatedStartTag tag, ⟨start, token.span.start⟩⟩

def scan (offset : Nat) (text : Text) : Except ParseError StartTag :=
  let (first, rest) := Token.next offset text
  if first.kind ≠ .openAngle then
    .error ⟨.unexpectedToken TokenKind.openAngle.describe first.kind.describe, first.span⟩
  else
    let (name, rest) := Token.next first.span.stop rest
    let tag := String.ofList name.text
    let startsWithLetter := (name.text.head?.map Char.isAlpha).getD false
    if name.kind ≠ .name || name.span.start ≠ first.span.stop || !startsWithLetter then
      .error ⟨.invalidTagName tag, name.span⟩
    else do
      let (attrs, last) ←
        scanAttrs first.span.start tag (rest.length + 1) name.span.stop rest
      return {
        name := tag
        nameSpan := name.span
        attrs
        span := ⟨first.span.start, last.span.stop⟩
        selfClosing := last.kind = .slashCloseAngle }

end StartTag
end SfcTsx.Markup
