import SfcTsx.Span
import SfcTsx.Text.Space

namespace SfcTsx.Markup

inductive TokenKind where
  | openAngle
  | openAngleSlash
  | closeAngle
  | slashCloseAngle
  | equals
  /-- A value in quotes, which may hold anything but its quote. -/
  | quoted
  /-- A tag name, attribute name or piece of a value without quotes. -/
  | name
  | slash
  | endOfText
  /-- A quote that nothing closes, with all that follows. -/
  | invalid
deriving DecidableEq, Repr

namespace TokenKind

def describe : TokenKind → String
  | .openAngle => "'<'"
  | .openAngleSlash => "'</'"
  | .closeAngle => "'>'"
  | .slashCloseAngle => "'/>'"
  | .equals => "'='"
  | .quoted => "quoted value"
  | .name => "name"
  | .slash => "'/'"
  | .endOfText => "end of file"
  | .invalid => "invalid token"

def closesTag : TokenKind → Bool
  | .closeAngle | .slashCloseAngle => true
  | _ => false

end TokenKind

structure Token where
  kind : TokenKind
  text : Text
  span : Span
deriving Repr

namespace Token

def isNameChar (c : Char) : Bool :=
  !(Text.isTagSpace c || c == '"' || c == '\'' || c == '<' || c == '>' || c == '=' || c == '/')

def classify : Text → TokenKind × Nat
  | [] => (.endOfText, 0)
  | '<' :: '/' :: _ => (.openAngleSlash, 2)
  | '<' :: _ => (.openAngle, 1)
  | '>' :: _ => (.closeAngle, 1)
  | '/' :: '>' :: _ => (.slashCloseAngle, 2)
  | '/' :: _ => (.slash, 1)
  | '=' :: _ => (.equals, 1)
  | c :: cs =>
    if c == '"' || c == '\'' then
      let value := cs.takeWhile (· != c)
      if value.length < cs.length then (.quoted, value.length + 2) else (.invalid, cs.length + 1)
    else (.name, 1 + (cs.takeWhile isNameChar).length)

def next (offset : Nat) (text : Text) : Token × Text :=
  let blank := text.takeWhile Text.isTagSpace
  let here := text.drop blank.length
  let (kind, n) := classify here
  let start := offset + Text.size blank
  (⟨kind, here.take n, ⟨start, start + Text.size (here.take n)⟩⟩, here.drop n)

def tokensFrom : Nat → Nat → Text → List Token
  | 0, _, _ => []
  | fuel + 1, offset, text =>
    let (token, rest) := next offset text
    if token.kind = .endOfText then [token] else token :: tokensFrom fuel token.span.stop rest

def tokenize (offset : Nat) (text : Text) : List Token := tokensFrom (text.length + 1) offset text

end Token
end SfcTsx.Markup
