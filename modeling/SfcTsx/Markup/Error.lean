import SfcTsx.Span

namespace SfcTsx.Markup

inductive ErrorKind where
  | unexpectedToken (expected found : String)
  | unclosedBlock (tag : String)
  | duplicateBlock (tag : String)
  /-- A start tag runs into the end or into another tag. -/
  | unterminatedStartTag (tag : String)
  | unclosedTag (tag : String)
  | strayClosingTag (tag : String)
  | unclosedComment
  | unclosedInterpolation
  | invalidAttribute (message : String)
  | duplicateAttribute (name : String)
  | invalidTagName (name : String)
deriving DecidableEq, Repr

def ErrorKind.message : ErrorKind → String
  | .unexpectedToken expected found => s!"unexpected token: expected {expected}, found {found}"
  | .unclosedBlock tag => s!"unclosed block: <{tag}> has no matching </{tag}>"
  | .duplicateBlock tag => s!"duplicate block: <{tag}>"
  | .unterminatedStartTag tag => s!"unterminated start tag: <{tag}"
  | .unclosedTag tag => s!"unclosed tag: <{tag}>"
  | .strayClosingTag tag => s!"unexpected closing tag: </{tag}>"
  | .unclosedComment => "unclosed comment"
  | .unclosedInterpolation => "unclosed interpolation: missing `\x7d\x7d`"
  | .invalidAttribute message => s!"invalid attribute: {message}"
  | .duplicateAttribute name => s!"duplicate attribute: {name}"
  | .invalidTagName name => s!"invalid tag name: {name}"

structure ParseError where
  kind : ErrorKind
  span : Span
deriving DecidableEq, Repr

def ParseError.message (e : ParseError) : String := e.kind.message

end SfcTsx.Markup
