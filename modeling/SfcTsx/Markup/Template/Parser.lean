import SfcTsx.Markup.Directive

namespace SfcTsx.Markup

def voidElements : List String :=
  ["area", "base", "br", "col", "embed", "hr", "img", "input", "link", "meta", "param", "source",
   "track", "wbr"]

def isVoidElement (name : String) : Bool := voidElements.contains name.toLower

/-- The content of these is text, whatever stands in it. -/
def isRawElement (name : String) : Bool := name == "script" || name == "style"

namespace Template

def startsTag (text : Text) : Bool :=
  match text with
  | '<' :: c :: _ => c.isAlpha
  | _ => false

def closingTag? (offset : Nat) (text : Text) : Option (Text × Span) := do
  let rest ← Text.after? ("</" : String) text
  let name := rest.takeWhile fun c => !(Text.isTagSpace c || c == '>')
  if name.isEmpty then none
  else
    let after := rest.drop name.length
    let blank := after.takeWhile Text.isTagSpace
    match after.drop blank.length with
    | '>' :: _ => some (name, ⟨offset, offset + 2 + Text.size name + Text.size blank + 1⟩)
    | _ => none

def endsText (text : Text) : Bool :=
  ["\x7b\x7b", "<!--", "</"].any (fun start => start.toList.isPrefixOf text) || startsTag text

/-- The number of characters of the text that begins here: the first one belongs to it in any case. -/
def textLength : Text → Nat
  | [] => 0
  | _ :: cs => 1 + more cs
where
  more : Text → Nat
    | [] => 0
    | c :: cs => if endsText (c :: cs) then 0 else 1 + more cs

/-- What is read and where it ends. -/
structure Piece where
  node : Node
  stop : Nat
  rest : Text
  errors : List ParseError

/-- A stretch that goes from a mark to another: its text, where it ends, what follows, and whether the
second mark was missing. -/
def delimited (mark : Text) (offset : Nat) (text : Text) : Text × Nat × Text × Bool :=
  match Text.cutAt? mark text with
  | some (body, rest) =>
    (body, offset + Text.size body + Text.size mark, rest.drop mark.length, false)
  | none => (text, offset + Text.size text, [], true)

def comment (start : Nat) (text : Text) : Piece :=
  let (body, stop, rest, missing) := delimited ("-->" : String) (start + 4) text
  ⟨.comment ⟨start, stop⟩ body, stop, rest, if missing then [⟨.unclosedComment, ⟨start, stop⟩⟩] else []⟩

def interpolation (start : Nat) (text : Text) : Piece :=
  let (body, stop, rest, missing) := delimited ("\x7d\x7d" : String) (start + 2) text
  let span : Span := ⟨start, stop⟩
  ⟨.interpolation span ⟨body, ⟨start + 2, start + 2 + Text.size body⟩⟩, stop, rest,
    if missing then [⟨.unclosedInterpolation, span⟩] else []⟩

def textNode (start n : Nat) (text : Text) : Piece :=
  let data := text.take n
  let stop := start + Text.size data
  ⟨.text ⟨start, stop⟩ data, stop, text.drop n, []⟩

def attrs : List Attr → List RawAttr → List Attr × List ParseError
  | seen, [] => (seen, [])
  | seen, a :: rest =>
    if seen.any (·.rawName = a.name) then
      let (found, errors) := attrs seen rest
      (found, ⟨.duplicateAttribute a.name, a.span⟩ :: errors)
    else attrs (seen ++ [.ofRaw a]) rest

/-- Nodes, where they end, what follows, and what is wrong. -/
abbrev Run := List Node × Nat × Text × List ParseError

/-- The start tag that begins here. It is read with the text behind the template, which it must not
reach into. -/
def startTag (after : Text) (offset : Nat) (text : Text) : Except ParseError StartTag := do
  let tag ← StartTag.scan offset (text ++ after)
  let stop := offset + Text.size text
  if tag.span.stop ≤ stop then return tag
  else throw ⟨.unterminatedStartTag tag.name, ⟨offset, stop⟩⟩

def rawChildren (name : String) (offset : Nat) (text : Text) : Run :=
  let body := match Text.cutAt? ("</" ++ name) text with
    | some (body, _) => body
    | none => text
  if body.isEmpty then ([], offset, text, [])
  else
    let piece := textNode offset body.length text
    ([piece.node], piece.stop, piece.rest, [])

/-- The element of a start tag, from its children on: its closing tag, or that it is missing. -/
def finish (tag : StartTag) (attrs : List Attr) (errors : List ParseError) (children : Run) : Piece :=
  let (nodes, stop, rest, more) := children
  let element (close : Option Span) (stop : Nat) : Node :=
    .element
      { span := ⟨tag.span.start, stop⟩, name := tag.name, nameSpan := tag.nameSpan
        startTag := tag.span, closeTag := close, attrs, selfClosing := false } nodes
  match closingTag? stop rest with
  | some (name, span) =>
    if name = tag.name.toList then
      ⟨element (some span) span.stop, span.stop, (Text.drop? span.len rest).getD [],
        errors ++ more⟩
    else ⟨element none stop, stop, rest, errors ++ more ++ [⟨.unclosedTag tag.name, tag.span⟩]⟩
  | none => ⟨element none stop, stop, rest, errors ++ more ++ [⟨.unclosedTag tag.name, tag.span⟩]⟩

def childless (tag : StartTag) (attrs : List Attr) (errors : List ParseError) (rest : Text) : Piece :=
  ⟨.element
      { span := tag.span, name := tag.name, nameSpan := tag.nameSpan, startTag := tag.span
        closeTag := none, attrs, selfClosing := true } [],
    tag.span.stop, rest, errors⟩

/-- The nodes up to the end or to the closing tag of an element of the stack. -/
def nodesFrom (after : Text) : Nat → (stack : List String) → Nat → Text → Run
  | 0, _, offset, text => ([], offset, text, [])
  | _, _, offset, [] => ([], offset, [], [])
  | fuel + 1, stack, offset, c :: cs =>
    let text := c :: cs
    let go (piece : Piece) (before : List ParseError) : Run :=
      let (nodes, stop, rest, errors) := nodesFrom after fuel stack piece.stop piece.rest
      (piece.node :: nodes, stop, rest, before ++ piece.errors ++ errors)
    let plain (before : List ParseError) : Run := go (textNode offset (textLength text) text) before
    if let some body := Text.after? ("<!--" : String) text then go (comment offset body) []
    else if let some (name, span) := closingTag? offset text then
      if stack.contains (String.ofList name) then ([], offset, text, [])
      else
        let (nodes, stop, rest, errors) :=
          nodesFrom after fuel stack span.stop ((Text.drop? span.len text).getD [])
        (nodes, stop, rest, ⟨.strayClosingTag (String.ofList name), span⟩ :: errors)
    else if startsTag text then
      match startTag after offset text with
      | .error e => plain [e]
      | .ok tag =>
        let rest := (Text.drop? tag.span.len text).getD []
        let (attrs, errors) := attrs [] tag.attrs
        if tag.selfClosing || isVoidElement tag.name then go (childless tag attrs errors rest) []
        else if isRawElement tag.name then
          go (finish tag attrs errors (rawChildren tag.name tag.span.stop rest)) []
        else
          go (finish tag attrs errors (nodesFrom after fuel (tag.name :: stack) tag.span.stop rest)) []
    else if let some body := Text.after? ("\x7b\x7b" : String) text then
      go (interpolation offset body) []
    else plain []

def parse (source : Text) (content : Span) : Template × List ParseError :=
  let stop := min content.stop source.size
  let start := min content.start stop
  let text := source.slice start stop
  let after := (source.drop? stop).getD []
  let (nodes, _, _, errors) := nodesFrom after (text.length + 1) [] start text
  ({ nodes, span := ⟨start, stop⟩ }, errors)

end Template
end SfcTsx.Markup
