import SfcTsx.Markup.Block
import SfcTsx.Text.Category

namespace SfcTsx.Markup

structure RawBlock where
  tag : String
  content : Span
  close : Span

namespace RawBlock

def overlaps (b : RawBlock) (s : Span) : Bool := s.start < b.close.stop && b.content.start ≤ s.stop

def covers (b : RawBlock) (offset : Nat) : Bool :=
  b.content.start ≤ offset && offset < b.close.stop

end RawBlock

/-- The content and closing tag of the block whose start tag ends at `stop`, and what is wrong. -/
def blockExtent (tag : StartTag) (rest : Text) : Span × Span × List ParseError :=
  let stop := tag.span.stop
  let name := tag.name.toList
  let close :=
    if (BlockKind.ofTag tag.name).isRaw then rawClose? name stop rest
    else nestedClose? name stop rest
  match close with
  | some close => (⟨stop, close.start⟩, close, [])
  | none =>
    let boundary := boundary stop rest
    (⟨stop, boundary⟩, .empty boundary, [⟨.unclosedBlock tag.name, .empty boundary⟩])

/-- The blocks with content in the text at an offset, and what is wrong. A block with a `src` counts
without content too. -/
def scanBlocks : Nat → Nat → Text → List RawBlock × List ParseError
  | 0, _, _ => ([], [])
  | fuel + 1, offset, text =>
    let front := text.takeWhile (· != '<')
    let start := offset + Text.size front
    match text.drop front.length with
    | [] => ([], [])
    | c :: rest =>
      match Text.after? ("<!--" : String) (c :: rest) with
      | some body =>
        let (stop, rest) := afterComment (start + 4) body
        scanBlocks fuel stop rest
      | none =>
        if !(rest.head?.map Char.isAlpha).getD false then scanBlocks fuel (start + 1) rest
        else match StartTag.scan start (c :: rest) with
          | .error e =>
            let (blocks, errors) := scanBlocks fuel (start + 1) rest
            (blocks, e :: errors)
          | .ok tag =>
            let after := skipTo start tag.span.stop (c :: rest)
            if tag.selfClosing then scanBlocks fuel tag.span.stop after
            else
              let (content, close, problems) := blockExtent tag after
              let inner := (Text.take? content.len after).getD []
              let hasSource := tag.attrs.any (·.name == "src")
              let own := if Text.isBlank inner && !hasSource then [] else [⟨tag.name, content, close⟩]
              let (blocks, errors) :=
                scanBlocks fuel close.stop (skipTo tag.span.stop close.stop after)
              (own ++ blocks, problems ++ errors)

/-- A letter, and the word characters and hyphens behind it; what follows. -/
def tagWord? (text : Text) : Option (Text × Text) :=
  match text with
  | c :: cs =>
    if c.isAlpha then
      let more := cs.takeWhile fun c => Text.isWordChar c || c == '-'
      some (c :: more, cs.drop more.length)
    else none
  | [] => none

/-- What follows the first `>` that stands in no quotes; between quotes anything may stand. -/
def afterAttributes : (quote : Option Char) → Text → Option Text
  | _, [] => none
  | some q, c :: cs => afterAttributes (if c == q then none else some q) cs
  | none, c :: cs =>
    if c == '>' then some cs
    else afterAttributes (if c == '"' || c == '\'' then some c else none) cs

def afterStartTag? : Text → Option Text
  | [] => none
  | '>' :: inner => some inner
  | c :: attributes => if Text.isSpace c then afterAttributes none attributes else none

/-- An element with nothing but blanks in it. The sizes are those of the text from its content on, from
its closing tag on, and behind it. -/
structure EmptyElement where
  name : Text
  closing : Text
  inner : Nat
  close : Nat
  after : Nat

def emptyElement? (text : Text) : Option EmptyElement := do
  let rest ← Text.after? ['<'] text
  let (name, rest) ← tagWord? rest
  let inner ← afterStartTag? rest
  let close := inner.dropWhile Text.isSpace
  let rest ← Text.after? ("</" : String) close
  let (closing, rest) ← tagWord? rest
  match rest.dropWhile Text.isSpace with
  | '>' :: after => some ⟨name, closing, Text.size inner, Text.size close, Text.size after⟩
  | _ => none

/-- The elements without content in the text at an offset, each with its whole span. One whose tags
differ is passed over. -/
def emptyElements : Nat → Nat → Text → List (RawBlock × Span)
  | 0, _, _ => []
  | _, _, [] => []
  | fuel + 1, offset, c :: cs =>
    match emptyElement? (c :: cs) with
    | none => emptyElements fuel (offset + c.utf8Size) cs
    | some e =>
      let total := Text.size (c :: cs)
      let place (size : Nat) : Nat := offset + (total - size)
      let stop := place e.after
      let block : RawBlock :=
        ⟨String.ofList e.name, ⟨place e.inner, place e.close⟩, ⟨place e.close, stop⟩⟩
      let rest := emptyElements fuel stop (skipTo offset stop (c :: cs))
      if e.closing = e.name then (block, ⟨offset, stop⟩) :: rest else rest

/-- The blocks without content: those in no comment and in no block that is already known. -/
def scanEmptyBlocks (source : Text) (comments : List Span) (known : List RawBlock) : List RawBlock :=
  (emptyElements (source.length + 1) 0 source).filterMap fun (block, span) =>
    if comments.any (·.contains span.start) || known.any (·.overlaps span) then none else some block

/-- The start tags of a name in a stretch of the document that lies outside of comments, the last one
first; each is tried by `accept`. -/
def lastTag? (needle : Text) (comments : List Span) (stop : Nat) (accept : Nat → Text → Option StartTag) :
    Nat → Text → Option StartTag
  | _, [] => none
  | offset, c :: cs =>
    match lastTag? needle comments stop accept (offset + c.utf8Size) cs with
    | some tag => some tag
    | none =>
      let span : Span := ⟨offset, offset + Text.size needle⟩
      if needle.isPrefixOf (c :: cs) && span.stop ≤ stop && !comments.any (·.overlaps span) then
        accept offset (c :: cs)
      else none

/-- The start tag of a block: the last one in the text before that ends where the content begins. -/
def openTag? (source : Text) (gap : Span) (b : RawBlock) (comments : List Span) : Option StartTag :=
  let name := b.tag.toList
  let accept (offset : Nat) (text : Text) : Option StartTag :=
    if StartTag.hasName name (text.drop 1) then
      (StartTag.scan offset text).toOption.filter fun tag => tag.span.stop = b.content.start
    else none
  lastTag? ('<' :: name) comments gap.stop accept gap.start (skipTo 0 gap.start source)

def attributes : List (String × Option Value) → List RawAttr →
    List (String × Option Value) × List ParseError
  | seen, [] => (seen, [])
  | seen, a :: rest =>
    if (seen.lookup a.name).isSome then
      let (found, errors) := attributes seen rest
      (found, ⟨.duplicateAttribute a.name, a.span⟩ :: errors)
    else attributes (seen ++ [(a.name, a.value)]) rest

def resolve (source : Text) (gap : Span) (comments : List Span) (b : RawBlock) :
    Block × List ParseError :=
  let kind := BlockKind.ofTag b.tag
  match openTag? source gap b comments with
  | none =>
    let start := Span.empty b.content.start
    (⟨kind, b.tag, [], start, b.close, b.content⟩,
      [⟨.unexpectedToken ("<" ++ b.tag ++ "> start tag") "no start tag", start⟩])
  | some tag =>
    let (attributes, errors) := attributes [] tag.attrs
    (⟨kind, b.tag, attributes, tag.span, b.close, b.content⟩, errors)

/-- Resolves the blocks in order; each looks for its start tag behind the one before. -/
def resolveAll (source : Text) (comments : List Span) : Nat → List RawBlock →
    List Block × List ParseError
  | _, [] => ([], [])
  | stop, b :: rest =>
    let (block, errors) := resolve source ⟨stop, max b.content.start stop⟩ comments b
    let (blocks, more) := resolveAll source comments b.close.stop rest
    (block :: blocks, errors ++ more)

def Block.uniqueName? (b : Block) : Option String :=
  match b.kind with
  | .template => some "template"
  | .script => some (if b.isSetup then "script setup" else "script")
  | .style | .custom => none

def duplicates : (seen : List String) → List Block → List ParseError
  | _, [] => []
  | seen, b :: rest =>
    match b.uniqueName? with
    | none => duplicates seen rest
    | some name =>
      if seen.contains name then ⟨.duplicateBlock name, b.openTag⟩ :: duplicates seen rest
      else duplicates (name :: seen) rest

/-- Splits a document into blocks; those without content are kept if asked for. -/
def Document.parse (keepEmpty : Bool) (source : Text) : Document × List ParseError :=
  let comments := commentsFrom (source.length + 1) 0 source
  let (found, errors) := scanBlocks (source.length + 1) 0 source
  let raw := if keepEmpty then found ++ scanEmptyBlocks source comments found else found
  let raw := raw.mergeSort fun a b => a.content.start ≤ b.content.start
  let comments := comments.filter fun c => !raw.any (·.covers c.start)
  let (blocks, more) := resolveAll source comments 0 raw
  ({ source, blocks, comments }, errors ++ more ++ duplicates [] blocks)

end SfcTsx.Markup
