import SfcTsx.Order
import SfcTsx.Span
import SfcTsx.Text.Space

namespace SfcTsx.View

/-- The parts of `(value, key, index) in source`. -/
structure Loop where
  source : Span
  value : Option Span
  key : Option Span
  index : Option Span
deriving DecidableEq, Repr

namespace Loop

def params (l : Loop) : List (Option Span) :=
  ([l.index, l.key, l.value].dropWhile Option.isNone).reverse

def spans (l : Loop) : List Span :=
  sortOn Span.start ([l.value, l.key, l.index].filterMap id ++ [l.source])

/-- What follows a separator that starts here: white space, `in` or `of`, white space, and then
something else. -/
def afterSeparator? (text : Text) : Option Text :=
  let rest := text.dropWhile Text.isSpace
  let (word, tail) := (rest.take 2, rest.drop 2)
  let source := tail.dropWhile Text.isSpace
  if text.head?.any Text.isSpace && (word == ['i', 'n'] || word == ['o', 'f'])
      && tail.head?.any Text.isSpace && !source.isEmpty then
    some source
  else none

def cut? : Text → Option (Text × Text)
  | [] => none
  | c :: cs =>
    match afterSeparator? (c :: cs) with
    | some source => some ([], source)
    | none => (cut? cs).map fun (aliases, source) => (c :: aliases, source)

/-- A part of an expression: where it starts, and its text. -/
structure Part where
  start : Nat
  text : Text
deriving DecidableEq, Repr

namespace Part

def trim (p : Part) : Part :=
  ⟨p.start + Text.size (p.text.takeWhile Text.isSpace), Text.trim p.text⟩

/-- The part without one opening parenthesis at its start and one closing one at its end. -/
def unwrap (p : Part) : Part :=
  let p : Part := match p.text with
    | '(' :: rest => ⟨p.start + 1, rest⟩
    | _ => p
  if p.text.getLast? = some ')' then { p with text := p.text.dropLast } else p

def span? (p : Part) : Option Span :=
  let p := p.trim
  if p.text.isEmpty then none else some ⟨p.start, p.start + p.text.size⟩

end Part

def isIterator (c : Char) : Bool := c != ',' && c != '}' && c != ']'

/-- Reads `, key` or `, key, index` up to the end of the text. -/
def iterators? (start : Nat) : Text → Option (Part × Option Part)
  | ',' :: rest =>
    let key := rest.takeWhile isIterator
    match rest.dropWhile isIterator with
    | [] => some (⟨start + 1, key⟩, none)
    | ',' :: index =>
      if index.all isIterator then
        some (⟨start + 1, key⟩, some ⟨start + 1 + Text.size key + 1, index⟩)
      else none
    | _ => none
  | _ => none

/-- The value, and the key and index at the first place where they can be read. -/
def splitAliases (start : Nat) : Text → Text × Option (Part × Option Part)
  | [] => ([], none)
  | c :: cs =>
    match iterators? start (c :: cs) with
    | some found => ([], some found)
    | none =>
      let (value, found) := splitAliases (start + c.utf8Size) cs
      (c :: value, found)

/-- Reads the expression of a `v-for` that starts at `base`. Without a separator or a source there
is no loop. -/
def parse? (expression : Text) (base : Nat) : Option Loop := do
  let (aliases, source) ← cut? expression
  let source ← Part.span? ⟨base + (Text.size expression - Text.size source), source⟩
  let aliases := (Part.trim ⟨base, aliases⟩).unwrap
  let (value, found) := splitAliases aliases.start aliases.text
  return { source, value := Part.span? ⟨aliases.start, value⟩
           key := found.bind (·.1.span?), index := found.bind fun f => f.2.bind Part.span? }

end Loop
end SfcTsx.View
