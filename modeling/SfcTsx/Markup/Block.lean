import SfcTsx.Markup.StartTag

namespace SfcTsx.Markup

inductive BlockKind where
  | template
  | script
  | style
  | custom
deriving DecidableEq, Repr

namespace BlockKind

def ofTag : String → BlockKind
  | "template" => .template
  | "script" => .script
  | "style" => .style
  | _ => .custom

/-- The first closing tag ends a block of this kind; blocks of the others nest. -/
def isRaw : BlockKind → Bool
  | .script | .style => true
  | _ => false

end BlockKind

structure Block where
  kind : BlockKind
  tag : String
  /-- The attributes in order, each name once; `none` has no value. -/
  attributes : List (String × Option Value)
  openTag : Span
  /-- Empty if the block is not closed. -/
  closeTag : Span
  content : Span
deriving Repr

namespace Block

def span (b : Block) : Span := b.openTag.cover b.closeTag

def attr? (b : Block) (name : String) : Option (Option Value) := b.attributes.lookup name

def value? (b : Block) (name : String) : Option Value := (b.attr? name).join

def isSetup (b : Block) : Bool := b.kind == .script && (b.attr? "setup").isSome

def isClosed (b : Block) : Bool := !b.closeTag.isEmpty

def lang? (b : Block) : Option Text := (b.value? "lang").map Value.content

end Block

structure Document where
  source : Text
  /-- In order; none overlaps another. -/
  blocks : List Block
  /-- Comments outside of the blocks. -/
  comments : List Span

namespace Document

def template? (d : Document) : Option Block := d.blocks.find? (·.kind = .template)

def script? (d : Document) : Option Block := d.blocks.find? fun b => b.kind = .script && !b.isSetup

def setup? (d : Document) : Option Block := d.blocks.find? Block.isSetup

end Document

/-- The text from an offset on, where the text at another is known. -/
def skipTo (offset target : Nat) (text : Text) : Text := (Text.drop? (target - offset) text).getD []

/-- What follows a comment whose text stands behind its opening: where, and the text. A comment that
does not end takes everything. -/
def afterComment (offset : Nat) (text : Text) : Nat × Text :=
  match Text.cutAt? ("-->" : String) text with
  | some (body, rest) => (offset + Text.size body + 3, rest.drop 3)
  | none => (offset + Text.size text, [])

def commentsFrom : Nat → Nat → Text → List Span
  | 0, _, _ => []
  | fuel + 1, offset, text =>
    match Text.cutAt? ("<!--" : String) text with
    | some (front, rest) =>
      let start := offset + Text.size front
      let (stop, rest) := afterComment (start + 4) (rest.drop 4)
      ⟨start, stop⟩ :: commentsFrom fuel stop rest
    | none => []

/-- The closing tag of a name that begins the text at an offset; blanks may stand behind the name. -/
def closeTagAt? (name : Text) (offset : Nat) (text : Text) : Option Span := do
  let rest ← Text.after? (("</" : String) ++ name) text
  let blank := rest.takeWhile Text.isSpace
  match rest.drop blank.length with
  | '>' :: _ => some ⟨offset, offset + 2 + Text.size name + Text.size blank + 1⟩
  | _ => none

def rawClose? (name : Text) : Nat → Text → Option Span
  | _, [] => none
  | offset, c :: cs =>
    match closeTagAt? name offset (c :: cs) with
    | some span => some span
    | none => rawClose? name (offset + c.utf8Size) cs

/-- The closing tag of an element in whose content `depth` others of its name are open. -/
def nestedCloseFrom (name : Text) : Nat → (depth offset : Nat) → Text → Option Span
  | 0, _, _, _ => none
  | fuel + 1, depth, offset, text =>
    let front := text.takeWhile (· != '<')
    let start := offset + Text.size front
    match text.drop front.length with
    | [] => none
    | c :: rest =>
      match Text.after? ("<!--" : String) (c :: rest) with
      | some body =>
        let (stop, rest) := afterComment (start + 4) body
        nestedCloseFrom name fuel depth stop rest
      | none =>
        match closeTagAt? name start (c :: rest) with
        | some span =>
          match depth with
          | 0 => some span
          | depth + 1 =>
            nestedCloseFrom name fuel depth span.stop (skipTo start span.stop (c :: rest))
        | none =>
          let tag := if StartTag.hasName name rest then (StartTag.scan start (c :: rest)).toOption
            else none
          match tag with
          | some tag =>
            nestedCloseFrom name fuel (if tag.selfClosing then depth else depth + 1) tag.span.stop
              (skipTo start tag.span.stop (c :: rest))
          | none => nestedCloseFrom name fuel depth (start + 1) rest

def nestedClose? (name : Text) (offset : Nat) (text : Text) : Option Span :=
  nestedCloseFrom name (text.length + 1) 0 offset text

def startsBlock (text : Text) : Bool :=
  ["<template", "<script", "<style"].any fun start =>
    match Text.after? start text with
    | some (c :: _) => Text.isSpace c || c == '>' || c == '/'
    | _ => false

/-- Where the content of a block ends that is not closed: at the next line that begins with the start
tag of a known block, or at the end. -/
def boundary : Nat → Text → Nat
  | offset, [] => offset
  | offset, c :: cs =>
    if c == '\n' && startsBlock cs then offset + 1 else boundary (offset + c.utf8Size) cs

end SfcTsx.Markup
