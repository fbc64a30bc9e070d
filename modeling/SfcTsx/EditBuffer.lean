import SfcTsx.SourceMap

namespace SfcTsx

structure Piece where
  start : Nat
  source : Text
  /-- What stands in its place, if it was replaced. -/
  replacement : Option Text := none
  intro : Text := []
  outro : Text := []
  prev : Option Nat := none
  next : Option Nat := none
deriving DecidableEq, Repr

namespace Piece

def stop (p : Piece) : Nat := p.start + p.source.size

def span (p : Piece) : Span := ⟨p.start, p.stop⟩

def shown (p : Piece) : Text := p.replacement.getD p.source

def render (p : Piece) : Text := p.intro ++ p.shown ++ p.outro

def blank (p : Piece) : Piece := { p with replacement := some [], intro := [], outro := [] }

end Piece

inductive EditError where
  | outOfBounds (offset len : Nat)
  | notBoundary (offset : Nat)
  | invalidRange (start stop : Nat)
  | splitEdited (offset : Nat)
  | emptyOverwrite (offset : Nat)
  | overwriteAcrossSplit (start stop : Nat)
  | moveIntoSelf (start stop destination : Nat)
  | sliceAnchor (offset : Nat)
deriving DecidableEq, Repr

def EditError.message : EditError → String
  | .outOfBounds offset len => s!"offset {offset} is out of bounds (length {len})"
  | .notBoundary offset => s!"offset {offset} is not on a character boundary"
  | .invalidRange start stop => s!"invalid range {start}..{stop}"
  | .splitEdited offset =>
    s!"cannot split a chunk that has already been edited at offset {offset}"
  | .emptyOverwrite offset =>
    s!"cannot overwrite a zero-length range at {offset}, insert instead"
  | .overwriteAcrossSplit start stop =>
    s!"cannot overwrite across a split point in {start}..{stop}"
  | .moveIntoSelf start stop destination =>
    s!"cannot move {start}..{stop} inside itself (destination {destination})"
  | .sliceAnchor offset => s!"cannot use replaced character {offset} as a slice anchor"

inductive EditKind where
  | insertLeft
  | prependLeft
  | insertRight
  | prependRight
  | remove
  | move (destination : Nat)
  | overwrite
  | update
  | append
  | prepend
deriving DecidableEq, Repr

structure EditRecord where
  kind : EditKind
  range : Span
  payload : Option Text
deriving DecidableEq, Repr

structure EditBuffer where
  source : Text
  /-- The pieces in source order; together they are the source. -/
  pieces : List Piece
  first : Nat
  last : Nat
  intro : Text
  outro : Text
  log : List EditRecord
deriving DecidableEq, Repr

namespace EditBuffer

def ofText (source : Text) : EditBuffer :=
  { source, pieces := [{ start := 0, source }], first := 0, last := 0, intro := [], outro := []
    log := [] }

def startingAt? (b : EditBuffer) (offset : Nat) : Option Piece :=
  b.pieces.find? (·.start == offset)

def endingAt? (b : EditBuffer) (offset : Nat) : Option Piece :=
  b.pieces.find? (·.stop == offset)

def modifyPiece (b : EditBuffer) (start : Nat) (f : Piece → Piece) : EditBuffer :=
  { b with pieces := b.pieces.map fun p => if p.start = start then f p else p }

/-- The pieces reached from `cursor` through `next`, at most `fuel` of them. -/
def chain (b : EditBuffer) : Nat → Option Nat → List Piece
  | fuel + 1, some start =>
    match b.startingAt? start with
    | some p => p :: chain b fuel p.next
    | none => []
  | _, _ => []

/-- The pieces in the order of the output. No piece occurs twice in an output that ends. -/
def output (b : EditBuffer) : List Piece := b.chain b.pieces.length (some b.first)

def render (b : EditBuffer) : Text := b.intro ++ b.output.flatMap Piece.render ++ b.outro

def hasChanged (b : EditBuffer) : Bool := b.render != b.source

/-- Adds a piece to a map: its own text maps to its range, its insertions to nothing. -/
def mapPiece (builder : SourceMap.Builder) (p : Piece) : SourceMap.Builder :=
  let builder := builder.addGenerated p.intro
  let builder := match p.replacement with
    | some text => builder.addMapping p.span text.size
    | none => builder.addSource p.start p.source
  builder.addGenerated p.outro

def sourceMap (b : EditBuffer) : SourceMap :=
  let builder := b.output.foldl mapPiece (SourceMap.Builder.addGenerated {} b.intro)
  (builder.addGenerated b.outro).build

end EditBuffer
end SfcTsx
