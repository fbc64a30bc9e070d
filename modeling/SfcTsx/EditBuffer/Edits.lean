import SfcTsx.EditBuffer

namespace SfcTsx

abbrev Editing := EStateM EditError EditBuffer

namespace EditBuffer

def checkOffset (offset : Nat) : Editing Unit := do
  let b ← get
  if b.source.size < offset then throw (.outOfBounds offset b.source.size)
  unless b.source.isBoundary offset do throw (.notBoundary offset)

def checkRange (start stop : Nat) : Editing Unit := do
  if stop < start then throw (.invalidRange start stop)
  checkOffset stop
  checkOffset start

/-- The two parts of a piece cut at an offset inside it. The insertions at its start stay with the
head, those at its end go with the tail. -/
def cutPiece (p : Piece) (offset : Nat) : Piece × Piece :=
  ({ p with source := p.source.slice 0 (offset - p.start), outro := [], next := some offset },
    { start := offset, source := p.source.slice (offset - p.start) p.source.size
      replacement := p.replacement.map fun _ => [], outro := p.outro, prev := some p.start
      next := p.next })

def cutAt (b : EditBuffer) (p : Piece) (offset : Nat) : EditBuffer :=
  let (head, tail) := cutPiece p offset
  let b := { b with
    pieces := b.pieces.flatMap fun q => if q.start = p.start then [head, tail] else [q]
    last := if b.last = p.start then offset else b.last }
  match p.next with
  | some next => b.modifyPiece next fun q => { q with prev := some offset }
  | none => b

def split (offset : Nat) : Editing Unit := do
  checkOffset offset
  let b ← get
  unless (b.startingAt? offset).isSome || (b.endingAt? offset).isSome do
    if let some p := b.pieces.find? fun p => p.start < offset && offset < p.stop then
      if p.replacement.any (!·.isEmpty) then throw (.splitEdited offset)
      set (b.cutAt p offset)

def record (kind : EditKind) (range : Span) (payload : Option Text := none) : Editing Unit :=
  modify fun b => { b with log := b.log ++ [⟨kind, range, payload⟩] }

def editLeft (b : EditBuffer) (offset : Nat) (f : Text → Text) : EditBuffer :=
  match b.endingAt? offset with
  | some p => b.modifyPiece p.start fun p => { p with outro := f p.outro }
  | none => { b with intro := f b.intro }

def editRight (b : EditBuffer) (offset : Nat) (f : Text → Text) : EditBuffer :=
  match b.startingAt? offset with
  | some p => b.modifyPiece p.start fun p => { p with intro := f p.intro }
  | none => { b with outro := f b.outro }

/-- Inserts a text, attached to what is before it, after earlier such insertions. -/
def insertLeft (offset : Nat) (text : Text) : Editing Unit := do
  split offset
  modify (·.editLeft offset (· ++ text))
  record .insertLeft (.empty offset) text

/-- Inserts a text, attached to what is before it, ahead of earlier such insertions. -/
def prependLeft (offset : Nat) (text : Text) : Editing Unit := do
  split offset
  modify (·.editLeft offset (text ++ ·))
  record .prependLeft (.empty offset) text

/-- Inserts a text, attached to what is after it, after earlier such insertions. -/
def insertRight (offset : Nat) (text : Text) : Editing Unit := do
  split offset
  modify (·.editRight offset (· ++ text))
  record .insertRight (.empty offset) text

/-- Inserts a text, attached to what is after it, ahead of earlier such insertions. -/
def prependRight (offset : Nat) (text : Text) : Editing Unit := do
  split offset
  modify (·.editRight offset (text ++ ·))
  record .prependRight (.empty offset) text

def append (text : Text) : Editing Unit := do
  modify fun b => { b with outro := b.outro ++ text }
  record .append (.empty (← get).source.size) text

def prepend (text : Text) : Editing Unit := do
  modify fun b => { b with intro := text ++ b.intro }
  record .prepend (.empty 0) text

def blankRange (b : EditBuffer) (start stop : Nat) : EditBuffer :=
  { b with
    pieces := b.pieces.map fun p => if start ≤ p.start && p.start < stop then p.blank else p }

def remove (start stop : Nat) : Editing Unit := do
  checkRange start stop
  unless start = stop do
    split start
    split stop
    modify (·.blankRange start stop)
    record .remove ⟨start, stop⟩

/-- Blanks pieces one after the other, each of which must follow the one before it in the output. -/
def blankRun (refusal : EditError) (previous : Piece) : List Piece → Editing Unit
  | [] => pure ()
  | p :: ps => do
    unless previous.next = some p.start do throw refusal
    modify (·.modifyPiece p.start .blank)
    blankRun refusal p ps

/-- Shows a text in place of a range; its first piece keeps the insertions at its edges only if
`keepEdges`. -/
def replace (start stop : Nat) (text : Text) (keepEdges : Bool) : Editing Unit := do
  checkRange start stop
  if start = stop then throw (.emptyOverwrite start)
  split start
  split stop
  let b ← get
  match b.pieces.filter fun p => start ≤ p.start && p.start < stop with
  | [] => throw (.outOfBounds stop b.source.size)
  | p :: ps =>
    blankRun (.overwriteAcrossSplit start stop) p ps
    modify (·.modifyPiece p.start fun p =>
      if keepEdges then { p with replacement := some text }
      else { p.blank with replacement := some text })

/-- Replaces a range, dropping the insertions attached to it. -/
def overwrite (start stop : Nat) (text : Text) : Editing Unit := do
  replace start stop text false
  record .overwrite ⟨start, stop⟩ text

/-- Replaces a range, keeping the insertions at its edges. -/
def update (start stop : Nat) (text : Text) : Editing Unit := do
  replace start stop text true
  record .update ⟨start, stop⟩ text

end EditBuffer
end SfcTsx
