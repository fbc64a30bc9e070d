import SfcTsx.EditBuffer.Operation

namespace SfcTsx

/-- The part of a replacement that follows the cuts at the ends of its range. -/
def EditBuffer.replaceCut (start stop : Nat) (text : Text) (keepEdges : Bool) : Editing Unit := do
  let b ← get
  match b.pieces.filter fun p => start ≤ p.start && p.start < stop with
  | [] => throw (.outOfBounds stop b.source.size)
  | p :: ps =>
    blankRun (.overwriteAcrossSplit start stop) p ps
    modify (·.modifyPiece p.start fun p =>
      if keepEdges then { p with replacement := some text }
      else { p.blank with replacement := some text })

def EditBuffer.moveCut (start stop destination : Nat) : Editing Unit := do
  record (.move destination) ⟨start, stop⟩
  let b ← get
  if let (some first, some last) := (b.startingAt? start, b.endingAt? stop) then
    set (b.relink first.start last.start ((b.startingAt? destination).map (·.start)))

/-- A buffer with an index of its pieces, which are known by their starts. -/
structure IndexedBuffer where
  buffer : EditBuffer
  byStart : Nat → Option Nat
  byEnd : Nat → Option Nat
  searched : Nat

abbrev Indexing := EStateM EditError IndexedBuffer

namespace IndexedBuffer

def ofText (source : Text) : IndexedBuffer where
  buffer := .ofText source
  byStart n := if n = 0 then some 0 else none
  byEnd n := if n = source.size then some 0 else none
  searched := 0

def beside (x : IndexedBuffer) (forward : Bool) (p : Piece) : Option Nat :=
  if forward then x.byStart p.stop else x.byEnd p.start

/-- Goes in one direction to the piece that has an offset inside it, over at most `fuel` pieces. -/
def walk (x : IndexedBuffer) (forward : Bool) (offset : Nat) : Nat → Option Nat → Option Piece
  | fuel + 1, some start =>
    match x.buffer.startingAt? start with
    | some p =>
      if p.start < offset && offset < p.stop then some p
      else x.walk forward offset fuel (x.beside forward p)
    | none => none
  | _, _ => none

/-- The piece that has an offset inside it, as found from the piece that was cut last. -/
def search (x : IndexedBuffer) (offset : Nat) : Option Piece :=
  match x.buffer.startingAt? x.searched with
  | some p => x.walk (p.stop < offset) offset x.buffer.pieces.length (some p.start)
  | none => none

def cutAt (x : IndexedBuffer) (p : Piece) (offset : Nat) : IndexedBuffer where
  buffer := x.buffer.cutAt p offset
  byStart n := if n = offset then some offset else x.byStart n
  byEnd n := if n = p.stop then some offset else if n = offset then some p.start else x.byEnd n
  searched := p.start

def lift {α : Type} (f : Editing α) : Indexing α := fun x =>
  match f x.buffer with
  | .ok a b => .ok a { x with buffer := b }
  | .error e b => .error e { x with buffer := b }

def split (offset : Nat) : Indexing Unit := do
  lift (EditBuffer.checkOffset offset)
  let x ← get
  unless (x.byStart offset).isSome || (x.byEnd offset).isSome do
    if let some p := x.search offset then
      if p.replacement.any (!·.isEmpty) then throw (.splitEdited offset)
      set (x.cutAt p offset)

def insert (kind : EditKind) (offset : Nat) (text : Text) (f : EditBuffer → EditBuffer) :
    Indexing Unit := do
  split offset
  lift do
    modify f
    EditBuffer.record kind (.empty offset) text

def replace (kind : EditKind) (start stop : Nat) (text : Text) (keepEdges : Bool) : Indexing Unit := do
  lift (EditBuffer.checkRange start stop)
  if start = stop then throw (.emptyOverwrite start)
  split start
  split stop
  lift (EditBuffer.replaceCut start stop text keepEdges)
  lift (EditBuffer.record kind ⟨start, stop⟩ text)

open EditBuffer in
def run : Operation → Indexing Unit
  | .insertLeft offset text => insert .insertLeft offset text (·.editLeft offset (· ++ text))
  | .prependLeft offset text => insert .prependLeft offset text (·.editLeft offset (text ++ ·))
  | .insertRight offset text => insert .insertRight offset text (·.editRight offset (· ++ text))
  | .prependRight offset text => insert .prependRight offset text (·.editRight offset (text ++ ·))
  | .remove start stop => do
    lift (checkRange start stop)
    unless start = stop do
      split start
      split stop
      lift do
        modify (·.blankRange start stop)
        record .remove ⟨start, stop⟩
  | .overwrite start stop text => replace .overwrite start stop text false
  | .update start stop text => replace .update start stop text true
  | .moveRange start stop destination => do
    lift (checkRange start stop)
    if start ≤ destination ∧ destination ≤ stop then throw (.moveIntoSelf start stop destination)
    split start
    split stop
    split destination
    lift (moveCut start stop destination)
  | .append text => lift (EditBuffer.append text)
  | .prepend text => lift (EditBuffer.prepend text)
  | .slice start stop => lift do
    let _ ← EditBuffer.slice start stop

def after (x : IndexedBuffer) (o : Operation) : IndexedBuffer :=
  match run o x with
  | .ok _ x' => x'
  | .error _ x' => x'

def afterAll (x : IndexedBuffer) (os : List Operation) : IndexedBuffer := os.foldl after x

end IndexedBuffer
end SfcTsx
