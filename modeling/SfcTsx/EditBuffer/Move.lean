import SfcTsx.EditBuffer.Edits

namespace SfcTsx.EditBuffer

def setPrev (b : EditBuffer) (start : Nat) (prev : Option Nat) : EditBuffer :=
  b.modifyPiece start fun p => { p with prev }

def setNext (b : EditBuffer) (start : Nat) (next : Option Nat) : EditBuffer :=
  b.modifyPiece start fun p => { p with next }

def prevOf (b : EditBuffer) (start : Nat) : Option Nat := (b.startingAt? start).bind (·.prev)

def nextOf (b : EditBuffer) (start : Nat) : Option Nat := (b.startingAt? start).bind (·.next)

/-- Closes the gap that the pieces `first` to `last` leave, and opens one between `left` and
`right`. -/
def relinkNeighbours (b : EditBuffer) (first last : Nat) (left right : Option Nat) : EditBuffer :=
  let oldLeft := b.prevOf first
  let oldRight := b.nextOf last
  let b := match oldLeft with
    | some piece => b.setNext piece oldRight
    | none => b
  let b := match oldRight with
    | some piece => b.setPrev piece oldLeft
    | none => b
  let b := match left with
    | some piece => b.setNext piece (some first)
    | none => b
  match right with
  | some piece => b.setPrev piece (some last)
  | none => b

/-- Moves the ends of the output away from the pieces `first` to `last`. -/
def releaseEnds (b : EditBuffer) (first last : Nat) : EditBuffer :=
  let b := match b.prevOf first, b.nextOf last with
    | none, some next => { b with first := next }
    | _, _ => b
  match b.nextOf last, b.prevOf first with
  | none, some prev => { b with last := prev }.setNext prev none
  | _, _ => b

/-- Links the pieces from `first` to `last` in front of the piece `right`, or at the end. -/
def relink (b : EditBuffer) (first last : Nat) (right : Option Nat) : EditBuffer :=
  if right.isNone && last = b.last then b
  else
    let left := match right with
      | some piece => b.prevOf piece
      | none => some b.last
    let b := (b.relinkNeighbours first last left right).releaseEnds first last
    let b := (b.setPrev first left).setNext last right
    let b := if left.isNone then { b with first } else b
    if right.isNone then { b with last } else b

def moveRange (start stop destination : Nat) : Editing Unit := do
  checkRange start stop
  if start ≤ destination ∧ destination ≤ stop then throw (.moveIntoSelf start stop destination)
  split start
  split stop
  split destination
  record (.move destination) ⟨start, stop⟩
  let b ← get
  if let (some first, some last) := (b.startingAt? start, b.endingAt? stop) then
    set (b.relink first.start last.start ((b.startingAt? destination).map (·.start)))

end SfcTsx.EditBuffer
