import SfcTsx.EditBuffer.Edits

namespace SfcTsx.EditBuffer

def reaches (p : Piece) (stop : Nat) : Bool := p.start < stop && stop ≤ p.stop

/-- The part of a piece that a slice shows: from `start` if the slice begins in this piece, up to
`stop` if it ends there. -/
def slicePiece (p : Piece) (start : Option Nat) (stop : Nat) : Text :=
  let ends := reaches p stop
  let shown := p.shown
  let start := start.getD p.start
  let size := shown.size
  let upTo := if ends then size - (p.stop - stop) else size
  (if p.start = start then p.intro else []) ++ shown.slice (start - p.start) upTo ++
    (if !ends || p.stop = stop then p.outro else [])

def sliceRest (stop : Nat) (start : Option Nat) : List Piece → Except EditError Text
  | [] => .ok []
  | p :: ps =>
    if reaches p stop then
      if p.replacement.isSome && p.stop ≠ stop then .error (.sliceAnchor stop)
      else .ok (slicePiece p start stop)
    else (sliceRest stop none ps).map (slicePiece p start stop ++ ·)

def sliceSearch (start stop : Nat) : List Piece → Except EditError Text
  | [] => .ok []
  | p :: ps =>
    if p.start ≤ start && start < p.stop then
      if p.replacement.isSome && p.start ≠ start then .error (.sliceAnchor start)
      else sliceRest stop (some start) (p :: ps)
    else if reaches p stop then .ok []
    else sliceSearch start stop ps

/-- The edited text between two source offsets: text moved into the range is part of it, text moved
out of it is not. -/
def slice (start stop : Nat) : Editing Text := do
  checkRange start stop
  match sliceSearch start stop (← get).output with
  | .ok text => pure text
  | .error error => throw error

end SfcTsx.EditBuffer
