import SfcTsx.Order
import SfcTsx.Text

namespace SfcTsx

structure LineCol where
  line : Nat
  col : Nat
deriving DecidableEq, Repr

/-- The bytes a character takes beyond its UTF-16 units. -/
def Text.surplus (c : Char) : Nat := c.utf8Size - (if c.toNat < 0x10000 then 1 else 2)

structure LineIndex where
  starts : List Nat
  /-- The characters outside ASCII: offset and surplus. -/
  wide : List (Nat × Nat)
  len : Nat
deriving Repr

namespace LineIndex

/-- The starts of the lines after the first, for a text that begins at `offset`. -/
def laterStarts (offset : Nat) : Text → List Nat
  | [] => []
  | c :: cs =>
    if c = '\n' then (offset + 1) :: laterStarts (offset + 1) cs
    else laterStarts (offset + c.utf8Size) cs

def wideChars (offset : Nat) : Text → List (Nat × Nat)
  | [] => []
  | c :: cs =>
    if c.toNat < 0x80 then wideChars (offset + c.utf8Size) cs
    else (offset, Text.surplus c) :: wideChars (offset + c.utf8Size) cs

def ofText (text : Text) : LineIndex :=
  { starts := 0 :: laterStarts 0 text, wide := wideChars 0 text, len := text.size }

def lineCount (index : LineIndex) : Nat := index.starts.length

def lineStart (index : LineIndex) (line : Nat) : Option Nat := index.starts[line]?

def lineEnd (index : LineIndex) (line : Nat) : Option Nat :=
  if line < index.lineCount then
    match index.starts[line + 1]? with
    | some next => some (next - 1)
    | none => some index.len
  else none

def lineOf (index : LineIndex) (offset : Nat) : Nat :=
  match searchBy (compare · offset) index.starts.toArray with
  | .ok line => line
  | .error line => line - 1

def lineCol (index : LineIndex) (offset : Nat) : Option LineCol :=
  if offset ≤ index.len then
    let line := index.lineOf offset
    some ⟨line, offset - index.starts.getD line 0⟩
  else none

/-- The position of an offset, its column in UTF-16 units. -/
def lineColUtf16 (index : LineIndex) (offset : Nat) : Option LineCol :=
  (index.lineCol offset).map fun pos =>
    let start := index.starts.getD pos.line 0
    let first := partitionPoint (fun wide => wide.1 < start) index.wide.toArray
    let inLine := (index.wide.drop first).takeWhile (·.1 < offset)
    ⟨pos.line, inLine.foldl (fun col wide => col - wide.2) pos.col⟩

def offset (index : LineIndex) (pos : LineCol) : Option Nat :=
  (index.lineStart pos.line).map (· + pos.col)

end LineIndex
end SfcTsx
