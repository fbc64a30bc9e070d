import SfcTsx.Script.Relocate

namespace SfcTsx.Script

structure Ascii where
  text : Text
  source : Text
  /-- For each byte of the text, and for its end, the offset in the script. -/
  offsets : Array Nat

namespace Ascii

def charOffsets : Nat → Text → List Nat
  | offset, [] => [offset]
  | offset, c :: cs => offset :: charOffsets (offset + c.utf8Size) cs

def ofText (source : Text) : Ascii :=
  { text := source.map fun c => if c.toNat < 128 then c else '_'
    source
    offsets := (charOffsets 0 source).toArray }

/-- The offset in the script; one past the end of the text counts as its end. -/
def offset (a : Ascii) (i : Nat) : Nat := (a.offsets[i]?.or a.offsets.back?).getD 0

def span (a : Ascii) (s : Span) : Span := ⟨a.offset s.start, a.offset s.stop⟩

def relocation (a : Ascii) : Relocation := ⟨a.span, a.source⟩

end Ascii
end SfcTsx.Script
