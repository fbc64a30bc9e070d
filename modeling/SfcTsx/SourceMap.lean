import SfcTsx.Order
import SfcTsx.Span

namespace SfcTsx

structure Mapping where
  generated : Span
  source : Span
deriving DecidableEq, Repr, Inhabited

namespace Mapping

def isVerbatim (m : Mapping) : Bool := m.generated.len == m.source.len

/-- The source offset of a generated offset of this mapping, never past the end of its source. -/
def sourceOf (m : Mapping) (generated : Nat) : Nat :=
  m.source.start + min (generated - m.generated.start) m.source.len

/-- The generated offset of a source offset of this mapping, never past the end of its text. -/
def generatedOf (m : Mapping) (source : Nat) : Nat :=
  m.generated.start + min (source - m.source.start) m.generated.len

end Mapping

/-- Mappings sorted by the start of their generated range. -/
structure SourceMap where
  mappings : Array Mapping
deriving Repr, Inhabited

namespace SourceMap

def empty : SourceMap := ⟨#[]⟩

def isEmpty (map : SourceMap) : Bool := map.mappings.isEmpty

/-- The mapping that starts at a generated offset, or else the one before the place where such a mapping
would stand. -/
def startedAt? (map : SourceMap) (generated : Nat) : Option Mapping :=
  match searchBy (fun m => compare m.generated.start generated) map.mappings with
  | .ok i => map.mappings[i]?
  | .error i => map.mappings[i - 1]?

/-- The source offset of a generated offset; `none` in synthesized text. -/
def sourcePosition? (map : SourceMap) (generated : Nat) : Option Nat :=
  match map.startedAt? generated with
  | some m => if m.generated.contains generated then some (m.sourceOf generated) else none
  | none => none

/-- The last mapping that starts at or before a generated offset. -/
def lastStarted? (map : SourceMap) (generated : Nat) : Option Mapping :=
  match partitionPoint (fun m => m.generated.start ≤ generated) map.mappings with
  | 0 => none
  | n + 1 => map.mappings[n]?

/-- Like `sourcePosition?`, but synthesized text answers with the end of the mapping before it, or
else with the start of the first one. -/
def nearestSourcePosition? (map : SourceMap) (generated : Nat) : Option Nat :=
  match map.sourcePosition? generated with
  | some offset => some offset
  | none =>
    match map.lastStarted? generated with
    | some m => some m.source.stop
    | none => map.mappings[0]?.map (·.source.start)

def sourceSpan? (map : SourceMap) (generated : Span) : Option Span :=
  (map.nearestSourcePosition? generated.start).map fun start =>
    if generated.isEmpty then .empty start
    else
      let stop := match map.sourcePosition? (generated.stop - 1) with
        | some offset => offset + 1
        | none => (map.nearestSourcePosition? generated.stop).getD start
      ⟨start, max stop start⟩

/-- The generated offset of a source offset: moved text is out of order, so the first mapping that
holds the offset answers. -/
def generatedPosition? (map : SourceMap) (source : Nat) : Option Nat :=
  (map.mappings.find? (·.source.contains source)).map (·.generatedOf source)

/-- A map under construction, front to back. -/
structure Builder where
  mappings : Array Mapping := #[]
  offset : Nat := 0
deriving Repr

namespace Builder

def addMapping (b : Builder) (source : Span) (size : Nat) : Builder :=
  { mappings :=
      if size = 0 then b.mappings else b.mappings.push ⟨⟨b.offset, b.offset + size⟩, source⟩
    offset := b.offset + size }

def addSource (b : Builder) (start : Nat) (text : Text) : Builder :=
  b.addMapping ⟨start, start + text.size⟩ text.size

def addGenerated (b : Builder) (text : Text) : Builder :=
  { b with offset := b.offset + text.size }

def build (b : Builder) : SourceMap := ⟨(sortOn (·.generated.start) b.mappings.toList).toArray⟩

/-- A call of a builder. Offsets and sizes have 32 bits. -/
inductive Call where
  | addGenerated (text : Text)
  | addSource (start : UInt32) (text : Text)
  | addMapping (start stop size : UInt32)

/-- How many bytes of output a call stands for; of the size of a text, 32 bits are kept. -/
def Call.size : Call → Nat
  | .addGenerated text | .addSource _ text => text.size % UInt32.size
  | .addMapping _ _ size => size.toNat

/-- The range of the source that these bytes come from. -/
def Call.range? : Call → Option Span
  | .addGenerated _ => none
  | .addSource start text => some ⟨start.toNat, start.toNat + text.size % UInt32.size⟩
  | .addMapping start stop _ => some ⟨start.toNat, stop.toNat⟩

/-- No sum of offsets and sizes that the call makes takes more than 32 bits. -/
def Call.Fits (offset : Nat) (call : Call) : Prop :=
  offset + call.size < UInt32.size ∧ ∀ range ∈ call.range?, range.stop < UInt32.size

instance (offset : Nat) (call : Call) : Decidable (call.Fits offset) :=
  inferInstanceAs (Decidable (_ ∧ _))

/-- Carries out a call; `none` is an overflow. -/
def run? (b : Builder) (call : Call) : Option Builder :=
  if call.Fits b.offset then
    match call.range? with
    | some range => some (b.addMapping range call.size)
    | none => some { b with offset := b.offset + call.size }
  else none

end Builder
end SourceMap
end SfcTsx
