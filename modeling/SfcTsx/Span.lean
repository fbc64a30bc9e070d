import SfcTsx.Text

namespace SfcTsx

structure Span where
  start : Nat
  stop : Nat
deriving DecidableEq, Repr, Inhabited

namespace Span

def empty (offset : Nat) : Span := ⟨offset, offset⟩

def len (s : Span) : Nat := s.stop - s.start

def isEmpty (s : Span) : Bool := s.start == s.stop

def contains (s : Span) (offset : Nat) : Bool := s.start ≤ offset && offset < s.stop

def containsSpan (s t : Span) : Bool := s.start ≤ t.start && t.stop ≤ s.stop

def overlaps (s t : Span) : Bool :=
  !s.isEmpty && !t.isEmpty && s.start < t.stop && t.start < s.stop

def cover (s t : Span) : Span := ⟨min s.start t.start, max s.stop t.stop⟩

def shift (s : Span) (delta : Nat) : Span := ⟨s.start + delta, s.stop + delta⟩

/-- The text of a span, empty where the span does not fit the text. -/
def text (s : Span) (source : Text) : Text := source.slice s.start s.stop

end Span
end SfcTsx
