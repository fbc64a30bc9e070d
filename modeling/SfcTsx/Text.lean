namespace SfcTsx

abbrev Text := List Char

namespace Text

instance : Coe String Text := ⟨String.toList⟩

def size : Text → Nat
  | [] => 0
  | c :: cs => c.utf8Size + size cs

@[simp] theorem size_nil : size [] = 0 := rfl

@[simp] theorem size_cons (c : Char) (cs : Text) : size (c :: cs) = c.utf8Size + size cs := rfl

@[simp] theorem size_append (s t : Text) : size (s ++ t) = size s + size t := by
  induction s with
  | nil => simp
  | cons c cs ih => simp [ih, Nat.add_assoc]

def bytes (t : Text) : List UInt8 := t.flatMap String.utf8EncodeChar

/-- The UTF-8 form of a text, with every byte as a character: outside of ASCII none of them stands for
itself, and none is in ASCII. -/
def byteChars (t : Text) : Text := t.bytes.map Char.ofUInt8

def drop? : Nat → Text → Option Text
  | 0, t => some t
  | _ + 1, [] => none
  | n + 1, c :: cs => if c.utf8Size ≤ n + 1 then drop? (n + 1 - c.utf8Size) cs else none

def take? : Nat → Text → Option Text
  | 0, _ => some []
  | _ + 1, [] => none
  | n + 1, c :: cs =>
    if c.utf8Size ≤ n + 1 then (take? (n + 1 - c.utf8Size) cs).map (c :: ·) else none

def slice? (start stop : Nat) (t : Text) : Option Text :=
  if start ≤ stop then (drop? start t).bind (take? (stop - start)) else none

def slice (start stop : Nat) (t : Text) : Text := (slice? start stop t).getD []

/-- The offset lies within the text and between two characters. -/
def isBoundary (offset : Nat) (t : Text) : Bool := (drop? offset t).isSome

def after? : Text → Text → Option Text
  | [], t => some t
  | _ :: _, [] => none
  | p :: ps, c :: cs => if p = c then after? ps cs else none

def before? (ending t : Text) : Option Text := (after? ending.reverse t.reverse).map List.reverse

/-- Cuts a text in front of the first occurrence of `needle`. -/
def cutAt? (needle : Text) : Text → Option (Text × Text)
  | [] => if needle.isEmpty then some ([], []) else none
  | c :: cs =>
    if needle.isPrefixOf (c :: cs) then some ([], c :: cs)
    else (cutAt? needle cs).map fun cut => (c :: cut.1, cut.2)

def contains (needle t : Text) : Bool := (cutAt? needle t).isSome

/-- Every `old` becomes `new`, from left to right. -/
def replaceChar (old : Char) (new : Text) : Text → Text
  | [] => []
  | c :: cs => if c = old then new ++ replaceChar old new cs else c :: replaceChar old new cs

def join (separator : Text) : List Text → Text
  | [] => []
  | [t] => t
  | t :: ts => t ++ separator ++ join separator ts

def splitOn (separator : Char) : Text → List Text
  | [] => [[]]
  | c :: cs =>
    if c = separator then [] :: splitOn separator cs
    else match splitOn separator cs with
      | [] => [[c]]
      | piece :: pieces => (c :: piece) :: pieces

end Text
end SfcTsx
