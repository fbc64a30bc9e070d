import SfcTsx.Json

namespace SfcTsx.Json

def isBlank (c : Char) : Bool := c == ' ' || c == '\t' || c == '\n' || c == '\r'

def skipBlanks (t : Text) : Text := t.dropWhile isBlank

def hexDigit? (c : Char) : Option Nat :=
  if c.isDigit then some (c.toNat - 48)
  else if 'a' ≤ c ∧ c ≤ 'f' then some (c.toNat - 87)
  else if 'A' ≤ c ∧ c ≤ 'F' then some (c.toNat - 55)
  else none

def hex? (digits : List Char) : Option Nat :=
  digits.foldlM (fun n c => (hexDigit? c).map (16 * n + ·)) 0

def escape? : Char → Option Nat
  | '"' => some 0x22
  | '\\' => some 0x5C
  | '/' => some 0x2F
  | 'b' => some 0x08
  | 'f' => some 0x0C
  | 'n' => some 0x0A
  | 'r' => some 0x0D
  | 't' => some 0x09
  | _ => none

/-- The codes of a string whose opening quote was read, and what follows it. An escape names a code of
its own, which may be half of a surrogate pair. -/
def codesFrom : Text → Option (List Nat × Text)
  | '"' :: rest => some ([], rest)
  | '\\' :: 'u' :: a :: b :: c :: d :: rest => do
    let code ← hex? [a, b, c, d]
    let (codes, rest) ← codesFrom rest
    return (code :: codes, rest)
  | '\\' :: c :: rest => do
    let code ← escape? c
    let (codes, rest) ← codesFrom rest
    return (code :: codes, rest)
  | c :: rest =>
    if c.toNat < 0x20 then none
    else do
      let (codes, rest) ← codesFrom rest
      return (c.toNat :: codes, rest)
  | [] => none

def isHighSurrogate (n : Nat) : Bool := 0xD800 ≤ n && n < 0xDC00

def isLowSurrogate (n : Nat) : Bool := 0xDC00 ≤ n && n < 0xE000

/-- The text of codes, if every half of a surrogate pair has its other half. -/
def textOfCodes : List Nat → Option Text
  | [] => some []
  | [n] => if isHighSurrogate n || isLowSurrogate n then none else some [Char.ofNat n]
  | n :: m :: codes =>
    if isHighSurrogate n then
      if isLowSurrogate m then
        (textOfCodes codes).map (Char.ofNat (0x10000 + (n - 0xD800) * 0x400 + (m - 0xDC00)) :: ·)
      else none
    else if isLowSurrogate n then none
    else (textOfCodes (m :: codes)).map (Char.ofNat n :: ·)

def string? (t : Text) : Option (Option Text × Text) :=
  (codesFrom t).map fun (codes, rest) => (textOfCodes codes, rest)

def digits? (t : Text) : Option (Text × Text) :=
  let digits := t.takeWhile Char.isDigit
  if digits.isEmpty then none else some (digits, t.dropWhile Char.isDigit)

/-- The digits of a whole number, which starts with a zero only if it is one. -/
def whole? (t : Text) : Option (Text × Text) := do
  let (digits, rest) ← digits? t
  if digits.head? = some '0' ∧ digits.length ≠ 1 then none else some (digits, rest)

def fraction? : Text → Option (Text × Text)
  | '.' :: t => (digits? t).map fun (digits, rest) => ('.' :: digits, rest)
  | t => some ([], t)

def exponent? : Text → Option (Text × Text)
  | c :: t =>
    if c = 'e' ∨ c = 'E' then
      let sign := match t with
        | s :: _ => if s = '+' ∨ s = '-' then [s] else []
        | [] => []
      (digits? (t.drop sign.length)).map fun (digits, rest) => (c :: (sign ++ digits), rest)
    else some ([], c :: t)
  | [] => some ([], [])

def number? (t : Text) : Option (Json × Text) := do
  let (sign, t) : Text × Text := match t with
    | '-' :: t => (['-'], t)
    | t => ([], t)
  let (whole, t) ← whole? t
  let (fraction, t) ← fraction? t
  let (exponent, t) ← exponent? t
  return (.num (sign ++ whole ++ fraction ++ exponent), t)

def scalar? (t : Text) : Option (Json × Text) :=
  match Text.after? ("null" : String) t, Text.after? ("true" : String) t,
      Text.after? ("false" : String) t with
  | some rest, _, _ => some (.null, rest)
  | _, some rest, _ => some (.bool true, rest)
  | _, _, some rest => some (.bool false, rest)
  | _, _, _ => number? t

mutual

def value? : Nat → Text → Option (Json × Text)
  | 0, _ => none
  | fuel + 1, t =>
    match t with
    | '"' :: rest => (string? rest).map fun (s, rest) => (.str s, rest)
    | '[' :: rest =>
      match skipBlanks rest with
      | ']' :: rest => some (.arr [], rest)
      | rest => (items? fuel rest).map fun (items, rest) => (.arr items, rest)
    | '{' :: rest =>
      match skipBlanks rest with
      | '}' :: rest => some (.obj [], rest)
      | rest => (fields? fuel rest).map fun (fields, rest) => (.obj fields, rest)
    | t => scalar? t

def items? : Nat → Text → Option (List Json × Text)
  | 0, _ => none
  | fuel + 1, t => do
    let (item, t) ← value? fuel (skipBlanks t)
    match skipBlanks t with
    | ']' :: rest => return ([item], rest)
    | ',' :: rest =>
      let (items, rest) ← items? fuel rest
      return (item :: items, rest)
    | _ => none

def fields? : Nat → Text → Option (List (Option Text × Json) × Text)
  | 0, _ => none
  | fuel + 1, t => do
    let key ← Text.after? ['"'] (skipBlanks t)
    let (name, t) ← string? key
    let t ← Text.after? [':'] (skipBlanks t)
    let (value, t) ← value? fuel (skipBlanks t)
    match skipBlanks t with
    | '}' :: rest => return ([(name, value)], rest)
    | ',' :: rest =>
      let (fields, rest) ← fields? fuel rest
      return ((name, value) :: fields, rest)
    | _ => none

end

def parse? (t : Text) : Option Json :=
  match value? (t.length + 1) (skipBlanks t) with
  | some (value, rest) => if rest.all isBlank then some value else none
  | none => none

end SfcTsx.Json
