import SfcTsx.Text

namespace SfcTsx.Vlq

def alphabet : Text := "ABCDEFGHIJKLMNOPQRSTUVWXYZabcdefghijklmnopqrstuvwxyz0123456789+/"

def digitChar (digit : Nat) : Char := alphabet.getD digit 'A'

def zigzag (value : Int) : Nat :=
  if value < 0 then 2 * value.natAbs + 1 else 2 * value.natAbs

/-- The groups of five bits, from the lowest up. -/
def groups (n : Nat) : List Nat :=
  if n < 32 then [n] else (n % 32 + 32) :: groups (n / 32)
termination_by n

def encode (value : Int) : Text := (groups (zigzag value)).map digitChar

end SfcTsx.Vlq
