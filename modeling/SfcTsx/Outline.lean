import SfcTsx.Json
import SfcTsx.Span

namespace SfcTsx.Outline

def num (n : Nat) : Text := Nat.toDigits 10 n

def span (s : Span) : Text := num s.start ++ ':' :: num s.stop

def part {α : Type} (f : α → Text) : Option α → Text
  | some a => f a
  | none => ['-']

def span? (s : Option Span) : Text := part span s

def flag (b : Bool) : Text := [if b then '1' else '0']

def named (name : String) (value : Text) : Text := name.toList ++ '=' :: value

def text (t : Text) : Text := Json.quote t

def string (s : String) : Text := text s.toList

def node (name : String) (parts : List Text) : Text :=
  '(' :: (Text.join [' '] (name.toList :: parts) ++ [')'])

end SfcTsx.Outline
