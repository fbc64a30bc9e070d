import SfcTsx.Text

namespace SfcTsx

/-- A JSON value. A string is `none` when one of its escapes names half of a surrogate pair, which
is no character. -/
inductive Json where
  | null
  | bool (value : Bool)
  | num (digits : Text)
  | str (value : Option Text)
  | arr (items : List Json)
  | obj (fields : List (Option Text × Json))

namespace Json

def text (t : Text) : Json := .str (some t)

def nat (n : Nat) : Json := .num (Nat.toDigits 10 n)

def record (fields : List (String × Json)) : Json :=
  .obj (fields.map fun field => (some field.1.toList, field.2))

def quoteChar (c : Char) : Text :=
  if c = '"' then ['\\', '"']
  else if c = '\\' then ['\\', '\\']
  else if c = '\n' then ['\\', 'n']
  else if c = '\r' then ['\\', 'r']
  else if c = '\t' then ['\\', 't']
  else if c = '\x08' then ['\\', 'b']
  else if c = '\x0c' then ['\\', 'f']
  else if c.toNat < 0x20 then
    ['\\', 'u', '0', '0', Nat.digitChar (c.toNat / 16), Nat.digitChar (c.toNat % 16)]
  else [c]

def quote (t : Text) : Text := '"' :: (t.flatMap quoteChar ++ ['"'])

def quoteString (value : Option Text) : Text := quote (value.getD [])

mutual

def compact : Json → Text
  | .null => "null"
  | .bool true => "true"
  | .bool false => "false"
  | .num digits => digits
  | .str value => quoteString value
  | .arr items => '[' :: (compactItems items ++ [']'])
  | .obj fields => '\x7b' :: (compactFields fields ++ ['\x7d'])

def compactItems : List Json → Text
  | [] => []
  | [item] => compact item
  | item :: items => compact item ++ ',' :: compactItems items

def compactFields : List (Option Text × Json) → Text
  | [] => []
  | [(name, value)] => quoteString name ++ ':' :: compact value
  | (name, value) :: fields =>
    quoteString name ++ ':' :: (compact value ++ ',' :: compactFields fields)

end

def newline (depth : Nat) : Text := '\n' :: List.replicate (2 * depth) ' '

mutual

/-- The value with one item or field a line, indented by `depth` levels. -/
def prettyAt (depth : Nat) : Json → Text
  | .null => "null"
  | .bool true => "true"
  | .bool false => "false"
  | .num digits => digits
  | .str value => quoteString value
  | .arr [] => "[]"
  | .arr items => '[' :: (prettyItems (depth + 1) items ++ newline depth ++ [']'])
  | .obj [] => "\x7b\x7d"
  | .obj fields => '\x7b' :: (prettyFields (depth + 1) fields ++ newline depth ++ ['\x7d'])

def prettyItems (depth : Nat) : List Json → Text
  | [] => []
  | [item] => newline depth ++ prettyAt depth item
  | item :: items => newline depth ++ prettyAt depth item ++ ',' :: prettyItems depth items

def prettyFields (depth : Nat) : List (Option Text × Json) → Text
  | [] => []
  | [(name, value)] => newline depth ++ quoteString name ++ ':' :: ' ' :: prettyAt depth value
  | (name, value) :: fields =>
    newline depth ++ quoteString name ++ ':' :: ' ' ::
      (prettyAt depth value ++ ',' :: prettyFields depth fields)

end

def pretty (value : Json) : Text := prettyAt 0 value

end Json
end SfcTsx
