import SfcTsx.Script.Token
import SfcTsx.Text.Category

namespace SfcTsx.Script.Grammar

inductive LexemeKind where
  | word
  | privateName
  | number
  | string
  | template
  | punct
  | endOfText
  | invalid
deriving DecidableEq, Repr

structure Lexeme where
  kind : LexemeKind
  text : String
  span : Span
  /-- A line break lies between the lexeme before and this one. -/
  newlineBefore : Bool

def isLineBreak (c : Char) : Bool :=
  c == '\n' || c == '\r' || c.toNat == 0x2028 || c.toNat == 0x2029

def isGap (c : Char) : Bool :=
  let n := c.toNat
  c == ' ' || c == '\t' || n == 0xB || n == 0xC || n == 0xA0 || n == 0xFEFF || n == 0x1680 ||
    (0x2000 ≤ n && n ≤ 0x200A) || n == 0x202F || n == 0x205F || n == 0x3000

/-- What the characters between two lexemes belong to. -/
inductive Trivia where
  | gap
  | lineComment
  /-- A block comment; the last character was a star. -/
  | blockComment (star : Bool)

/-- Skips white space and comments: whether there was a line break, where they end, and what
follows. `none` if a comment does not end. -/
def skipTrivia : Trivia → Bool → Nat → Text → Option (Bool × Nat × Text)
  | .blockComment _, _, _, [] => none
  | _, newline, offset, [] => some (newline, offset, [])
  | .gap, newline, offset, c :: cs =>
    if isLineBreak c then skipTrivia .gap true (offset + c.utf8Size) cs
    else if isGap c then skipTrivia .gap newline (offset + c.utf8Size) cs
    else match c, cs with
      | '/', '/' :: rest => skipTrivia .lineComment newline (offset + 2) rest
      | '/', '*' :: rest => skipTrivia (.blockComment false) newline (offset + 2) rest
      | _, _ => some (newline, offset, c :: cs)
  | .lineComment, newline, offset, c :: cs =>
    if isLineBreak c then skipTrivia .gap true (offset + c.utf8Size) cs
    else skipTrivia .lineComment newline (offset + c.utf8Size) cs
  | .blockComment star, newline, offset, c :: cs =>
    if star && c == '/' then skipTrivia .gap newline (offset + 1) cs
    else skipTrivia (.blockComment (c == '*')) (newline || isLineBreak c) (offset + c.utf8Size) cs

def isNameStart (c : Char) : Bool := c == '$' || c == '_' || Text.isIdStart c

def isNamePart (c : Char) : Bool :=
  c == '$' || c == '_' || Text.isJoiner c || Text.isIdContinue c

def unicodeEscapeLength (cs : Text) : Option Nat :=
  match cs with
  | '\x7b' :: rest =>
    let digits := rest.takeWhile isHexDigit
    let value := digits.foldl (fun n c => min 0x110000 (16 * n + hexValue c)) 0
    match rest.drop digits.length with
    | '\x7d' :: _ => if digits.isEmpty || 0x110000 ≤ value then none else some (digits.length + 2)
    | _ => none
  | _ => if (cs.take 4).length = 4 && (cs.take 4).all isHexDigit then some 4 else none
where
  isHexDigit (c : Char) : Bool :=
    c.isDigit || ('a' ≤ c && c ≤ 'f') || ('A' ≤ c && c ≤ 'F')
  hexValue (c : Char) : Nat :=
    if c.isDigit then c.toNat - 48 else if 'a' ≤ c then c.toNat - 87 else c.toNat - 55

/-- The number of characters of a name whose first character is to be tested with `first`. -/
def nameLengthFrom : Nat → (first : Char → Bool) → Text → Nat
  | 0, _, _ => 0
  | _, _, [] => 0
  | fuel + 1, first, c :: cs =>
    if first c then 1 + nameLengthFrom fuel isNamePart cs
    else match c, cs with
      | '\\', 'u' :: rest =>
        match unicodeEscapeLength rest with
        | some n => 2 + n + nameLengthFrom fuel isNamePart (rest.drop n)
        | none => 0
      | _, _ => 0

def nameLength (cs : Text) : Nat := nameLengthFrom cs.length isNameStart cs

/-- The number of characters of the digits that follow a digit, with single underscores between
them. -/
def moreDigitsLength (isDigit : Char → Bool) : Text → Option Nat
  | [] => some 0
  | ['_'] => none
  | '_' :: c :: cs => if isDigit c then (moreDigitsLength isDigit cs).map (· + 2) else none
  | c :: cs => if isDigit c then (moreDigitsLength isDigit cs).map (· + 1) else some 0

def digitsLength (isDigit : Char → Bool) (cs : Text) : Option Nat :=
  match cs with
  | c :: rest => if isDigit c then (moreDigitsLength isDigit rest).map (· + 1) else none
  | [] => none

def exponentLength (cs : Text) : Option Nat :=
  match cs with
  | e :: rest =>
    if e != 'e' && e != 'E' then some 0
    else match rest with
      | sign :: digits =>
        if sign == '+' || sign == '-' then (digitsLength Char.isDigit digits).map (· + 2)
        else (digitsLength Char.isDigit rest).map (· + 1)
      | [] => none
  | [] => some 0

def decimalLength (cs : Text) : Option Nat := do
  let whole ← match cs with
    | '.' :: _ => some 0
    | '0' :: next :: _ => if next.isDigit || next == '_' then none else some 1
    | _ => digitsLength Char.isDigit cs
  match cs.drop whole with
  | 'n' :: _ => return whole + 1
  | '.' :: rest =>
    let fraction ← match rest with
      | c :: _ => if c.isDigit then digitsLength Char.isDigit rest else some 0
      | [] => some 0
    return whole + 1 + fraction + (← exponentLength (rest.drop fraction))
  | rest => return whole + (← exponentLength rest)

def numericLength (cs : Text) : Option Nat := do
  let radix (isDigit : Char → Bool) (rest : Text) : Option Nat :=
    (digitsLength isDigit rest).map fun n => n + 2 + (if rest[n]? == some 'n' then 1 else 0)
  let n ← match cs with
    | '0' :: x :: rest =>
      if x == 'x' || x == 'X' then radix unicodeEscapeLength.isHexDigit rest
      else if x == 'o' || x == 'O' then radix (fun c => '0' ≤ c && c ≤ '7') rest
      else if x == 'b' || x == 'B' then radix (fun c => c == '0' || c == '1') rest
      else decimalLength cs
    | _ => decimalLength cs
  match cs[n]? with
  | some c => if isNameStart c || c.isDigit then none else some n
  | none => some n

/-- The number of characters of what follows the backslash of an escape. Octal escapes are not
allowed. -/
def escapeLength (cs : Text) : Option Nat :=
  match cs with
  | 'u' :: rest => (unicodeEscapeLength rest).map (· + 1)
  | 'x' :: rest =>
    if (rest.take 2).length = 2 && (rest.take 2).all unicodeEscapeLength.isHexDigit then some 3
    else none
  | '0' :: rest => if (rest.head?.map Char.isDigit).getD false then none else some 1
  | '\r' :: '\n' :: _ => some 2
  | c :: _ => if c.isDigit then none else some 1
  | [] => none

def quotedLength (quote : Char) : Nat → Text → Option Nat
  | 0, _ => none
  | _, [] => none
  | fuel + 1, c :: cs =>
    if c == quote then some 1
    else if c == '\n' || c == '\r' then none
    else if c == '\\' then do
      let n ← escapeLength cs
      return 1 + n + (← quotedLength quote fuel (cs.drop n))
    else (quotedLength quote fuel cs).map (· + 1)

inductive TemplateEnd where
  | close
  | code
deriving DecidableEq

/-- The number of characters of template text with the mark that ends it. The escapes of a tagged
template are free. -/
def templateTextLength (tagged : Bool) : Nat → Text → Option (Nat × TemplateEnd)
  | 0, _ => none
  | _, [] => none
  | _, '\x60' :: _ => some (1, .close)
  | _, '$' :: '\x7b' :: _ => some (2, .code)
  | fuel + 1, '\\' :: cs => do
    let n ← if tagged then some (min 1 cs.length) else escapeLength cs
    let (m, ending) ← templateTextLength tagged fuel (cs.drop n)
    return (1 + n + m, ending)
  | fuel + 1, _ :: cs => do
    let (m, ending) ← templateTextLength tagged fuel cs
    return (1 + m, ending)

/-- The number of characters of a regular expression up to and with its closing slash, and without
its flags; a slash inside a class does not close it. -/
def regexBodyLength (inClass : Bool) : Text → Option Nat
  | [] => none
  | '\\' :: c :: cs => if isLineBreak c then none else (regexBodyLength inClass cs).map (· + 2)
  | c :: cs =>
    if isLineBreak c || c == '\\' then none
    else if c == '/' && !inClass then some 1
    else (regexBodyLength (if c == '[' then true else if c == ']' then false else inClass) cs).map
      (· + 1)

/-- The number of characters of the regular expression literal after its opening slash. Each flag
may stand once. -/
def regexLiteralLength (cs : Text) : Option Nat := do
  let body ← match cs with
    | '*' :: _ => none
    | _ => regexBodyLength false cs
  let flags := (cs.drop body).takeWhile isNamePart
  if flags.all ("dgimsuvy".toList.contains ·) && flags.eraseDups.length = flags.length then
    some (body + flags.length)
  else none

/-- The punctuators, longer ones first. Angle brackets stand alone. -/
def punctuators : List String :=
  ["...", "===", "!==", "**=", "&&=", "||=", "??=",
   "=>", "==", "!=", "++", "--", "+=", "-=", "*=", "/=", "%=", "&=", "|=", "^=", "&&", "||", "??",
   "?.", "**",
   "\x7b", "\x7d", "(", ")", "[", "]", ";", ",", "<", ">", "+", "-", "*", "/", "%", "&", "|", "^",
   "!", "~", "?", ":", "=", ".", "@"]

/-- The punctuator that begins a text; `?.` in front of a digit is a question mark. -/
def punctuator? (cs : Text) : Option String :=
  match cs with
  | '?' :: '.' :: c :: _ => if c.isDigit then some "?" else some "?."
  | _ => punctuators.find? fun p => p.toList.isPrefixOf cs

def classify (cs : Text) : LexemeKind × Nat :=
  match cs with
  | [] => (.endOfText, 0)
  | c :: rest =>
    let name := nameLength cs
    if 0 < name then (.word, name)
    else if c == '#' && 0 < nameLength rest then (.privateName, nameLength rest + 1)
    else if c.isDigit || (c == '.' && (rest.head?.map Char.isDigit).getD false) then
      match numericLength cs with
      | some n => (.number, n)
      | none => (.invalid, 1)
    else if c == '"' || c == '\'' then
      match quotedLength c cs.length rest with
      | some n => (.string, n + 1)
      | none => (.invalid, 1)
    else if c == '\x60' then (.template, 1)
    else match punctuator? cs with
      | some p => (.punct, p.length)
      | none => (.invalid, 1)

/-- A place in a script: the lexeme there, the text from its start, the text after it, and where the
lexeme before it ends. -/
structure Place where
  lexeme : Lexeme
  here : Text
  after : Text
  before : Nat

def Place.scan (offset : Nat) (text : Text) : Place :=
  match skipTrivia .gap false offset text with
  | none => ⟨⟨.invalid, "", ⟨offset, offset⟩, false⟩, text, [], offset⟩
  | some (newline, start, here) =>
    let (kind, n) := classify here
    let text := here.take n
    ⟨⟨kind, String.ofList text, ⟨start, start + Text.size text⟩, newline⟩, here, here.drop n, offset⟩

/-- The first place of a script; a line that begins with a number sign and an exclamation mark is
skipped. -/
def Place.first (source : Text) : Place :=
  match source with
  | '#' :: '!' :: rest =>
    let line := rest.takeWhile (!isLineBreak ·)
    .scan (2 + Text.size line) (rest.drop line.length)
  | _ => .scan 0 source

def Place.next (p : Place) : Place := .scan p.lexeme.span.stop p.after

end SfcTsx.Script.Grammar
