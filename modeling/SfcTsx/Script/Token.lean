import SfcTsx.Span

namespace SfcTsx.Script

inductive TokenKind where
  | newline
  | word
  | number
  | string
  | template
  | regex
  | openBrace
  | closeBrace
  | openParen
  | closeParen
  | openBracket
  | closeBracket
  | semicolon
  | comma
  | less
  | greater
  | equals
  | arrow
  | ellipsis
  | dot
  | questionDot
  | question
  | colon
  | at
  | hash
  | bang
  | star
  | slash
  | slashEquals
  | operator
  | endOfText
  | invalid
deriving DecidableEq, Repr, Inhabited

structure Token where
  kind : TokenKind
  span : Span
  /-- A line break stands between this token and the one before it. -/
  newlineBefore : Bool
  text : String
deriving DecidableEq, Repr, Inhabited

namespace Token

def isWordStart (c : Char) : Bool := c.isAlpha || c == '_' || c == '$' || 0x80 ≤ c.toNat

def isWordPart (c : Char) : Bool := isWordStart c || c.isDigit

def isNumberPart (c : Char) : Bool := c.isAlpha || c.isDigit || c == '_'

def isBlank (c : Char) : Bool := c == ' ' || c == '\t' || c == '\r' || c == '\x0c'

def runLength (p : Char → Bool) : Text → Nat
  | [] => 0
  | c :: cs => if p c then runLength p cs + 1 else 0

def numberLength (cs : Text) : Nat :=
  let whole := runLength isNumberPart cs
  match cs.drop whole with
  | '.' :: fraction => whole + 1 + runLength isNumberPart fraction
  | _ => whole

/-- What follows an opening quote, and whether the closing one was found. A line break ends a string
unless a backslash stands before it. -/
def stringLength (quote : Char) : Text → Nat × Bool
  | [] => (0, false)
  | c :: cs =>
    if c = quote then (1, true)
    else if c = '\n' then (0, false)
    else if c = '\\' then
      match cs with
      | [] => (1, false)
      | _ :: rest =>
        let (n, closed) := stringLength quote rest
        (n + 2, closed)
    else
      let (n, closed) := stringLength quote cs
      (n + 1, closed)

/-- What the text at some place of a template literal belongs to. -/
inductive Nesting where
  /-- Plain characters, a dollar sign just before if `dollar`. -/
  | chars (dollar : Bool)
  /-- Code with so many open braces of its own. -/
  | code (braces : Nat)
  /-- A string in code. -/
  | quoted (quote : Char)

/-- What follows the opening backtick of a template literal, up to and with the closing one; `none`
if the text ends first. Like `regexLength` it is for bytes, read as characters: a backslash takes the next
byte along, which may be the first of several. -/
def templateLength : List Nesting → Text → Option Nat
  | [], _ => some 0
  | _ :: _, [] => none
  | .chars dollar :: outer, c :: cs =>
    if c = '\\' then
      match cs with
      | [] => none
      | _ :: rest => (templateLength (.chars false :: outer) rest).map (· + 2)
    else if c = '\x60' then (templateLength outer cs).map (· + 1)
    else if c = '\x7b' && dollar then
      (templateLength (.code 0 :: .chars false :: outer) cs).map (· + 1)
    else (templateLength (.chars (c == '$') :: outer) cs).map (· + 1)
  | .code braces :: outer, c :: cs =>
    if c = '\x7b' then (templateLength (.code (braces + 1) :: outer) cs).map (· + 1)
    else if c = '\x7d' then
      match braces with
      | 0 => (templateLength outer cs).map (· + 1)
      | n + 1 => (templateLength (.code n :: outer) cs).map (· + 1)
    else if c = '\x60' then (templateLength (.chars false :: .code braces :: outer) cs).map (· + 1)
    else if c = '"' || c = '\'' then
      (templateLength (.quoted c :: .code braces :: outer) cs).map (· + 1)
    else (templateLength (.code braces :: outer) cs).map (· + 1)
  | .quoted quote :: outer, c :: cs =>
    if c = quote || c = '\n' then (templateLength outer cs).map (· + 1)
    else if c = '\\' then
      match cs with
      | [] => none
      | _ :: rest => (templateLength (.quoted quote :: outer) rest).map (· + 2)
    else (templateLength (.quoted quote :: outer) cs).map (· + 1)

/-- How much of what follows the opening backtick belongs to a template literal: all of it, if that is not
closed. -/
def templateEnd (cs : Text) : Nat := (templateLength [.chars false] cs).getD cs.length

/-- What follows the opening slash of a regular expression, up to its flags; `none` if the line ends
first. A slash in a character class does not close it. -/
def regexLength (inClass : Bool) : Text → Option Nat
  | [] => none
  | c :: cs =>
    if c = '\\' then
      match cs with
      | [] => none
      | _ :: rest => (regexLength inClass rest).map (· + 2)
    else if c = '\n' then none
    else if c = '[' then (regexLength true cs).map (· + 1)
    else if c = ']' then (regexLength false cs).map (· + 1)
    else if c = '/' && !inClass then some (1 + runLength Char.isAlpha cs)
    else (regexLength inClass cs).map (· + 1)

def lengthIn (size : Nat) (cs : Text) : Nat := ((cs.take? size).getD cs).length

def regexChars? (cs : Text) : Option Nat :=
  (regexLength false (Text.byteChars cs).tail).map fun n => lengthIn (n + 1) cs

def commentLength : Text → Option Nat
  | [] => none
  | c :: cs =>
    match c, cs with
    | '*', '/' :: _ => some 2
    | _, _ => (commentLength cs).map (· + 1)

/-- The tokens of fixed spelling, of two that begin alike the longer one first. -/
def fixed : List (Text × TokenKind) :=
  [("...", .ellipsis), ("===", .operator), ("!==", .operator), ("&&=", .operator),
    ("||=", .operator), ("??=", .operator), ("**=", .operator), ("<<=", .operator),
    ("=>", .arrow), ("?.", .questionDot), ("/=", .slashEquals), ("**", .operator),
    ("&&", .operator), ("||", .operator), ("??", .operator), ("==", .operator),
    ("!=", .operator), ("<=", .operator), (">=", .operator), ("<<", .operator),
    ("++", .operator), ("--", .operator), ("+=", .operator), ("-=", .operator),
    ("*=", .operator), ("%=", .operator), ("&=", .operator), ("|=", .operator),
    ("^=", .operator), ("\x7b", .openBrace), ("\x7d", .closeBrace), ("(", .openParen),
    (")", .closeParen), ("[", .openBracket), ("]", .closeBracket), (";", .semicolon),
    (",", .comma), ("<", .less), (">", .greater), ("=", .equals), (".", .dot),
    ("?", .question), (":", .colon), ("@", .at), ("#", .hash), ("!", .bang), ("*", .star),
    ("/", .slash), ("+", .operator), ("-", .operator), ("%", .operator), ("&", .operator),
    ("|", .operator), ("^", .operator), ("~", .operator)].map fun entry => (entry.1.toList, entry.2)

/-- The token of fixed spelling at the start of a text, or one invalid character. -/
def fixedLexeme (cs : Text) : TokenKind × Nat :=
  match fixed.find? (·.1.isPrefixOf cs) with
  | some (spelling, kind) => (kind, spelling.length)
  | none => (.invalid, 1)

/-- What stands at the start of a text: a kind and a number of characters, the kind being `none` for
blanks and comments. -/
def lexeme : Text → Option TokenKind × Nat
  | [] => (none, 0)
  | c :: cs =>
    if isBlank c then (none, runLength isBlank cs + 1)
    else if c = '\n' then (some .newline, 1)
    else if isWordStart c then (some .word, runLength isWordPart cs + 1)
    else if c.isDigit then (some .number, numberLength (c :: cs))
    else if c = '"' || c = '\'' then
      let (n, closed) := stringLength c cs
      (some (if closed then .string else .invalid), n + 1)
    else if c = '\x60' then (some .template, lengthIn (templateEnd (Text.byteChars cs)) cs + 1)
    else
      let (kind, n) := fixedLexeme (c :: cs)
      match c, cs with
      | '/', '/' :: rest => (none, runLength (· != '\n') rest + 2)
      | '/', '*' :: rest =>
        match commentLength rest with
        | some n => (none, n + 2)
        | none => (some kind, n)
      | '.', d :: rest =>
        if d.isDigit then (some .number, runLength isNumberPart rest + 2) else (some kind, n)
      | _, _ => (some kind, n)

def allowsRegexAfter (kind : TokenKind) (text : String) : Bool :=
  match kind with
  | .word =>
    ["return", "typeof", "instanceof", "in", "of", "new", "delete", "void", "throw", "case", "do",
      "else", "yield", "await"].contains text
  | .number | .string | .template | .regex | .closeParen | .closeBracket | .closeBrace => false
  | _ => true

/-- Like `lexeme`, with a slash read as a regular expression where one may stand and ends. -/
def lexemeAt (regexAllowed : Bool) (cs : Text) : Option TokenKind × Nat :=
  match lexeme cs with
  | (some kind, n) =>
    if (kind = .slash || kind = .slashEquals) && regexAllowed then
      match regexChars? cs with
      | some n => (some .regex, n)
      | none => (some kind, n)
    else (some kind, n)
  | skipped => skipped

/-- The tokens of a text that begins at `offset`, with one unit of fuel for each character. -/
def tokensFrom : Nat → Nat → Bool → Bool → Text → List Token
  | fuel + 1, offset, newlineBefore, regexAllowed, c :: cs =>
    let (kind, n) := lexemeAt regexAllowed (c :: cs)
    let text := (c :: cs).take n
    let rest := (c :: cs).drop n
    let stop := offset + Text.size text
    match kind with
    | none => tokensFrom fuel stop newlineBefore regexAllowed rest
    | some .newline => tokensFrom fuel stop true regexAllowed rest
    | some kind =>
      let text := String.ofList text
      ⟨kind, ⟨offset, stop⟩, newlineBefore, text⟩ ::
        tokensFrom fuel stop false (allowsRegexAfter kind text) rest
  | _, offset, newlineBefore, _, _ => [⟨.endOfText, .empty offset, newlineBefore, ""⟩]

def tokenize (source : Text) : List Token := tokensFrom source.length 0 false true source

def isOpener (kind : TokenKind) : Bool :=
  kind == .openParen || kind == .openBracket || kind == .openBrace

def isCloser (kind : TokenKind) : Bool :=
  kind == .closeParen || kind == .closeBracket || kind == .closeBrace

def deepest (depth : Nat) : List Token → Nat
  | [] => depth
  | t :: ts =>
    if isOpener t.kind then deepest (depth + 1) ts
    else if isCloser t.kind then max depth (deepest (depth - 1) ts)
    else deepest depth ts

/-- The deepest bracket nesting of a script, brackets in strings and comments left out. -/
def nestingDepth (source : Text) : Nat := deepest 0 (tokenize source)

end Token
end SfcTsx.Script
