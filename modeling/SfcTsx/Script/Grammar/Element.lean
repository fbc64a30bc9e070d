import SfcTsx.Script.Grammar.Expr

namespace SfcTsx.Script.Grammar

open Rule

/-- The number of characters of one part of a markup name: a name that may have hyphens. -/
def markupWordLength (cs : Text) : Nat :=
  match cs with
  | c :: rest => if isNameStart c then 1 + (rest.takeWhile fun c => isNamePart c || c == '-').length else 0
  | [] => 0

def markupWord : Rule String := do
  let p ← get
  let n := markupWordLength p.here
  require (0 < n)
  let text := p.here.take n
  resume (p.lexeme.span.start + Text.size text) (p.here.drop n)
  return String.ofList text

def memberNameFrom : Nat → String → Rule String
  | 0, _ => failure
  | fuel + 1, name => do
    if ← eat? "." then memberNameFrom fuel (name ++ "." ++ (← markupWord))
    else return name

/-- The name of an element: one word, two with a colon between them, or more with dots. -/
def elementName : Rule String := do
  let name ← markupWord
  if ← eat? ":" then return name ++ ":" ++ (← markupWord)
  memberNameFrom (← setting).fuel name

/-- An expression in braces, which may be missing in a child. It stops in front of the closing
brace. -/
def containedExprs (r : Rules) (mayBeEmpty : Bool) : Rule (List Expr) := do
  expect "\x7b"
  let spread ← eat? "..."
  if mayBeEmpty && !spread && (← at? "\x7d") then return []
  let o ← expression r
  require (← at? "\x7d")
  return [o.expr]

def attributeValue (r : Rules) : Rule (List Expr) := do
  let p ← get
  match p.here with
  | c :: rest =>
    if c == '"' || c == '\'' then
      let value := rest.takeWhile (· != c)
      require (value.length < rest.length)
      resume (p.lexeme.span.start + Text.size value + 2) (rest.drop (value.length + 1))
      return []
    else if c == '<' then
      let exprs ← r.element
      expect ">"
      return exprs
    else
      let exprs ← containedExprs r false
      expect "\x7d"
      return exprs
  | [] => failure

def markupAttribute (r : Rules) : Rule (List Expr) := do
  if ← eat? "\x7b" then
    expect "..."
    let o ← r.assign
    expect "\x7d"
    return [o.expr]
  let _ ← markupWord
  if ← eat? ":" then
    let _ ← markupWord
  if ← eat? "=" then attributeValue r else return []

inductive TagEnd where
  | open
  | close
deriving DecidableEq

def attributesFrom (r : Rules) : Nat → Rule (List Expr × TagEnd)
  | 0 => failure
  | fuel + 1 => do
    if ← at? ">" then return ([], .open)
    if ← eat? "/" then
      require (← at? ">")
      return ([], .close)
    let exprs ← markupAttribute r
    let (rest, ending) ← attributesFrom r fuel
    return (exprs ++ rest, ending)

/-- The children of an element from an offset on, and its closing tag. It stops in front of the last
angle bracket. -/
def childrenFrom (r : Rules) (name : Option String) : Nat → Nat → Text → Rule (List Expr)
  | 0, _, _ => failure
  | fuel + 1, offset, text => do
    let words := text.takeWhile fun c => c != '<' && c != '\x7b' && c != '>' && c != '\x7d'
    let here := offset + Text.size words
    let continueWith (exprs : List Expr) : Rule (List Expr) := do
      let p ← get
      return exprs ++ (← childrenFrom r name fuel p.lexeme.span.stop p.after)
    match text.drop words.length with
    | '\x7b' :: rest =>
      resume here ('\x7b' :: rest)
      continueWith (← containedExprs r true)
    | '<' :: rest =>
      resume here ('<' :: rest)
      if !(← peek).isPunct "/" then continueWith (← r.element)
      else
        advance
        advance
        match name with
        | none => pure ()
        | some name => require ((← elementName) == name)
        require (← at? ">")
        return []
    | _ => failure

def element (r : Rules) : Rule (List Expr) := do
  expect "<"
  if ← at? ">" then
    let p ← get
    return ← childrenFrom r none (← setting).fuel p.lexeme.span.stop p.after
  let name ← elementName
  if (← typed?) && (← at? "<") then
    let _ ← typeArgs r
  let (exprs, ending) ← attributesFrom r (← setting).fuel
  if ending == .close then return exprs
  let p ← get
  return exprs ++ (← childrenFrom r (some name) (← setting).fuel p.lexeme.span.stop p.after)

end SfcTsx.Script.Grammar
