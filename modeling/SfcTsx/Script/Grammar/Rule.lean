import SfcTsx.Script.Grammar.Lexeme
import SfcTsx.Script.Tree

namespace SfcTsx.Script.Grammar

structure Setting where
  dialect : Dialect
  fuel : Nat
  allowIn : Bool := true
  inFunction : Bool := false
  isAsync : Bool := false
  isGenerator : Bool := false
  /-- A colon has to follow, because this is the middle part of a conditional. -/
  colonFollows : Bool := false
  /-- Nothing here has a body or an initial value. -/
  ambient : Bool := false
  canBreak : Bool := false
  canContinue : Bool := false
  labels : List String := []
  /-- `extends` belongs to something around the type. -/
  noConditional : Bool := false

namespace Setting

def isTyped (s : Setting) : Bool := s.dialect.isTyped

def hasMarkup (s : Setting) : Bool := s.dialect.hasMarkup

/-- Inside brackets nothing of the expression around them matters. -/
def bracketed (s : Setting) : Setting := { s with allowIn := true, colonFollows := false }

def body (s : Setting) (isAsync isGenerator : Bool) : Setting :=
  { s.bracketed with
    inFunction := true, isAsync, isGenerator, canBreak := false, canContinue := false, labels := [] }

end Setting

abbrev Rule := ReaderT Setting (StateT Place Option)

/-- What assigning to an expression means. The parts are the expressions that are evaluated for it. -/
inductive Target where
  | simple (parts : List Expr)
  | pattern (parts : List Expr)

/-- What a rule has to know of an expression beside its tree. -/
inductive Form where
  | plain
  | chain
  /-- The same with an exclamation mark behind it. -/
  | chainNonNull
  | bareNew
  | logical
  /-- An operation with a prefix operator, which cannot be raised to a power. -/
  | unary
  /-- A conditional, a binary operation or an arrow function, which nothing can be assigned to. -/
  | closed
  | assignment
  | applied (inner : Expr)
  /-- An object literal with a default value in it, which only a pattern can have. -/
  | defaults

structure Operand where
  expr : Expr
  target : Option Target := none
  form : Form := .plain

namespace Operand

def isChain (o : Operand) : Bool :=
  match o.form with
  | .chain | .chainNonNull => true
  | _ => false

def isElement (o : Operand) : Bool :=
  match o.target, o.form with
  | some _, _ => true
  | none, .assignment => true
  | none, _ => false

end Operand

/-- A statement of a module, with the statements and expressions that it adds to a block around it
that has no form of its own. -/
structure Item where
  stmt : Stmt
  stmts : List Stmt := []
  exprs : List Expr := []

def Item.ofStmt (s : Stmt) : Item := { stmt := s, stmts := [s] }

/-- The rules that others call one layer down. -/
structure Rules where
  type : Rule Unit
  assign : Rule Operand
  unary : Rule Operand
  /-- What a declaration or parameter binds. In the parameters of an arrow function the holes at the
  end of an array do not count. -/
  pattern : (arrow : Bool) → Rule Pat
  /-- A statement; declarations are not allowed everywhere. -/
  stmt : (declarations : Bool) → Rule Stmt
  item : Rule Item
  classExpr : Rule Expr
  /-- A markup element: the expressions in it. It stops in front of the last angle bracket. -/
  element : Rule (List Expr)

namespace Rule

def setting : Rule Setting := read

def lexeme : Rule Lexeme := return (← get).lexeme

def peek : Rule Lexeme := return (← get).next.lexeme

def start : Rule Nat := return (← get).lexeme.span.start

def spanFrom (start : Nat) : Rule Span := return ⟨start, (← get).before⟩

def advance : Rule Unit := modify Place.next

def resume (offset : Nat) (text : Text) : Rule Unit := set (Place.scan offset text)

def require (condition : Bool) : Rule Unit := if condition then pure () else failure

def ofOption {α : Type} : Option α → Rule α
  | some a => pure a
  | none => failure

/-- Runs a rule; where it fails nothing is read. -/
def attempt {α : Type} (rule : Rule α) : Rule (Option α) := fun s p =>
  match rule s p with
  | some (a, q) => some (some a, q)
  | none => some (none, p)

def within {α : Type} (change : Setting → Setting) (rule : Rule α) : Rule α := fun s => rule (change s)

def bracketed {α : Type} (rule : Rule α) : Rule α := within Setting.bracketed rule

end Rule

namespace Lexeme

def isPunct (l : Lexeme) (text : String) : Bool := l.kind == .punct && l.text == text

def isWord (l : Lexeme) (text : String) : Bool := l.kind == .word && l.text == text

def ident (l : Lexeme) : Ident := ⟨l.span, l.text⟩

end Lexeme

namespace Rule

def at? (punct : String) : Rule Bool := return (← lexeme).isPunct punct

def atAny? (puncts : List String) : Rule Bool := do
  let l ← lexeme
  return l.kind == .punct && puncts.contains l.text

def atWord? (word : String) : Rule Bool := return (← lexeme).isWord word

def eat? (punct : String) : Rule Bool := do
  if ← at? punct then
    advance
    return true
  return false

def eatWord? (word : String) : Rule Bool := do
  if ← atWord? word then
    advance
    return true
  return false

def expect (punct : String) : Rule Unit := do require (← eat? punct)

def expectWord (word : String) : Rule Unit := do require (← eatWord? word)

/-- A statement may end here without a semicolon. -/
def atLineEnd? : Rule Bool := do
  let l ← lexeme
  return l.newlineBefore || l.kind == .endOfText || l.isPunct "\x7d"

def semicolon : Rule Unit := do
  unless ← eat? ";" do require (← atLineEnd?)

def typed? : Rule Bool := return (← setting).isTyped

/-- The elements up to and with the punctuator that closes them, with commas between them. -/
def commaListFrom {α : Type} (close : String) (element : Rule α) : Nat → Rule (List α)
  | 0 => failure
  | fuel + 1 => do
    if ← eat? close then return []
    let a ← element
    if ← eat? close then return [a]
    expect ","
    return a :: (← commaListFrom close element fuel)

def commaList {α : Type} (close : String) (element : Rule α) : Rule (List α) := do
  commaListFrom close element (← setting).fuel

/-- The elements up to and with the punctuator that closes them. -/
def listFrom {α : Type} (close : String) (element : Rule α) : Nat → Rule (List α)
  | 0 => failure
  | fuel + 1 => do
    if ← eat? close then return []
    let a ← element
    return a :: (← listFrom close element fuel)

def list {α : Type} (close : String) (element : Rule α) : Rule (List α) := do
  listFrom close element (← setting).fuel

/-- One element or more, each but the first after a separator. -/
def sepByFrom {α : Type} (separator : String) (element : Rule α) : Nat → Rule (List α)
  | 0 => failure
  | fuel + 1 => do
    let a ← element
    if ← eat? separator then return a :: (← sepByFrom separator element fuel)
    return [a]

def sepBy {α : Type} (separator : String) (element : Rule α) : Rule (List α) := do
  sepByFrom separator element (← setting).fuel

end Rule

def reservedWords : List String :=
  ["break", "case", "catch", "class", "const", "continue", "debugger", "default", "delete", "do",
   "else", "enum", "export", "extends", "false", "finally", "for", "function", "if", "import", "in",
   "instanceof", "new", "null", "return", "super", "switch", "this", "throw", "true", "try",
   "typeof", "var", "void", "while", "with",
   "implements", "interface", "let", "package", "private", "protected", "public", "static", "yield",
   "await"]

def isReserved (word : String) : Bool := reservedWords.contains word

namespace Lexeme

def isName (l : Lexeme) : Bool := l.kind == .word && !isReserved l.text

def startsKey (l : Lexeme) : Bool :=
  match l.kind with
  | .word | .string | .number | .privateName => true
  | _ => l.isPunct "["

end Lexeme

namespace Rule

def word : Rule Ident := do
  let l ← lexeme
  require (l.kind == .word)
  advance
  return l.ident

def name : Rule Ident := do
  let l ← lexeme
  require l.isName
  advance
  return l.ident

def bindingName : Rule Ident := do
  let i ← name
  require (i.name != "eval" && i.name != "arguments")
  return i

def stringLit : Rule StringLit := do
  let l ← lexeme
  require (l.kind == .string)
  advance
  return ⟨l.span, String.ofList (unquote l.text.toList)⟩

/-- The code in a template whose text begins at an offset. -/
def templateFrom {α : Type} (tagged : Bool) (code : Rule α) : Nat → Nat → Text → Rule (List α)
  | 0, _, _ => failure
  | fuel + 1, offset, text => do
    let (n, ending) ← ofOption (templateTextLength tagged text.length text)
    let stop := offset + Text.size (text.take n)
    resume stop (text.drop n)
    if ending == .close then return []
    let a ← code
    require (← at? "\x7d")
    let p ← get
    return a :: (← templateFrom tagged code fuel p.lexeme.span.stop p.after)

def template {α : Type} (tagged : Bool) (code : Rule α) : Rule (List α) := do
  let p ← get
  require (p.lexeme.kind == .template)
  templateFrom tagged (bracketed code) (← setting).fuel p.lexeme.span.stop p.after

end Rule
end SfcTsx.Script.Grammar
