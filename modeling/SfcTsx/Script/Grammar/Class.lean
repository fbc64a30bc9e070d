import SfcTsx.Script.Grammar.Expr

namespace SfcTsx.Script.Grammar

open Rule

def decorator (r : Rules) : Rule Expr := do
  expect "@"
  let start ← start
  let head ←
    if ← eat? "(" then
      let o ← bracketed (expression r)
      expect ")"
      pure o
    else
      let o : Operand := { expr := .ident (← name) }
      subscripts r start false true o
  if ← at? "(" then
    let args ← callArgs r
    return .call (← spanFrom head.expr.span.start) head.expr none args
  return head.expr

def decoratorsFrom (r : Rules) : Nat → Rule (List Expr)
  | 0 => failure
  | fuel + 1 => do
    if ← at? "@" then
      let d ← decorator r
      return d :: (← decoratorsFrom r fuel)
    return []

def decorators (r : Rules) : Rule (List Expr) := do decoratorsFrom r (← setting).fuel

structure Modifiers where
  isStatic : Bool := false
  isAbstract : Bool := false
  isReadonly : Bool := false
  isDeclare : Bool := false
  isAccessor : Bool := false
  access : Bool := false

/-- The lexeme after a word shows that the word is no modifier but a name. -/
def endsName (typed : Bool) (next : Lexeme) : Bool :=
  next.kind == .endOfText || ["(", "=", ";", "\x7d"].any next.isPunct ||
    typed && ["<", ":", "!", "?", ","].any next.isPunct

def modifiersFrom : Nat → Modifiers → Rule Modifiers
  | 0, _ => failure
  | fuel + 1, m => do
    let l ← lexeme
    let next ← peek
    let typed ← typed?
    if l.kind != .word || endsName typed next then return m
    let onLine := typed && !next.newlineBefore
    let go (m : Modifiers) : Rule Modifiers := do
      advance
      modifiersFrom fuel m
    match l.text with
    | "static" => if m.isStatic then failure else go { m with isStatic := true }
    | "declare" => if onLine then go { m with isDeclare := true } else return m
    | "public" | "private" | "protected" =>
      if !onLine then return m
      else if m.access then failure
      else go { m with access := true }
    | "abstract" => if onLine then go { m with isAbstract := true } else return m
    | "readonly" => if onLine then go { m with isReadonly := true } else return m
    | "override" => if onLine then go m else return m
    | "accessor" => if onLine then go { m with isAccessor := true } else return m
    | _ => return m

def methodParam (r : Rules) : Rule Pat := do
  let _ ← decorators r
  formalParam r

/-- A parameter of a constructor, maybe with decorators and modifiers. -/
def constructorParam (r : Rules) : Rule Pat := do
  let _ ← decorators r
  let modifiers := ["public", "private", "protected", "readonly", "override"]
  let isModifier : Rule Bool := do
    let next ← peek
    return (← typed?) && modifiers.contains (← lexeme).text &&
      (next.kind == .word || next.isPunct "\x7b" || next.isPunct "[")
  if ← isModifier then advance
  if ← isModifier then advance
  if ← isModifier then advance
  formalParam r

/-- The key of a member of a class; `none` is a private name. -/
def memberName (r : Rules) : Rule (Option PropKey) := do
  let l ← lexeme
  if l.kind == .privateName then
    require (l.text != "#constructor")
    advance
    return none
  some <$> propKey r

def keyParts (key : Option PropKey) : List Expr := (key.map PropKey.parts).getD []

def keyWord (key : Option PropKey) : Option String :=
  match key with
  | some (.ident i) => some i.name
  | _ => none

def isConstructorKey (key : Option PropKey) : Bool :=
  match key with
  | some (.ident i) => i.name == "constructor"
  | some (.string l) => l.value == "constructor"
  | _ => false

/-- A member of a class: the expressions in it, and whether it is a constructor with a body. -/
structure Member where
  exprs : List Expr
  isConstructor : Bool := false

def method (r : Rules) (start : Nat) (key : Option PropKey) (isAsync isGenerator : Bool) :
    Rule Member := do
  let fn ← bracketed (fnRest r start isAsync isGenerator (methodParam r))
  return { exprs := keyParts key ++ [.fn fn] }

/-- A constructor from its parameters on; the tree does not keep them. -/
def constructor (r : Rules) (start : Nat) : Rule Member := do
  expect "("
  let _ ← paramList (constructorParam r)
  let body ← fnBody r false false
  let hasBody := match body with
    | .none => false
    | _ => true
  return { exprs := [.fn ⟨← spanFrom start, none, false, false, [], body⟩], isConstructor := hasBody }

def property (r : Rules) (key : Option PropKey) (decorators : List Expr) : Rule Member := do
  require !(isConstructorKey key)
  if ← typed? then
    let _ ← eat? "!"
  let _ ← typeAnnotation? r
  let value ← defaultValue? r
  semicolon
  return { exprs := keyParts key ++ value.toList ++ decorators }

def memberRest (r : Rules) (start : Nat) (m : Modifiers) (decorators : List Expr) : Rule Member := do
  let typed ← typed?
  let opensMethod (l : Lexeme) : Bool := l.isPunct "(" || typed && l.isPunct "<"
  if ← eat? "*" then
    let key ← memberName r
    require (!m.isReadonly && (m.isStatic || !isConstructorKey key))
    return ← method r start key false true
  let key ← memberName r
  if typed then
    let _ ← eat? "?"
  let l ← lexeme
  if opensMethod l then
    require (!m.isReadonly && !m.isDeclare)
    if isConstructorKey key && !m.isStatic then return ← constructor r start
    return ← method r start key false false
  let endsProperty := ["=", "\x7d", ";"].any l.isPunct || typed && ["!", ":"].any l.isPunct
  match keyWord key with
  | some "async" =>
    if !endsProperty && !l.newlineBefore && l.kind != .endOfText then
      let isGenerator ← eat? "*"
      let key ← memberName r
      require (!m.isReadonly && (m.isStatic || !isConstructorKey key))
      if typed then
        let _ ← eat? "?"
      return ← method r start key true isGenerator
  | some word =>
    if (word == "get" || word == "set") && !endsProperty && !(l.newlineBefore && l.isPunct "*") then
      let key ← memberName r
      require (!m.isReadonly && (m.isStatic || !isConstructorKey key))
      let fn ← bracketed (fnRest r start false false (methodParam r))
      let _ ← ofOption (accessorParams (word == "get") fn.params)
      return { exprs := keyParts key ++ [.fn fn] }
  | none => pure ()
  property r key decorators

/-- A member of a class. A lone semicolon is none. -/
def member (r : Rules) : Rule Member := do
  if ← eat? ";" then return { exprs := [] }
  let start ← start
  let decorators ← decorators r
  let m ← modifiersFrom (← setting).fuel {}
  if m.isStatic && (← at? "\x7b") then
    let (span, stmts) ← within (fun s => { s.body false false with ambient := false }) (braced r)
    return { exprs := [.fn ⟨← spanFrom start, none, false, false, [], .block span stmts⟩] }
  if (← typed?) && (← at? "[") then
    let signature : Rule Unit := do
      indexSignature r
      semicolon
    if (← attempt signature).isSome then return { exprs := [] }
  memberRest r start m decorators

def heritage (r : Rules) : Rule Expr := do
  let start ← start
  let i ← word
  let o ← subscripts r start true true { expr := .ident i }
  match o.form with
  | .applied inner => return inner
  | _ =>
    if ← at? "<" then
      let _ ← typeArgs r
    match o.expr with
    | .ident _ | .member .. => return o.expr
    | _ => failure

def superClass (r : Rules) : Rule Expr := do
  let o ← bracketed (leftHandSide r)
  match o.form with
  | .applied inner => return inner
  | _ =>
    if (← typed?) && (← at? "<") then
      let _ ← typeArgs r
    return o.expr

/-- A class from the word `class` on: its name and the expressions in it. -/
def classRest (r : Rules) (decorators : List Expr) (needsName : Bool) :
    Rule (Option Ident × List Expr) := do
  expectWord "class"
  let l ← lexeme
  let ident ← if l.isName then some <$> bindingName else pure none
  require (ident.isSome || !needsName)
  typeParams? r
  let parent ← if ← eatWord? "extends" then some <$> superClass r else pure none
  let types ← if (← typed?) && (← eatWord? "implements") then sepBy "," (heritage r) else pure []
  expect "\x7b"
  let members ← bracketed (list "\x7d" (member r))
  require ((members.filter Member.isConstructor).length ≤ 1)
  return (ident, decorators ++ members.flatMap Member.exprs ++ parent.toList ++ types)

def classExpr (r : Rules) : Rule Expr := do
  let start ← start
  let decorators ← decorators r
  let (_, exprs) ← classRest r decorators false
  return .other (← spanFrom start) exprs

end SfcTsx.Script.Grammar
