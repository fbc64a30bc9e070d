import SfcTsx.Script.Grammar.Class

namespace SfcTsx.Script.Grammar

open Rule

/-- One variable. A constant and a pattern need an initial value, unless the declaration is ambient
or the variable is that of a loop. -/
def declarator (r : Rules) (kind : VarKind) (inLoop : Bool) : Rule Declarator := do
  let start ← start
  let p ← r.pattern false
  let isName := match p with
    | .ident .. => true
    | _ => false
  if isName && (← typed?) then
    let _ ← eat? "!"
  let p := p.typed (← typeAnnotation? r)
  let ofLoop ← if inLoop then (return (← atWord? "of") || (← atWord? "in")) else pure false
  if ofLoop then return ⟨← spanFrom start, p, none⟩
  if ← eat? "=" then
    let o ← within (fun s => { s with colonFollows := false }) r.assign
    return ⟨← spanFrom start, p, some o.expr⟩
  require ((← setting).ambient || (isName && kind != .const))
  return ⟨← spanFrom start, p, none⟩

def declarators (r : Rules) (kind : VarKind) (inLoop : Bool) : Rule (List Declarator) :=
  sepBy "," (declarator r kind inLoop)

def varKind? (l : Lexeme) : Option VarKind :=
  if l.isWord "const" then some .const
  else if l.isWord "let" then some .let
  else if l.isWord "var" then some .var
  else none

def varDecl (r : Rules) (start : Nat) (declare : Bool) : Rule Item := do
  let kind ← ofOption (varKind? (← lexeme))
  advance
  let ds ← declarators r kind false
  semicolon
  return {
    stmt := .varDecl (← spanFrom start) kind declare ds
    exprs := ds.filterMap Declarator.init }

def fnDecl (r : Rules) (start : Nat) (isAsync : Bool) : Rule Item := do
  let fn ← function r start isAsync true
  return { stmt := .fn fn, exprs := [.fn { fn with ident := none }] }

def classDecl (r : Rules) (start : Nat) (decorators : List Expr) : Rule Item := do
  let (ident, exprs) ← classRest r decorators true
  return { stmt := .classDecl (← spanFrom start) ident exprs, exprs }

def enumMember (r : Rules) : Rule (Option Expr) := do
  let l ← lexeme
  require (l.kind == .word || l.kind == .string)
  advance
  defaultValue? r

def enumDecl (r : Rules) (start : Nat) (isConst declare : Bool) : Rule Item := do
  expectWord "enum"
  let ident ← word
  expect "\x7b"
  let inits ← bracketed (commaList "\x7d" (enumMember r))
  return {
    stmt := .enumDecl ⟨← spanFrom start, ident, isConst, declare⟩, exprs := inits.filterMap id }

def interfaceDecl (r : Rules) (start : Nat) : Rule Item := do
  expectWord "interface"
  let ident ← word
  typeParams? r
  let parents ← if ← eatWord? "extends" then sepBy "," (heritage r) else pure []
  let keys ← typeMembers r
  return { stmt := .typeDecl ⟨← spanFrom start, .interface, ident⟩, exprs := parents ++ keys }

def aliasDecl (r : Rules) (start : Nat) : Rule Item := do
  expectWord "type"
  let ident ← word
  typeParams? r
  expect "="
  r.type
  semicolon
  return { stmt := .typeDecl ⟨← spanFrom start, .alias, ident⟩ }

def namespaceBody (r : Rules) : Rule (List Item) := do
  expect "\x7b"
  bracketed (list "\x7d" r.item)

def namespaceItem (span : Span) (items : List Item) : Item :=
  let stmts := items.flatMap Item.stmts
  let exprs := items.flatMap Item.exprs
  { stmt := .other span stmts exprs, stmts, exprs }

def namespaceDecl (r : Rules) (start : Nat) : Rule Item := do
  let _ ← name
  qualifiersFrom (← setting).fuel
  let items ← namespaceBody r
  return namespaceItem (← spanFrom start) items

/-- A module that is named by a string, from that on; it may have no body. -/
def externalModule (r : Rules) (start : Nat) : Rule Item := do
  let _ ← stringLit
  let items ← if ← at? "\x7b" then namespaceBody r else do
    semicolon
    pure []
  return namespaceItem (← spanFrom start) items

/-- The declaration that begins with a word which is none by itself. `forced` if something in front
of the word makes it one. -/
def contextualDecl? (r : Rules) (start : Nat) (declare forced : Bool) : Rule (Option Item) := do
  let l ← lexeme
  let next ← peek
  let named := next.kind == .word && (forced || !next.newlineBefore)
  match l.text with
  | "abstract" =>
    if next.isWord "class" && !next.newlineBefore then
      advance
      some <$> classDecl r start []
    else return none
  | "interface" => if named then some <$> interfaceDecl r start else return none
  | "type" => if named then some <$> aliasDecl r start else return none
  | "enum" => if named then some <$> enumDecl r start false declare else return none
  | "namespace" =>
    if next.isName && (forced || !next.newlineBefore) then
      advance
      some <$> namespaceDecl r start
    else return none
  | "module" =>
    if next.newlineBefore then return none
    else if next.kind == .string then
      advance
      some <$> externalModule r start
    else if next.isName then
      advance
      some <$> namespaceDecl r start
    else return none
  | "global" =>
    if next.isPunct "\x7b" then
      advance
      let items ← namespaceBody r
      return some (namespaceItem (← spanFrom start) items)
    else return none
  | _ => return none

def keywordDecl? (r : Rules) (start : Nat) (declare : Bool) : Rule (Option Item) := do
  let l ← lexeme
  let next ← peek
  let typed ← typed?
  match l.text with
  | "function" => some <$> fnDecl r start false
  | "class" => some <$> classDecl r start []
  | "async" =>
    if next.isWord "function" && !next.newlineBefore then
      advance
      some <$> fnDecl r start true
    else return none
  | "const" =>
    if typed && next.isWord "enum" then
      advance
      some <$> enumDecl r start true declare
    else some <$> varDecl r start declare
  | "let" | "var" => some <$> varDecl r start declare
  | _ => return none

/-- The declaration behind the word `declare`, which is part of it. -/
def ambientDecl? (r : Rules) (start : Nat) : Rule (Option Item) := do
  advance
  within (fun s => { s with ambient := true }) do
    if (← lexeme).isWord "async" then return none
    match ← keywordDecl? r start true with
    | some item => return some item
    | none => contextualDecl? r start true true

def declaration? (r : Rules) (forced : Bool) : Rule (Option Item) := do
  let l ← lexeme
  let start := l.span.start
  if l.isPunct "@" then
    let decorators ← decorators r
    if (← typed?) && (← atWord? "abstract") then advance
    return some (← classDecl r start decorators)
  if l.kind != .word then return none
  if let some item ← keywordDecl? r start false then return some item
  unless ← typed? do return none
  if l.text == "declare" then
    let next ← peek
    if next.kind == .word && !next.newlineBefore then
      let place ← get
      match ← ambientDecl? r start with
      | some item => return some item
      | none =>
        set place
        return none
    return none
  contextualDecl? r start false forced

end SfcTsx.Script.Grammar
