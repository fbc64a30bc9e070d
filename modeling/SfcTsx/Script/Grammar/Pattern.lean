import SfcTsx.Script.Grammar.Rule

namespace SfcTsx.Script

def PropKey.parts : PropKey → List Expr
  | .computed e => [e]
  | _ => []

def Pat.typed (p : Pat) (type : Option Span) : Pat :=
  match p with
  | .ident i _ => .ident i type
  | .object s props _ => .object s props type
  | .array s elems _ => .array s elems type
  | p => p

/-- Gives a pattern other than a name the span that its type ends. -/
def Pat.widened (p : Pat) (span : Span) : Pat :=
  match p with
  | .object _ props type => .object span props type
  | .array _ elems type => .array span elems type
  | p => p

namespace Grammar

open Rule

def propKey (r : Rules) : Rule PropKey := do
  let l ← lexeme
  match l.kind with
  | .word =>
    advance
    return .ident l.ident
  | .string => return .string (← stringLit)
  | .number =>
    advance
    return .number ⟨l.span, .number, l.text⟩
  | _ =>
    expect "["
    let o ← bracketed r.assign
    expect "]"
    return .computed o.expr

def typeAnnotation (r : Rules) : Rule Span := do
  let start ← start
  expect ":"
  r.type
  spanFrom start

def typeAnnotation? (r : Rules) : Rule (Option Span) := do
  if (← typed?) && (← at? ":") then return some (← typeAnnotation r)
  return none

def defaultValue? (r : Rules) : Rule (Option Expr) := do
  if ← eat? "=" then return some (← bracketed r.assign).expr
  return none

def withDefault (start : Nat) (p : Pat) (value : Option Expr) : Rule Pat := do
  match value with
  | some e => return .assign (← spanFrom start) p e
  | none => return p

def patternElement (r : Rules) (arrow : Bool) : Rule Pat := do
  let start ← start
  let p ← r.pattern arrow
  withDefault start p (← defaultValue? r)

def arrayPatternFrom (r : Rules) (arrow : Bool) : Nat → Rule (List (Option Pat))
  | 0 => failure
  | fuel + 1 => do
    if ← eat? "]" then return []
    if ← eat? "," then return none :: (← arrayPatternFrom r arrow fuel)
    let start ← start
    if ← eat? "..." then
      let arg ← r.pattern arrow
      let span ← spanFrom start
      expect "]"
      return [some (.rest span arg)]
    let p ← patternElement r arrow
    if ← eat? "]" then return [some p]
    expect ","
    return some p :: (← arrayPatternFrom r arrow fuel)

def dropTrailingHoles {α : Type} (elems : List (Option α)) : List (Option α) :=
  (elems.reverse.dropWhile Option.isNone).reverse

def patternProp (r : Rules) (arrow : Bool) : Rule PatProp := do
  let start ← start
  if ← eat? "..." then
    let arg ← r.pattern arrow
    require (← at? "\x7d")
    return .rest (← spanFrom start) arg
  let l ← lexeme
  if l.kind == .word && !(← peek).isPunct ":" then
    let key ← bindingName
    let value ← defaultValue? r
    return .shorthand (← spanFrom start) key value
  let key ← propKey r
  expect ":"
  let value ← patternElement r arrow
  return .keyValue (key.span.cover value.span) key value

def pattern (r : Rules) (arrow : Bool) : Rule Pat := do
  let start ← start
  if ← eat? "\x7b" then
    let props ← commaList "\x7d" (patternProp r arrow)
    return .object (← spanFrom start) props none
  if ← eat? "[" then
    let elems ← arrayPatternFrom r arrow (← setting).fuel
    return .array (← spanFrom start) (if arrow then dropTrailingHoles elems else elems) none
  return .ident (← bindingName) none

/-- The name of a parameter; a typed function can name the type of `this`. -/
def parameterPattern (r : Rules) (arrow : Bool) : Rule Pat := do
  let l ← lexeme
  if l.isWord "this" && (← typed?) then
    advance
    return .ident l.ident none
  r.pattern arrow

/-- A parameter of a function. A type widens the span of an object or array pattern. -/
def formalParam (r : Rules) : Rule Pat := do
  let start ← start
  if ← eat? "..." then
    let arg ← r.pattern false
    let _ ← typeAnnotation? r
    require (← at? ")")
    return .rest (← spanFrom start) arg
  let p ← parameterPattern r false
  let optional ← if ← typed? then eat? "?" else pure false
  let type ← typeAnnotation? r
  let span ← spanFrom start
  let p := if type.isSome then (p.typed type).widened span else p
  let value ← defaultValue? r
  require !(optional && value.isSome)
  withDefault start p value

/-- A parameter of an arrow function. A type or question mark widens every span, also that of a
name; a rest parameter without a type has the span of what it binds. -/
def arrowParam (r : Rules) : Rule Pat := do
  let place ← get
  let start := place.lexeme.span.start
  if ← eat? "..." then
    let arg ← r.pattern true
    let type ← typeAnnotation? r
    require (← at? ")")
    let span ← spanFrom start
    return .rest (if type.isSome then span else arg.span) arg
  let p ← parameterPattern r true
  let optional ← if ← typed? then eat? "?" else pure false
  let type ← typeAnnotation? r
  let span ← spanFrom start
  let p :=
    if optional || type.isSome then
      match p with
      | .ident _ _ =>
        .ident ⟨span, String.ofList ((Text.take? span.len place.here).getD [])⟩ type
      | p => (p.typed type).widened span
    else p
  let value ← defaultValue? r
  require !(optional && value.isSome)
  withDefault start p value

def paramList (param : Rule Pat) : Rule (List Pat) := bracketed (commaList ")" param)

end Grammar
end SfcTsx.Script
