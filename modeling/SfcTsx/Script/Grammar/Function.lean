import SfcTsx.Script.Grammar.Type

namespace SfcTsx.Script.Grammar

open Rule

def braced (r : Rules) : Rule (Span × List Stmt) := do
  let start ← start
  expect "\x7b"
  let stmts ← list "\x7d" (r.stmt true)
  return (← spanFrom start, stmts)

def blockBody (r : Rules) (isAsync isGenerator : Bool) : Rule FnBody := do
  let (span, stmts) ← within (·.body isAsync isGenerator) (braced r)
  return .block span stmts

/-- The body of a function that may have none, as a signature does. -/
def fnBody (r : Rules) (isAsync isGenerator : Bool) : Rule FnBody := do
  if ← at? "\x7b" then
    require !(← setting).ambient
    blockBody r isAsync isGenerator
  else
    require (← typed?)
    semicolon
    return .none

/-- Type parameters, parameters, return type and body of a function that began at `start`. -/
def fnRest (r : Rules) (start : Nat) (isAsync isGenerator : Bool) (param : Rule Pat) : Rule Fn := do
  typeParams? r
  expect "("
  let params ← within (fun s => { s with isAsync, isGenerator }) (paramList param)
  returnType? r
  let body ← fnBody r isAsync isGenerator
  return ⟨← spanFrom start, none, isAsync, false, params, body⟩

/-- A function from the word `function` on. A declaration needs a name and may lack a body. -/
def function (r : Rules) (start : Nat) (isAsync isDeclaration : Bool) : Rule Fn := do
  expectWord "function"
  let isGenerator ← eat? "*"
  let ident ←
    if (← lexeme).isName then some <$> bindingName
    else do
      require !isDeclaration
      pure none
  let fn ← bracketed (fnRest r start isAsync isGenerator (formalParam r))
  return { fn with ident }

def functionExpr (r : Rules) (start : Nat) (isAsync : Bool) : Rule Fn := do
  let fn ← within (fun s => { s with ambient := false }) (function r start isAsync false)
  match fn.body with
  | .none => failure
  | _ => return fn

def arrowBody (r : Rules) (start : Nat) (isAsync : Bool) (params : List Pat) : Rule Fn := do
  let l ← lexeme
  require (l.isPunct "=>" && !l.newlineBefore)
  advance
  let body ←
    if ← at? "\x7b" then blockBody r isAsync false
    else
      let o ← within (fun s => { s with inFunction := true, isAsync, isGenerator := false }) r.assign
      pure (.expr o.expr)
  return ⟨← spanFrom start, none, isAsync, true, params, body⟩

/-- An arrow function from its opening parenthesis on. In the middle of a conditional a colon may be
that of the conditional, so there a return type counts only if another colon follows the function. -/
def arrowFn (r : Rules) (start : Nat) (isAsync : Bool) (param : Rule Pat) : Rule Fn := do
  expect "("
  let params ← paramList param
  if (← typed?) && (← at? ":") then
    advance
    returnType r
    let fn ← arrowBody r start isAsync params
    if (← setting).colonFollows then require (← at? ":")
    return fn
  arrowBody r start isAsync params

def genericArrow (r : Rules) (start : Nat) (isAsync : Bool) : Rule Fn := do
  require (← typed?)
  require (← at? "<")
  typeParams? r
  arrowFn r start isAsync (if isAsync then formalParam r else arrowParam r)

def arrow? (r : Rules) : Rule (Option Fn) := do
  let l ← lexeme
  let start := l.span.start
  if l.isPunct "(" then attempt (arrowFn r start false (arrowParam r))
  else if l.kind == .word then
    let next ← peek
    if l.isWord "async" && !next.newlineBefore then
      if next.isPunct "(" then
        return ← attempt do
          advance
          arrowFn r start true (arrowParam r)
      if next.isPunct "<" then
        return ← attempt do
          advance
          genericArrow r start true
      if next.isName then
        return ← attempt do
          advance
          let i ← bindingName
          arrowBody r start true [.ident i none]
    if next.isPunct "=>" && l.isName then
      let i ← bindingName
      some <$> arrowBody r start false [.ident i none]
    else return none
  else return none

end SfcTsx.Script.Grammar
