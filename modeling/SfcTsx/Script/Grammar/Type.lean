import SfcTsx.Script.Grammar.Pattern

namespace SfcTsx.Script.Grammar

open Rule

def typeArgs (r : Rules) : Rule Span := do
  let start ← start
  expect "<"
  let types ← commaList ">" r.type
  require !types.isEmpty
  spanFrom start

/-- A modifier of a type parameter is a word in front of another word. -/
def typeParam (r : Rules) : Rule Unit := do
  let modifiers := ["const", "in", "out"]
  let isModifier : Rule Bool := do
    let next ← peek
    return modifiers.contains (← lexeme).text && next.kind == .word && !next.isWord "extends"
  if ← isModifier then advance
  if ← isModifier then advance
  let _ ← word
  if ← eatWord? "extends" then r.type
  if ← eat? "=" then r.type

def typeParams? (r : Rules) : Rule Unit := do
  if (← typed?) && (← eat? "<") then
    let _ ← commaList ">" (typeParam r)

def qualifiersFrom : Nat → Rule Unit
  | 0 => failure
  | fuel + 1 => do
    if ← eat? "." then
      if (← lexeme).kind == .privateName then advance else let _ ← word
      qualifiersFrom fuel

def typeReferenceTail (r : Rules) : Rule Unit := do
  qualifiersFrom (← setting).fuel
  let l ← lexeme
  if l.isPunct "<" && !l.newlineBefore then
    let _ ← typeArgs r

/-- A type that a function returns: it may also say of what type a parameter then is. -/
def returnType (r : Rules) : Rule Unit := do
  let predicate : Rule Unit := do
    let asserts := (← lexeme).isWord "asserts"
    let next ← peek
    if asserts && next.kind == .word && !next.isWord "is" && !next.newlineBefore then
      advance
      let subject ← word
      require (!isReserved subject.name || subject.name == "this")
      let l ← lexeme
      if l.isWord "is" && !l.newlineBefore then
        advance
        r.type
    else
      let subject ← word
      require (!isReserved subject.name || subject.name == "this")
      let l ← lexeme
      require (l.isWord "is" && !l.newlineBefore)
      advance
      r.type
  if (← attempt predicate).isNone then r.type

def returnType? (r : Rules) : Rule Unit := do
  if (← typed?) && (← eat? ":") then returnType r

def signature (r : Rules) : Rule Unit := do
  typeParams? r
  expect "("
  let _ ← paramList (formalParam r)
  returnType? r

def indexSignature (r : Rules) : Rule Unit := do
  expect "["
  let _ ← word
  let _ ← typeAnnotation r
  expect "]"
  let _ ← typeAnnotation? r

def memberEnd : Rule Unit := do
  unless ← eat? "," do semicolon

def memberKey (r : Rules) : Rule Expr := do
  match ← propKey r with
  | .ident i => return .ident i
  | .string l =>
    return .lit ⟨l.span, .string, l.value⟩
  | .number l => return .lit l
  | .computed e => return e

/-- A member of an interface or object type: the expression that names it. -/
def typeMember (r : Rules) : Rule (List Expr) := do
  let opensSignature (l : Lexeme) : Bool := l.isPunct "(" || l.isPunct "<"
  let l ← lexeme
  let next ← peek
  if opensSignature l || l.isWord "new" && opensSignature next then
    let _ ← eatWord? "new"
    signature r
    memberEnd
    return []
  if l.isWord "readonly" && next.startsKey && !next.newlineBefore then advance
  if ← at? "[" then
    if (← attempt (indexSignature r)).isSome then
      memberEnd
      return []
  let l ← lexeme
  if (l.isWord "get" || l.isWord "set") && (← peek).startsKey then advance
  let key ← memberKey r
  let _ ← eat? "?"
  if opensSignature (← lexeme) then signature r
  else
    let _ ← typeAnnotation? r
  memberEnd
  return [key]

def typeMembers (r : Rules) : Rule (List Expr) := do
  expect "\x7b"
  let members ← list "\x7d" (typeMember r)
  return members.flatten

def mappedSign? : Rule Bool := do
  if ← eat? "+" then return true
  eat? "-"

def mappedType (r : Rules) : Rule Unit := do
  expect "\x7b"
  if ← mappedSign? then expectWord "readonly"
  else if (← atWord? "readonly") && (← peek).isPunct "[" then advance
  expect "["
  let _ ← word
  expectWord "in"
  r.type
  if ← eatWord? "as" then r.type
  expect "]"
  if ← mappedSign? then expect "?" else let _ ← eat? "?"
  let _ ← typeAnnotation? r
  semicolon
  expect "\x7d"

def tupleElement (r : Rules) : Rule Unit := do
  let _ ← eat? "..."
  let named : Rule Unit := do
    let _ ← word
    let _ ← eat? "?"
    expect ":"
  let _ ← attempt named
  r.type
  let _ ← eat? "?"

def importType (r : Rules) : Rule Unit := do
  expectWord "import"
  expect "("
  let _ ← stringLit
  if ← eat? "," then
    let _ ← bracketed r.assign
    let _ ← eat? ","
  expect ")"
  typeReferenceTail r

def primaryType (r : Rules) : Rule Unit := do
  let l ← lexeme
  match l.kind with
  | .word =>
    if l.text == "typeof" then
      advance
      if ← atWord? "import" then importType r
      else
        let _ ← word
        typeReferenceTail r
    else if l.text == "import" then importType r
    else if ["void", "null", "true", "false", "this"].contains l.text then advance
    else
      let _ ← name
      typeReferenceTail r
  | .string | .number => advance
  | .template =>
    let _ ← template false r.type
  | .punct =>
    match l.text with
    | "-" =>
      advance
      require ((← lexeme).kind == .number)
      advance
    | "\x7b" =>
      if (← attempt (mappedType r)).isNone then
        let _ ← typeMembers r
    | "[" =>
      advance
      let _ ← commaList "]" (tupleElement r)
    | "(" =>
      advance
      r.type
      expect ")"
    | _ => failure
  | _ => failure

/-- What can stand behind a type: brackets for an array or for one of its members. -/
def typeSuffixesFrom (r : Rules) : Nat → Rule Unit
  | 0 => failure
  | fuel + 1 => do
    let l ← lexeme
    if l.isPunct "[" && !l.newlineBefore then
      advance
      unless ← eat? "]" do
        r.type
        expect "]"
      typeSuffixesFrom r fuel

/-- A constraint of an inferred type, where the question mark of a conditional does not follow. -/
def inferConstraint (outer : Setting) (union : Rule Unit) : Rule Unit := do
  expectWord "extends"
  within (fun s => { s with noConditional := true }) union
  require (outer.noConditional || !(← at? "?"))

def operatorTypeFrom (r : Rules) (union : Rule Unit) : Nat → Rule Unit
  | 0 => failure
  | fuel + 1 => do
    let l ← lexeme
    let next ← peek
    let isOperator := ["keyof", "unique", "readonly"].contains l.text &&
      (next.kind == .word || next.kind == .string || next.kind == .template ||
        next.isPunct "\x7b" || next.isPunct "[" || next.isPunct "(") && !next.isWord "extends"
    if l.kind == .word && isOperator then
      advance
      operatorTypeFrom r union fuel
    else if l.isWord "infer" && next.kind == .word then
      advance
      let _ ← word
      let _ ← attempt (inferConstraint (← setting) union)
    else
      primaryType r
      typeSuffixesFrom r (← setting).fuel

def operatorList (operator : String) (element : Rule Unit) : Rule Unit := do
  let _ ← eat? operator
  let _ ← sepBy operator element

/-- A union of intersections, down to a number of unions inside. -/
def unionTypeFrom (r : Rules) : Nat → Rule Unit
  | 0 => failure
  | fuel + 1 => do
    operatorList "|" (operatorList "&" (operatorTypeFrom r (unionTypeFrom r fuel) (← setting).fuel))

def functionType (r : Rules) : Rule Unit := do
  if ← eatWord? "abstract" then expectWord "new"
  else
    let _ ← eatWord? "new"
  typeParams? r
  expect "("
  let _ ← paramList (formalParam r)
  expect "=>"
  returnType r

def plainType (r : Rules) : Rule Unit := do
  let l ← lexeme
  let mayBeFunction := l.isPunct "(" || l.isPunct "<" || l.isWord "new" ||
    l.isWord "abstract" && (← peek).isWord "new"
  if mayBeFunction then
    if (← attempt (functionType r)).isSome then return
  unionTypeFrom r (← setting).fuel

def type (r : Rules) : Rule Unit := within (fun s => { s with noConditional := false }) do
  plainType r
  let l ← lexeme
  if l.isWord "extends" && !l.newlineBefore then
    advance
    within (fun s => { s with noConditional := true }) (plainType r)
    expect "?"
    r.type
    expect ":"
    r.type

end SfcTsx.Script.Grammar
