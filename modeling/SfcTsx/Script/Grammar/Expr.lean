import SfcTsx.Script.Grammar.Function

namespace SfcTsx.Script

def Expr.withoutDots : Expr → Expr
  | .spread _ e => e
  | e => e

namespace Grammar

open Rule

def expression (r : Rules) : Rule Operand := do
  let first ← r.assign
  if ← eat? "," then
    let rest ← sepBy "," r.assign
    let exprs := first.expr :: rest.map Operand.expr
    return { expr := .other (← spanFrom first.expr.span.start) exprs, form := .closed }
  return first

def spreadable (r : Rules) : Rule (Operand × Bool) := do
  let start ← start
  if ← eat? "..." then
    let o ← r.assign
    return ({ o with expr := .spread ⟨start, o.expr.span.stop⟩ o.expr }, true)
  return (← r.assign, false)

def callArgs (r : Rules) : Rule (List Expr) := do
  expect "("
  let args ← bracketed (commaList ")" (spreadable r))
  return args.map (·.1.expr)

def paren (r : Rules) : Rule Operand := do
  let start ← start
  expect "("
  let first ← bracketed r.assign
  let rest ← if ← eat? "," then bracketed (sepBy "," r.assign) else pure []
  let hasDefaults (o : Operand) : Bool := match o.form with
    | .defaults => true
    | _ => false
  require !((first :: rest).any hasDefaults)
  let inner := match rest.getLast? with
    | none => first.expr
    | some last =>
      .other ⟨first.expr.span.start, last.expr.span.stop⟩ (first.expr :: rest.map Operand.expr)
  expect ")"
  let target := match first.target, rest with
    | some (.simple _), [] => some (.simple [first.expr])
    | _, _ => none
  return { expr := .paren (← spanFrom start) inner, target }

/-- The elements of an array literal; `none` is a hole, and with an element goes whether it has
dots. -/
def arrayElementsFrom (r : Rules) : Nat → Rule (List (Option (Operand × Bool)))
  | 0 => failure
  | fuel + 1 => do
    if ← eat? "]" then return []
    if ← eat? "," then return none :: (← arrayElementsFrom r fuel)
    let a ← spreadable r
    if ← eat? "]" then return [some a]
    expect ","
    return some a :: (← arrayElementsFrom r fuel)

/-- The elements of an array can be assigned to; only the last may have dots. -/
def isArrayTarget : List (Option (Operand × Bool)) → Bool
  | [] => true
  | [some (o, _)] => o.isElement
  | none :: rest => isArrayTarget rest
  | some (o, dots) :: rest => o.isElement && !dots && isArrayTarget rest

def arrayLit (r : Rules) : Rule Operand := do
  let start ← start
  expect "["
  let elems ← bracketed (arrayElementsFrom r (← setting).fuel)
  return {
    expr := .array (← spanFrom start) (elems.map (·.map (·.1.expr)))
    target := if isArrayTarget elems then some (.pattern []) else none }

/-- A property of an object literal, with the parts that it has as a property of a pattern. -/
structure PropOperand where
  prop : ObjectProp
  parts : Option (List Expr) := none
  isDefault : Bool := false

def objectMethod (r : Rules) (start : Nat) (key : PropKey) (isAsync isGenerator : Bool) :
    Rule PropOperand := do
  let fn ← bracketed (fnRest r start isAsync isGenerator (formalParam r))
  return { prop := .method fn.span key fn }

def valueParams (params : List Pat) : List Pat :=
  params.filter fun
    | .ident i _ => !(i.name == "this" || "this:".toList.isPrefixOf i.name.toList)
    | _ => true

def accessorParams (isGetter : Bool) (params : List Pat) : Option (List Pat) :=
  match isGetter, valueParams params with
  | true, [] => some []
  | false, [.rest ..] => none
  | false, [p] => some [p]
  | _, _ => none

def objectProp (r : Rules) : Rule PropOperand := do
  let start ← start
  if ← eat? "..." then
    let o ← r.assign
    return {
      prop := .spread ⟨start, o.expr.span.stop⟩ o.expr
      parts := if o.isElement then some [] else none }
  if ← eat? "*" then
    let key ← propKey r
    return ← objectMethod r start key false true
  let l ← lexeme
  let key ← propKey r
  if ← eat? ":" then
    let value ← r.assign
    return {
      prop := .keyValue (← spanFrom start) key value.expr
      parts := if value.isElement then some key.parts else none }
  if (← at? "(") || ((← typed?) && (← at? "<")) then
    return ← objectMethod r start key false false
  let .ident name := key | failure
  if ← atAny? ["=", ",", "\x7d"] then
    require l.isName
    match ← defaultValue? r with
    | some value =>
      return {
        prop := .keyValue (← spanFrom start) key value
        parts := some [value]
        isDefault := true }
    | none => return { prop := .shorthand name, parts := some [] }
  match name.name with
  | "async" =>
    let isGenerator ← eat? "*"
    let key ← propKey r
    objectMethod r start key true isGenerator
  | "get" | "set" =>
    let key ← propKey r
    let fn ← bracketed (fnRest r start false false (formalParam r))
    let params ← ofOption (accessorParams (name.name == "get") fn.params)
    return { prop := .method fn.span key { fn with params } }
  | _ => failure

def patternParts : List PropOperand → Option (List Expr)
  | [] => some []
  | p :: rest => do return (← p.parts) ++ (← patternParts rest)

def objectLit (r : Rules) : Rule Operand := do
  let start ← start
  expect "\x7b"
  let props ← bracketed (commaList "\x7d" (objectProp r))
  return {
    expr := .object (← spanFrom start) (props.map PropOperand.prop)
    target := (patternParts props).map .pattern
    form := if props.any PropOperand.isDefault then .defaults else .plain }

def textFrom (place : Place) (span : Span) : String :=
  String.ofList ((Text.take? span.len place.here).getD [])

def templateLit (r : Rules) : Rule Expr := do
  let place ← get
  let exprs ← template false (expression r)
  let span ← spanFrom place.lexeme.span.start
  if exprs.isEmpty then return .lit ⟨span, .template, textFrom place span⟩
  return .other span (exprs.map Operand.expr)

def regexLit : Rule Expr := do
  let place ← get
  let n ← ofOption (regexLiteralLength (place.here.drop 1))
  let text := place.here.take (n + 1)
  let start := place.lexeme.span.start
  let span : Span := ⟨start, start + Text.size text⟩
  resume span.stop (place.here.drop (n + 1))
  return .lit ⟨span, .regex, String.ofList text⟩

/-- An expression that no operator is part of, other than `new`, `super` and `import`. -/
def primary (r : Rules) : Rule Operand := do
  let l ← lexeme
  let lit (kind : LitKind) : Rule Operand := do
    advance
    return { expr := .lit ⟨l.span, kind, l.text⟩ }
  match l.kind with
  | .number => lit .number
  | .string =>
    let s ← stringLit
    return { expr := .lit ⟨s.span, .string, s.value⟩ }
  | .template => return { expr := ← templateLit r }
  | .privateName =>
    require ((← peek).isWord "in")
    advance
    return { expr := .other l.span [] }
  | .punct =>
    match l.text with
    | "(" => paren r
    | "[" => arrayLit r
    | "\x7b" => objectLit r
    | "/" | "/=" => return { expr := ← regexLit }
    | "@" => return { expr := ← r.classExpr }
    | _ => failure
  | .word =>
    match l.text with
    | "this" =>
      advance
      return { expr := .other l.span [] }
    | "null" => lit .null
    | "true" => lit (.bool true)
    | "false" => lit (.bool false)
    | "function" => return { expr := .fn (← functionExpr r l.span.start false) }
    | "class" => return { expr := ← r.classExpr }
    | _ =>
      let next ← peek
      if l.text == "async" && next.isWord "function" && !next.newlineBefore then
        advance
        return { expr := .fn (← functionExpr r l.span.start true) }
      let i ← name
      let canBind := i.name != "eval" && i.name != "arguments"
      return { expr := .ident i, target := if canBind then some (.simple []) else none }
  | _ => failure

def startsExpression (l : Lexeme) : Bool :=
  match l.kind with
  | .number | .string | .template | .privateName => true
  | .word => !(["in", "instanceof", "as", "satisfies", "of", "else", "case", "default",
      "extends"].contains l.text)
  | .punct => ["(", "[", "\x7b", "/", "/=", "+", "-", "!", "~", "++", "--", "<", "@"].contains l.text
  | _ => false

def endsTypeArgs (l : Lexeme) : Bool :=
  !(["<", ">", "+", "-", "("].contains l.text) && l.kind != .template &&
    (l.newlineBefore || !startsExpression l || l.isPunct "/")

def callOperand (obj : Operand) (isChain : Bool) (span : Span) (typeArgs : Option Span)
    (args : List Expr) : Operand :=
  if isChain then
    { expr := .other span (obj.expr :: args.map Expr.withoutDots), form := .chain }
  else { expr := .call span obj.expr typeArgs args }

/-- A template behind an expression, which may be no chain with an optional link. -/
def taggedTemplate (r : Rules) (start : Nat) (obj : Operand) : Rule Operand := do
  let exprs ← template true (expression r)
  match obj.form with
  | .chain => failure
  | _ =>
    return { expr := .other (← spanFrom start) (obj.expr :: exprs.map Operand.expr) }

/-- Type arguments behind an expression, and the call or template that they are for. -/
def typeApplication (r : Rules) (start : Nat) (noCall : Bool) (obj : Operand) : Rule Operand := do
  let types ← typeArgs r
  let l ← lexeme
  if l.isPunct "(" && !noCall then
    let args ← callArgs r
    return callOperand obj obj.isChain (← spanFrom start) (some types) args
  if l.kind == .template then return ← taggedTemplate r start obj
  require (endsTypeArgs l)
  return { expr := .other (← spanFrom start) [obj.expr], form := .applied obj.expr }

def memberLink (r : Rules) (start : Nat) (isChain : Bool) (obj : Operand) : Rule Operand := do
  if ← eat? "[" then
    let index ← bracketed (expression r)
    expect "]"
    let span ← spanFrom start
    if isChain then return { expr := .other span [obj.expr, index.expr], form := .chain }
    return {
      expr := .index span obj.expr index.expr, target := some (.simple [obj.expr, index.expr]) }
  let l ← lexeme
  require (l.kind == .word || l.kind == .privateName)
  advance
  let span ← spanFrom start
  if isChain then return { expr := .other span [obj.expr], form := .chain }
  let expr :=
    if l.kind == .word then Expr.member span obj.expr l.ident
    else .privateMember span obj.expr l.ident
  return { expr, target := some (.simple [obj.expr]) }

/-- One step behind an expression: a member, index, call, type arguments, template or exclamation
mark. -/
def subscript? (r : Rules) (start : Nat) (noCall noIndex : Bool) (obj : Operand) :
    Rule (Option Operand) := do
  let l ← lexeme
  let typed ← typed?
  if typed && l.isPunct "!" && !l.newlineBefore then
    advance
    let target := match obj.target with
      | some (.simple _) => some (.simple [obj.expr])
      | _ => none
    let form := if obj.isChain then .chainNonNull else .plain
    return some { expr := .cast (← spanFrom start) .nonNull obj.expr none, target, form }
  if typed && l.isPunct "<" then
    if let some o ← attempt (typeApplication r start noCall obj) then return some o
  if l.isPunct "?." then
    advance
    let types ← if typed && (← at? "<") then some <$> typeArgs r else pure none
    if types.isSome || (← at? "(") then
      let args ← callArgs r
      return some (callOperand obj true (← spanFrom start) types args)
    return some (← memberLink r start true obj)
  if l.isPunct "[" && !noIndex then return some (← memberLink r start obj.isChain obj)
  if l.isPunct "(" && !noCall then
    let args ← callArgs r
    return some (callOperand obj obj.isChain (← spanFrom start) none args)
  if l.isPunct "." then
    advance
    require !(← at? "[")
    return some (← memberLink r start obj.isChain obj)
  if l.kind == .template then return some (← taggedTemplate r start obj)
  return none

def subscriptsFrom (r : Rules) (start : Nat) (noCall noIndex : Bool) : Nat → Operand → Rule Operand
  | 0, _ => failure
  | fuel + 1, obj => do
    match ← subscript? r start noCall noIndex obj with
    | some o => subscriptsFrom r start noCall noIndex fuel o
    | none => return obj

def subscripts (r : Rules) (start : Nat) (noCall noIndex : Bool) (obj : Operand) : Rule Operand := do
  subscriptsFrom r start noCall noIndex (← setting).fuel obj

def superExpr (r : Rules) (noCall : Bool) : Rule Operand := do
  let l ← lexeme
  expectWord "super"
  if (← at? "(") && !noCall then
    let args ← callArgs r
    return { expr := .call (← spanFrom l.span.start) (.ident l.ident) none args }
  if ← eat? "[" then
    let index ← bracketed (expression r)
    expect "]"
    return {
      expr := .other (← spanFrom l.span.start) [index.expr], target := some (.simple [index.expr]) }
  expect "."
  let _ ← word
  return { expr := .other (← spanFrom l.span.start) [], target := some (.simple []) }

def importExpr (r : Rules) (noCall : Bool) : Rule Operand := do
  let l ← lexeme
  expectWord "import"
  if ← eat? "." then
    expectWord "meta"
    return { expr := .other (← spanFrom l.span.start) [] }
  require !noCall
  let args ← callArgs r
  require (args.length == 1 || args.length == 2)
  return { expr := .call (← spanFrom l.span.start) (.ident l.ident) none args }

def chainHead (r : Rules) (noCall : Bool) : Rule Operand := do
  let l ← lexeme
  if l.isWord "super" then superExpr r noCall
  else if l.isWord "import" then importExpr r noCall
  else primary r

def newExprFrom (r : Rules) : Nat → Rule Operand
  | 0 => failure
  | fuel + 1 => do
    let start ← start
    expectWord "new"
    if ← eat? "." then
      expectWord "target"
      require (← setting).inFunction
      return { expr := .other (← spanFrom start) [] }
    let calleeStart ← Rule.start
    let head ← if ← atWord? "new" then newExprFrom r fuel else chainHead r true
    let callee ← match head.form with
      | .bareNew => pure head
      | _ => subscripts r calleeStart true false head
    require !callee.isChain
    let typed ← typed?
    if typed && (← at? "<") then
      let withTypes : Rule Unit := do
        let _ ← typeArgs r
        require (← at? "(")
      let _ ← attempt withTypes
    let inner := match callee.form with
      | .applied inner => inner
      | _ => callee.expr
    if ← at? "(" then
      let args ← callArgs r
      return { expr := .other (← spanFrom start) (inner :: args.map Expr.withoutDots) }
    return { expr := .other (← spanFrom start) [callee.expr], form := .bareNew }

def leftHandSide (r : Rules) : Rule Operand := do
  let start ← start
  if (← setting).hasMarkup && (← at? "<") then
    let exprs ← bracketed r.element
    expect ">"
    return { expr := .other (← spanFrom start) exprs }
  let head ←
    if ← atWord? "new" then newExprFrom r (← setting).fuel
    else chainHead r false
  match head.form with
  | .bareNew => return head
  | _ => subscripts r start false false head

def isSimpleTarget (o : Operand) : Bool :=
  match o.target with
  | some (.simple _) => true
  | _ => false

/-- What `delete` can remove: a property, and in untyped scripts anything but a name. -/
def isDeletable (typed : Bool) (o : Operand) : Bool :=
  match o.expr, o.form with
  | .member .., _ | .index .., _ | .privateMember .., _ => true
  | _, .chain => true
  | .ident _, _ => false
  | .paren _ e, _ =>
    match e with
    | .member .. | .index .. | .privateMember .. | .other .. | .paren .. => true
    | _ => !typed
  | _, _ => !typed

def prefixOperators : List String := ["delete", "void", "typeof", "+", "-", "~", "!"]

def castTarget (o : Operand) : Option Target :=
  if isSimpleTarget o then some (.simple [o.expr]) else none

def unaryExpr (r : Rules) : Rule Operand := do
  let l ← lexeme
  let start := l.span.start
  let s ← setting
  if s.isTyped && !s.hasMarkup && l.isPunct "<" then
    advance
    if (← atWord? "const") && (← peek).isPunct ">" then
      advance
      advance
      let arg ← r.unary
      return { expr := .cast (← spanFrom start) .as arg.expr none }
    let typeStart ← Rule.start
    r.type
    let type ← spanFrom typeStart
    expect ">"
    let arg ← r.unary
    return {
      expr := .cast (← spanFrom start) .assertion arg.expr (some type), target := castTarget arg }
  if l.isPunct "++" || l.isPunct "--" then
    advance
    let arg ← r.unary
    require (isSimpleTarget arg)
    return { expr := .other ⟨start, arg.expr.span.stop⟩ [arg.expr], form := .closed }
  if (l.kind == .punct || l.kind == .word) && prefixOperators.contains l.text then
    advance
    let arg ← r.unary
    if l.text == "delete" then require (isDeletable s.isTyped arg)
    return { expr := .other ⟨start, arg.expr.span.stop⟩ [arg.expr], form := .unary }
  if l.isWord "await" then
    require (s.isAsync || !s.inFunction)
    advance
    let arg ← r.unary
    return { expr := .await (← spanFrom start) arg.expr, form := .unary }
  let o ← leftHandSide r
  let l ← lexeme
  if (l.isPunct "++" || l.isPunct "--") && !l.newlineBefore then
    require (isSimpleTarget o)
    advance
    return { expr := .other (← spanFrom start) [o.expr], form := .closed }
  return o

def precedence? (operator : String) : Option Nat :=
  match operator with
  | "||" | "??" => some 1
  | "&&" => some 2
  | "|" => some 3
  | "^" => some 4
  | "&" => some 5
  | "==" | "!=" | "===" | "!==" => some 6
  | "<" | ">" | "<=" | ">=" | "instanceof" | "in" => some 7
  | "<<" | ">>" | ">>>" => some 8
  | "+" | "-" => some 9
  | "*" | "/" | "%" => some 10
  | "**" => some 11
  | _ => none

def assignmentOperators : List String :=
  ["=", "+=", "-=", "*=", "/=", "%=", "**=", "<<=", ">>=", ">>>=", "&=", "|=", "^=", "&&=", "||=",
   "??="]

def operator : Rule String := do
  let p ← get
  let longest (operators : List String) : String :=
    (operators.find? fun o => o.toList.isPrefixOf p.here).getD p.lexeme.text
  if p.lexeme.isPunct "<" then return longest ["<<=", "<<", "<="]
  if p.lexeme.isPunct ">" then return longest [">>>=", ">>>", ">>=", ">>", ">="]
  match p.lexeme.kind with
  | .punct | .word => return p.lexeme.text
  | _ => return ""

def skipOperator (operator : String) : Rule Unit := do
  let p ← get
  resume (p.lexeme.span.start + operator.length) (p.here.drop operator.length)

def castTail (r : Rules) (kind : CastKind) (left : Operand) : Rule Operand := do
  advance
  let start ← start
  if kind == .as && (← eatWord? "const") then
    return { expr := .cast (← spanFrom left.expr.span.start) .as left.expr none }
  r.type
  let type ← spanFrom start
  return {
    expr := .cast (← spanFrom left.expr.span.start) kind left.expr (some type)
    target := castTarget left }

def isLogical (o : Operand) : Bool :=
  match o.form with
  | .logical => true
  | _ => false

/-- `left` with the operators behind it that bind tighter than `min`. -/
def binaryFrom (r : Rules) : Nat → Nat → Operand → Rule Operand
  | 0, _, _ => failure
  | fuel + 1, min, left => do
    let l ← lexeme
    let s ← setting
    if s.isTyped && !l.newlineBefore && l.isWord "as" && min < 7 then
      return ← binaryFrom r fuel min (← castTail r .as left)
    if s.isTyped && !l.newlineBefore && l.isWord "satisfies" && min < 7 then
      return ← binaryFrom r fuel min (← castTail r .satisfies left)
    let op ← operator
    let some level := precedence? op | return left
    if level ≤ min || (op == "in" && !s.allowIn) then return left
    if op == "**" then
      match left.form with
      | .unary => failure
      | _ => pure ()
    skipOperator op
    let first ← r.unary
    let right ← binaryFrom r fuel (if op == "**" then level - 1 else level) first
    require !(op == "??" && (isLogical left || isLogical right))
    let span : Span := ⟨left.expr.span.start, right.expr.span.stop⟩
    binaryFrom r fuel min {
      expr := .other span [left.expr, right.expr]
      form := if op == "&&" || op == "||" then .logical else .closed }

def conditional (r : Rules) : Rule Operand := do
  let start ← start
  let first ← r.unary
  let test ← binaryFrom r (← setting).fuel 0 first
  if ← eat? "?" then
    let yes ← within (fun s => { s with allowIn := true, colonFollows := true }) r.assign
    expect ":"
    let no ← within (fun s => { s with colonFollows := false }) r.assign
    return {
      expr := .other ⟨start, no.expr.span.stop⟩ [test.expr, yes.expr, no.expr], form := .closed }
  return test

def yieldExpr (r : Rules) : Rule Operand := do
  let start ← start
  expectWord "yield"
  let l ← lexeme
  if l.newlineBefore then return { expr := .other (← spanFrom start) [], form := .closed }
  if ← eat? "*" then
    let arg ← r.assign
    return { expr := .other (← spanFrom start) [arg.expr], form := .closed }
  if startsExpression l then
    let arg ← r.assign
    return { expr := .other (← spanFrom start) [arg.expr], form := .closed }
  return { expr := .other (← spanFrom start) [], form := .closed }

/-- An assignment, or what can stand in place of one except an arrow function. -/
def assignmentExpr (r : Rules) : Rule Operand := do
  let start ← start
  let left ← conditional r
  let op ← operator
  unless assignmentOperators.contains op do return left
  let parts ← match left.target with
    | some (.simple parts) => pure parts
    | some (.pattern parts) => if op == "=" then pure parts else failure
    | none => failure
  skipOperator op
  let right ← r.assign
  return {
    expr := .other (← spanFrom start) (parts ++ [right.expr])
    form := if op == "=" then .assignment else .closed }

def assign (r : Rules) : Rule Operand := do
  let s ← setting
  let l ← lexeme
  if s.isGenerator && l.isWord "yield" then return ← yieldExpr r
  if let some fn ← arrow? r then return { expr := .fn fn, form := .closed }
  if l.isPunct "<" && s.isTyped then
    let generic : Rule Operand := do
      return { expr := .fn (← genericArrow r l.span.start false), form := .closed }
    if s.hasMarkup then
      match ← attempt (assignmentExpr r) with
      | some o => return o
      | none => return ← generic
    if let some o ← attempt generic then return o
  assignmentExpr r

end Grammar
end SfcTsx.Script
