import SfcTsx.EditBuffer.Operation
import SfcTsx.View.Handler
import SfcTsx.View.Tree

namespace SfcTsx.View

open Markup

/-- The directive becomes a condition or a loop. -/
def isStructural (d : Directive) : Bool := ["if", "else-if", "else", "for"].contains d.name

/-- What stands for the condition: the expression, or else the name of the directive. -/
def conditionSpan (d : Directive) : Span :=
  match expression? d with
  | some exp => exp.span
  | none => d.nameSpan

def lacksCondition (d : Directive) : Bool :=
  (d.name == "if" || d.name == "else-if") && (expression? d).isNone

def lacksModel (d : Directive) : Bool :=
  d.name == "model" && !d.arg.any (·.dynamic) && (expression? d).isNone

def missingExpression (d : Directive) : Diagnostic :=
  ⟨.invalidDirective, (s!"v-{d.name} is missing an expression").toList, d.span⟩

/-- The spans of a structural directive that are kept when it is removed. -/
def keptSpans (d : Directive) : List Span :=
  match d.name with
  | "if" | "else-if" => [conditionSpan d]
  | "for" =>
    match expression? d with
    | some exp =>
      match Loop.parse? exp.content exp.span.start with
      | some parts => parts.spans
      | none => [exp.span]
    | none => []
  | _ => []

/-- Gives a condition without an expression a text to stand for it. -/
def fillCondition (d : Directive) : List Operation :=
  if lacksCondition d then [.overwrite d.nameSpan.start d.nameSpan.stop "undefined".toList] else []

/-- Removes what lies between `cursor` and `stop` outside the spans, which are sorted. -/
def removeGaps (stop : Nat) : Nat → List Span → List Operation
  | cursor, [] => if cursor < stop then [.remove cursor stop] else []
  | cursor, s :: ss =>
    (if cursor < s.start then [.remove cursor s.start] else []) ++
      removeGaps stop (max cursor s.stop) ss

/-- Removes a range but for the given spans inside it. -/
def removeExcept (range : Span) (kept : List Span) : List Operation :=
  removeGaps range.stop range.start (sortOn Span.start (kept.filter range.containsSpan))

def spaceStart (source : Text) (offset : Nat) : Nat :=
  offset - Text.size ((source.slice 0 offset).reverse.takeWhile Text.isSpace)

/-- Removes an attribute with the white space in front of it, but for the given spans. -/
def removeAttr (source : Text) (span : Span) (kept : List Span) : List Operation :=
  removeExcept ⟨spaceStart source span.start, span.stop⟩ kept

def slotKey (d : Directive) : Text :=
  match d.arg with
  | none => "default".toList
  | some arg =>
    if arg.dynamic then '[' :: (arg.content.toList ++ [']'])
    else if isIdentifier arg.content.toList then arg.content.toList
    else
      let escaped := Text.replaceChar '"' ['\\', '"'] (Text.replaceChar '\\' ['\\', '\\'] arg.content)
      '"' :: (escaped ++ ['"'])

def isQuoted (source : Text) (v : Value) : Bool :=
  let before := source.slice (v.span.start - 1) v.span.start
  let behind := source.slice v.span.stop (v.span.stop + 1)
  (before == ['"'] || before == ['\'']) && before == behind

/-- Replaces a range, or inserts if it is empty. -/
def put (start stop : Nat) (text : Text) : List Operation :=
  if start < stop then [.overwrite start stop text] else [.insertLeft start text]

/-- Makes a value an expression in braces, with `before` and `behind` inside them. -/
def braceValue (source : Text) (v : Value) (before behind : Text) : List Operation :=
  if isQuoted source v then
    let blank := if Text.isBlank v.content then "undefined".toList else []
    [.overwrite (v.span.start - 1) v.span.start ('{' :: (before ++ blank)),
      .overwrite v.span.stop (v.span.stop + 1) (behind ++ ['}'])]
  else
    [.prependRight v.span.start ('{' :: before), .insertLeft v.span.stop (behind ++ ['}'])]

def quoteAttribute (source : Text) (a : Attribute) : List Operation :=
  match a.value with
  | some v =>
    if isQuoted source v then []
    else [.prependRight v.span.start ['"'], .insertLeft v.span.stop ['"']]
  | none => []

def rename (d : Directive) (name : Text) : List Operation :=
  if d.rawName.toList = name then [] else [.overwrite d.nameSpan.start d.nameSpan.stop name]

def handlerWrap (d : Directive) : Text × Text :=
  if (expression? d).any fun exp => !isHandlerReference exp.content then
    ("($event) => \x7b ".toList, " \x7d".toList)
  else ([], [])

/-- `v-bind` or `v-on` of a whole object. -/
def spreadObject (source : Text) (d : Directive) : List Operation :=
  match expression? d with
  | some exp =>
    put d.span.start exp.span.start "\x7b...".toList ++ put exp.span.stop d.span.stop "\x7d".toList
  | none => removeAttr source d.span []

/-- A directive whose argument is an expression. -/
def spreadComputed (d : Directive) (arg : DirectiveArg) : List Operation :=
  put d.span.start arg.span.start "\x7b...\x7b[".toList ++
    match expression? d with
    | some exp =>
      let (before, behind) := if d.name = "on" then handlerWrap d else ([], [])
      put arg.span.stop exp.span.start ("]: ".toList ++ before) ++
        put exp.span.stop d.span.stop (behind ++ "\x7d\x7d".toList)
    | none => put arg.span.stop d.span.stop "]: undefined\x7d\x7d".toList

/-- `v-bind` with an argument. Without a value, the value is the variable of the same name. -/
def bindAttribute (source : Text) (d : Directive) (arg : DirectiveArg) : List Operation :=
  let camel := camelize arg.content.toList
  let name := if d.modifiers.contains "camel" then camel else arg.content.toList
  match d.exp with
  | some exp => rename d name ++ braceValue source exp [] []
  | none => rename d (name ++ "=\x7b".toList ++ camel ++ "\x7d".toList)

/-- `v-on` with an argument. Without a value, the handler does nothing. -/
def bindHandler (source : Text) (d : Directive) (arg : DirectiveArg) : List Operation :=
  let name := handlerName arg.content.toList
  match expression? d with
  | some exp =>
    let (before, behind) := handlerWrap d
    rename d name ++ braceValue source exp before behind
  | none =>
    removeAttr source d.span [d.nameSpan] ++
      [.overwrite d.nameSpan.start d.nameSpan.stop (' ' :: (name ++ "=\x7b() => \x7b\x7d\x7d".toList))]

def bindModel (source : Text) (d : Directive) (inComponent : Bool) : List Operation :=
  let name := match d.arg with
    | some arg => arg.content
    | none => if inComponent then "modelValue" else "value"
  match expression? d with
  | some exp => rename d name.toList ++ braceValue source exp [] []
  | none => removeAttr source d.span []

/-- Any other directive keeps its name and loses its argument. -/
def keepDirective (source : Text) (d : Directive) : List Operation :=
  rename d ('v' :: '-' :: d.name.toList) ++
    match d.exp with
    | some exp => braceValue source exp [] []
    | none => []

def editDirective (source : Text) (ofComponent : Bool) (d : Directive) : List Operation :=
  match d.name, d.arg with
  | "bind", none | "on", none => spreadObject source d
  | "bind", some arg => if arg.dynamic then spreadComputed d arg else bindAttribute source d arg
  | "on", some arg => if arg.dynamic then spreadComputed d arg else bindHandler source d arg
  | "model", some arg =>
    if arg.dynamic then spreadComputed d arg else bindModel source d ofComponent
  | "model", none => bindModel source d ofComponent
  | _, _ => keepDirective source d

/-- Edits an attribute that is not structural. The slot of a component is left to its children. -/
def editAttr (source : Text) (ofComponent : Bool) : Attr → List Operation
  | .plain a => quoteAttribute source a
  | .directive d =>
    if isStructural d then []
    else if d.name = "slot" then
      if ofComponent then [] else removeAttr source d.span []
    else editDirective source ofComponent d

def removeStructural (source : Text) (d : Directive) : List Operation :=
  fillCondition d ++ removeAttr source d.span (keptSpans d)

def editAttrs (source : Text) (ofComponent : Bool) (tag : Tag) : List Operation :=
  (tag.directives.filter isStructural).flatMap (removeStructural source) ++
    tag.attrs.flatMap (editAttr source ofComponent)

def attrFindings (tag : Tag) : List Diagnostic :=
  (tag.directives.filter lacksCondition ++ tag.directives.filter lacksModel).map missingExpression

end SfcTsx.View
