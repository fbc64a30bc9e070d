import SfcTsx.View.Attribute

namespace SfcTsx.View

open Markup

inductive Place where
  /-- Among the children of an element: text is text and expressions need braces. -/
  | child
  /-- In an expression: text needs a fragment and guards need no braces. -/
  | expression
deriving DecidableEq, Repr

structure Setting where
  source : Text
  marker : Text
deriving Repr

def removeSpan (s : Span) : List Operation := [.remove s.start s.stop]

/-- Puts a fragment around a span in an expression. -/
def wrapFragment (place : Place) (s : Span) : List Operation :=
  match place with
  | .child => []
  | .expression => [.prependRight s.start "<>".toList, .insertLeft s.stop "</>".toList]

def isTextMark (c : Char) : Bool := c == '{' || c == '}' || c == '<' || c == '>'

def escapeText : Nat → Text → List Operation
  | _, [] => []
  | offset, c :: cs =>
    (if isTextMark c then [.overwrite offset (offset + 1) (['{', '"'] ++ [c] ++ ['"', '}'])] else []) ++
      escapeText (offset + c.utf8Size) cs

def renderText (place : Place) (s : Span) (data : Text) : List Operation :=
  if place = .expression ∧ Text.isBlank data then removeSpan s
  else escapeText s.start data ++ wrapFragment place s

def renderInterpolation (env : Setting) (place : Place) (s : Span) : List Operation :=
  .overwrite s.start (s.start + 2) ['{'] ::
    (if s.len ≥ 4 ∧ (Text.before? ['}', '}'] (s.text env.source)).isSome then
      .overwrite (s.stop - 2) s.stop ['}']
    else .insertLeft s.stop ['}']) ::
    wrapFragment place s

def renameClosing (env : Setting) (tag : Tag) (name : String) : List Operation :=
  match tag.closeTag with
  | none => []
  | some close =>
    let start := close.start + 2
    let stop := start + Text.size tag.name.toList
    if env.source.slice start stop = tag.name.toList then [.overwrite start stop name.toList] else []

def renameTags (env : Setting) (tag : Tag) (name : String) : List Operation :=
  if name = tag.name then []
  else .overwrite tag.nameSpan.start tag.nameSpan.stop name.toList :: renameClosing env tag name

def closeTags (env : Setting) (tag : Tag) (name : String) : List Operation :=
  let startTag := tag.startTag.text env.source
  if tag.selfClosing then
    if (Text.before? ['/', '>'] startTag).isNone && startTag.getLast? == some '>' then
      [.insertLeft (tag.startTag.stop - 1) ['/']]
    else []
  else if tag.closeTag.isNone then [.insertLeft tag.span.stop (("</" ++ name ++ ">").toList)]
  else []

def renderTags (env : Setting) (ofComponent : Bool) (tag : Tag) : List Operation :=
  let name := outputName tag.name
  editAttrs env.source ofComponent tag ++ renameTags env tag name ++ closeTags env tag name

/-- Removes the tags of a `<template>`, but for what its guards use. -/
def removeTags (tag : Tag) : List Operation :=
  let structural := tag.directives.filter isStructural
  structural.flatMap fillCondition ++ removeExcept tag.startTag (structural.flatMap keptSpans) ++
    tag.closeTag.toList.flatMap removeSpan

/-- Joins the items of an expression: a list of several, and an empty string for none. -/
def joinItems (start : Nat) : List Span → List Operation
  | [] => [.insertLeft start "\"\"".toList]
  | [_] => []
  | items@(_ :: _) =>
    .insertLeft start "[".toList ::
      (items.dropLast.map (fun item => .insertLeft item.stop ", ".toList) ++
        items.getLast?.toList.map fun last => .insertLeft last.stop "]".toList)

/-- Names for aliases that a loop leaves out. -/
def aliasNames : List String := ["value", "key", "index"]

/-- Moves the aliases of a loop in front of its body. A missing one gets a name of its own behind
the text moved last. -/
def moveAliases (env : Setting) (body : Span) : Span → List (Option Span × String) → List Operation
  | _, [] => []
  | last, (param, name) :: rest =>
    let separator := (if rest.isEmpty then ") => \x7b " else ", ").toList
    match param with
    | some s =>
      .insertLeft s.stop separator :: .moveRange s.start s.stop body.start ::
        moveAliases env body s rest
    | none =>
      .insertLeft last.stop (env.marker ++ name.toList ++ separator) ::
        moveAliases env body last rest

/-- What a loop runs over: its source, or the whole expression if it could not be read. -/
def loopSource? (d : Directive) (parts : Option Loop) : Option Span :=
  match parts with
  | some parts => some parts.source
  | none => (expression? d).map (·.span)

/-- Puts a loop around a body that starts with its own edits. -/
def guardLoop (env : Setting) (d : Directive) (parts : Option Loop) (body : Span) (braces : Bool) :
    List Operation :=
  match loopSource? d parts with
  | none => []
  | some source =>
    let params := (parts.map Loop.params).getD []
    [.prependRight source.start (if braces then "\x7b renderList(" else "renderList(").toList,
      .insertLeft source.stop (if params.isEmpty then ", () => \x7b " else ", (").toList,
      .moveRange source.start source.stop body.start] ++
      moveAliases env body source (params.zip aliasNames) ++
      [.insertLeft body.stop (if braces then " \x7d) \x7d" else " \x7d)").toList]

/-- Moves a condition in front of the body it guards. -/
def guardCondition (d : Directive) (opens : Bool) (body : Span) : List Operation :=
  let condition := conditionSpan d
  .prependRight condition.start "(".toList ::
    ((if opens then [.prependRight condition.start "\x7b ".toList] else []) ++
      [.insertLeft condition.stop ") ? ".toList,
        .moveRange condition.start condition.stop body.start])

def closeChain (place : Place) (branches : List Branch) : List Operation :=
  match branches.getLast? with
  | none => []
  | some last =>
    let otherwise := if last.kind = .elseBranch then [] else " : undefined".toList
    let brace := if place = .child then " \x7d".toList else []
    let text := otherwise ++ brace
    if text.isEmpty then [] else [.insertLeft last.span.stop text]

/-- Makes the children of a component the content of the one slot that its own directive names. -/
def wrapOwnSlot (env : Setting) (tag : Tag) (close : Span) (d : Directive) : List Operation :=
  let inner := tag.inner
  let opening := "\x7b\x7b ".toList ++ slotKey d ++ ": (".toList
  (match expression? d with
    | some exp =>
      removeAttr env.source d.span [exp.span] ++
        [.prependRight exp.span.start opening, .insertLeft exp.span.stop ") => <>".toList,
          .moveRange exp.span.start exp.span.stop inner.start]
    | none =>
      removeAttr env.source d.span [] ++ [.insertLeft inner.start (opening ++ ") => <>".toList)]) ++
    [.prependRight close.start "</> \x7d\x7d".toList]

/-- Makes the tags of a `<template>` the head and end of an entry in an object of slots. -/
def openEntry (tag : Tag) (slot : Directive) : List Operation :=
  removeExcept tag.startTag ((expression? slot).toList.map (·.span))

def closeEntry (tag : Tag) (slot : Directive) (separated : Bool) : List Operation :=
  let head := (if separated then ", " else "").toList ++ slotKey slot ++ ": (".toList
  (match expression? slot with
    | some exp =>
      [.prependRight tag.span.start head, .insertLeft exp.span.stop ") => <>".toList]
    | none => [.prependRight tag.span.start (head ++ ") => <>".toList)]) ++
    match tag.closeTag with
    | some close => [.overwrite close.start close.stop "</>".toList]
    | none => [.insertLeft tag.span.stop "</>".toList]

/-- Puts an object around the entries for the slots of a component. What belongs to no named slot is
the content of the default one, which comes first: the entries written before its last node are moved
behind it. -/
def wrapEntries (inner close : Span) (children : List Node) : List Operation :=
  let rest := children.filter fun child => !child.isInsignificant && child.slot?.isNone
  (match rest.getLast? with
    | none => [.insertLeft inner.start "\x7b\x7b ".toList]
    | some last =>
      let early := children.filter fun child =>
        child.slot?.isSome && child.span.stop ≤ last.span.start
      [.insertLeft inner.start "\x7b\x7b default: () => <>".toList,
        .insertLeft last.span.stop "</>".toList] ++
        early.map fun child => .moveRange child.span.start child.span.stop close.start) ++
    [.prependRight close.start " \x7d\x7d".toList]

/-- How a component's children reach it. -/
inductive Passing where
  /-- As they are, because the component is not closed or has neither slots nor children for them. -/
  | plain
  /-- All as the content of the slot that the component's own directive names. -/
  | ownSlot (close : Span) (slot : Directive)
  /-- As entries of an object. -/
  | entries (close : Span)

def passing (tag : Tag) (children : List Node) : Passing :=
  match tag.closeTag with
  | none => .plain
  | some close =>
    if children.any fun child => child.slot?.isSome then .entries close
    else match tag.directive? "slot" with
      | some d => .ownSlot close d
      | none => .plain

/-- Removes a component's own slot directive where its children do not use it. -/
def removeOwnSlot (env : Setting) (tag : Tag) : List Operation :=
  match tag.directive? "slot" with
  | some d => removeAttr env.source d.span []
  | none => []

mutual

/-- The edits that make a node an expression of the output. -/
def render (env : Setting) (place : Place) : Node → List Operation
  | .element tag children => renderAll env .child children ++ renderTags env false tag
  | .component tag children =>
    (match passing tag children with
      | .plain => renderAll env .child children ++ removeOwnSlot env tag
      | .ownSlot close d => renderAll env .child children ++ wrapOwnSlot env tag close d
      | .entries close =>
        removeOwnSlot env tag ++
          renderEntries env (children.any fun child => !child.isInsignificant && child.slot?.isNone)
            children ++
          wrapEntries tag.inner close children) ++
      renderTags env true tag
  | .container tag _ children =>
    removeTags tag ++
      match place with
      | .child => renderAll env .child children
      | .expression =>
        renderItems env children ++
          joinItems tag.startTag.stop
            ((children.filter fun child => !child.isInsignificant).map Node.span)
  | .text s data => renderText place s data
  | .interpolation s => renderInterpolation env place s
  | .comment s => removeSpan s
  | .group branches separators =>
    separators.flatMap removeSpan ++ renderBranches env place none branches ++
      closeChain place branches
  | .loop d parts body =>
    render env .expression body ++ guardLoop env d parts body.span (place = .child)

def renderAll (env : Setting) (place : Place) : List Node → List Operation
  | [] => []
  | n :: ns => render env place n ++ renderAll env place ns

def renderItems (env : Setting) : List Node → List Operation
  | [] => []
  | n :: ns =>
    (if n.isInsignificant then removeSpan n.span else render env .expression n) ++
      renderItems env ns

/-- Renders the children of a component as entries, each `separated` from one before it. -/
def renderEntries (env : Setting) (separated : Bool) : List Node → List Operation
  | [] => []
  | .container tag (some slot) children :: ns =>
    openEntry tag slot ++ renderAll env .child children ++ closeEntry tag slot separated ++
      renderEntries env true ns
  | n :: ns =>
    (if n.isInsignificant then removeSpan n.span else render env .child n) ++
      renderEntries env separated ns

/-- Renders the branches of a chain that follow the body `previous`. -/
def renderBranches (env : Setting) (place : Place) (previous : Option Span) :
    List Branch → List Operation
  | [] => []
  | .mk kind d body :: bs =>
    let opens := place = .child && previous.isNone
    let condition (body : Span) := if kind = .elseBranch then [] else guardCondition d opens body
    previous.toList.map (fun previous => .insertLeft previous.stop " : ".toList) ++
      (match body with
        | .loop loop parts inner =>
          render env .expression inner ++ condition inner.span ++
            guardLoop env loop parts inner.span false
        | body => render env .expression body ++ condition body.span) ++
      renderBranches env place (some body.span) bs

end

def slotFindings (tag : Tag) (children : List Node) : List Diagnostic :=
  match passing tag children, tag.directive? "slot" with
  | .entries _, some d =>
    [⟨.invalidDirective, "v-slot on a component cannot be mixed with <template> slots".toList, d.span⟩]
  | _, _ => []

def guardFindings (tag : Tag) : List Diagnostic :=
  (tag.directives.filter lacksCondition).map missingExpression

mutual

/-- The problems that rendering a node meets, in its order. -/
def findings : Node → List Diagnostic
  | .element tag children => allFindings false children ++ attrFindings tag
  | .component tag children =>
    let entries := match passing tag children with
      | .entries _ => true
      | _ => false
    slotFindings tag children ++ allFindings entries children ++ attrFindings tag
  | .container tag _ children => guardFindings tag ++ allFindings false children
  | .text .. | .interpolation _ | .comment _ => []
  | .group branches _ => branchFindings branches
  | .loop _ _ body => findings body

/-- The problems of siblings; the guards of a slot are not looked at where it is an entry. -/
def allFindings (entries : Bool) : List Node → List Diagnostic
  | [] => []
  | .container tag slot children :: ns =>
    (if entries && slot.isSome then [] else guardFindings tag) ++ allFindings false children
      ++ allFindings entries ns
  | n :: ns => findings n ++ allFindings entries ns

def branchFindings : List Branch → List Diagnostic
  | [] => []
  | .mk _ _ body :: bs => findings body ++ branchFindings bs

end

mutual

def runtimeComponents : Node → List String
  | .element tag children | .component tag children =>
    (runtimeComponent? tag.name).toList ++ allRuntimeComponents children
  | .container _ _ children => allRuntimeComponents children
  | .text .. | .interpolation _ | .comment _ => []
  | .group branches _ => branchRuntimeComponents branches
  | .loop _ _ body => runtimeComponents body

def allRuntimeComponents : List Node → List String
  | [] => []
  | n :: ns => runtimeComponents n ++ allRuntimeComponents ns

def branchRuntimeComponents : List Branch → List String
  | [] => []
  | .mk _ _ body :: bs => runtimeComponents body ++ branchRuntimeComponents bs

end

structure Rendered where
  /-- The runtime's components, sorted, each once. -/
  components : List String
  diagnostics : List Diagnostic
deriving Repr

def sortedNames (names : List String) : List String :=
  sortBy (fun a b => a ≤ b) names.eraseDups

def templateEdits (env : Setting) (t : Template) : List Operation :=
  let (nodes, notes) := ofTemplate t
  notes.dropped.flatMap removeSpan ++ renderAll env .child nodes

/-- Edits a template into an expression. The buffer holds the whole source. -/
def renderTemplate (env : Setting) (t : Template) : Editing Rendered := do
  let (nodes, notes) := ofTemplate t
  EditBuffer.perform (templateEdits env t)
  return { components := sortedNames (allRuntimeComponents nodes)
           diagnostics := notes.diagnostics ++ allFindings false nodes }

end SfcTsx.View
