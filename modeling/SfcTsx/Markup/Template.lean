import SfcTsx.Markup.StartTag

namespace SfcTsx.Markup

structure Attribute where
  span : Span
  name : String
  nameSpan : Span
  value : Option Value
deriving Repr

/-- The argument of a directive; a dynamic one is an expression in brackets. -/
structure DirectiveArg where
  content : String
  span : Span
  dynamic : Bool
deriving DecidableEq, Repr

structure Directive where
  span : Span
  rawName : String
  name : String
  nameSpan : Span
  arg : Option DirectiveArg
  modifiers : List String
  exp : Option Value
deriving Repr

inductive Attr where
  | plain (a : Attribute)
  | directive (d : Directive)
deriving Repr

namespace Attr

def span : Attr → Span
  | .plain a => a.span
  | .directive d => d.span

def rawName : Attr → String
  | .plain a => a.name
  | .directive d => d.rawName

def directive? : Attr → Option Directive
  | .plain _ => none
  | .directive d => some d

def attribute? : Attr → Option Attribute
  | .plain a => some a
  | .directive _ => none

end Attr

structure Tag where
  span : Span
  name : String
  nameSpan : Span
  startTag : Span
  /-- Missing if the element closes itself, is void or is not closed. -/
  closeTag : Option Span
  attrs : List Attr
  /-- The start tag closes the element, or the element is void. -/
  selfClosing : Bool
deriving Repr

namespace Tag

def directives (t : Tag) : List Directive := t.attrs.filterMap Attr.directive?

def directive? (t : Tag) (name : String) : Option Directive := t.directives.find? (·.name = name)

def hasDirective (t : Tag) (name : String) : Bool := (t.directive? name).isSome

def attribute? (t : Tag) (name : String) : Option Attribute :=
  (t.attrs.filterMap Attr.attribute?).find? (·.name = name)

def inner (t : Tag) : Span :=
  let stop := match t.closeTag with
    | some close => close.start
    | none => t.span.stop
  ⟨t.startTag.stop, max stop t.startTag.stop⟩

end Tag

inductive Node where
  | element (tag : Tag) (children : List Node)
  | text (span : Span) (data : Text)
  | interpolation (span : Span) (expression : Value)
  | comment (span : Span) (data : Text)

namespace Node

def span : Node → Span
  | .element tag _ => tag.span
  | .text s _ => s
  | .interpolation s _ => s
  | .comment s _ => s

def isBlank : Node → Bool
  | .text _ data => Text.isBlank data
  | _ => false

def isComment : Node → Bool
  | .comment .. => true
  | _ => false

end Node

structure Template where
  nodes : List Node
  span : Span

end SfcTsx.Markup
