import SfcTsx.Outline
import SfcTsx.View.Tree

namespace SfcTsx.View

open Outline

def Loop.outline (l : Loop) : Text :=
  node "spec" [Outline.span l.source, span? l.value, span? l.key, span? l.index]

def BranchKind.word : BranchKind → String
  | .ifBranch => "if"
  | .elseIfBranch => "else-if"
  | .elseBranch => "else"

def outlineTag (name : String) (tag : Markup.Tag) (slot : Option Markup.Directive)
    (children : List Text) : Text :=
  node name ([Outline.span tag.span, string tag.name,
    named "slot" (span? (slot.map (·.span)))] ++ children)

mutual

def Node.outline : Node → Text
  | .element tag children => outlineTag "element" tag none (outlineNodes children)
  | .component tag children => outlineTag "component" tag none (outlineNodes children)
  | .container tag slot children => outlineTag "container" tag slot (outlineNodes children)
  | .text s _ => node "text" [Outline.span s]
  | .interpolation s => node "interp" [Outline.span s]
  | .comment s => node "comment" [Outline.span s]
  | .group branches separators =>
    node "group" ([Outline.span (branchesSpan branches), node "seps" (separators.map Outline.span)]
      ++ outlineBranches branches)
  | .loop d parts body =>
    node "for" [Outline.span d.span, part Loop.outline parts, body.outline]

def outlineNodes : List Node → List Text
  | [] => []
  | n :: ns => n.outline :: outlineNodes ns

def outlineBranches : List Branch → List Text
  | [] => []
  | .mk kind d body :: bs =>
    node kind.word [Outline.span d.span, body.outline] :: outlineBranches bs

end

end SfcTsx.View
