import SfcTsx.Markup.Template
import SfcTsx.Outline

namespace SfcTsx.Markup

open Outline

def Value.outline (v : Value) : Text := node "val" [Outline.span v.span, Outline.text v.content]

def DirectiveArg.outline (a : DirectiveArg) : Text :=
  node "arg" [Outline.span a.span, string a.content, named "dynamic" (flag a.dynamic)]

def Attr.outline : Attr → Text
  | .plain a =>
    node "attr" [Outline.span a.span, string a.name, Outline.span a.nameSpan,
      part Value.outline a.value]
  | .directive d =>
    node "dir" [Outline.span d.span, string d.rawName, string d.name, Outline.span d.nameSpan,
      part DirectiveArg.outline d.arg, node "mods" (d.modifiers.map fun m => string m),
      part Value.outline d.exp]

mutual

def Node.outline : Node → Text
  | .element t children =>
    node "el" ([Outline.span t.span, string t.name, Outline.span t.nameSpan,
      named "start" (Outline.span t.startTag), named "close" (span? t.closeTag),
      named "inner" (Outline.span t.inner), named "self" (flag t.selfClosing),
      node "props" (t.attrs.map Attr.outline)] ++ outlineNodes children)
  | .text s data =>
    node "text" [Outline.span s, Outline.text data, named "ws" (flag (Text.isBlank data))]
  | .interpolation s e => node "interp" [Outline.span s, e.outline]
  | .comment s data => node "comment" [Outline.span s, Outline.text data]

def outlineNodes : List Node → List Text
  | [] => []
  | n :: ns => n.outline :: outlineNodes ns

end

end SfcTsx.Markup
