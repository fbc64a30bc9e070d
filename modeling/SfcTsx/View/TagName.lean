import SfcTsx.Text.Category
import SfcTsx.Text.Upper

namespace SfcTsx.View

/-- The elements of HTML, with those that only a template has: `component`, `slot`, `template`. -/
def htmlTags : List String := [
  "a", "abbr", "address", "area", "article", "aside", "audio", "b", "base", "bdi", "bdo",
  "blockquote", "body", "br", "button", "canvas", "caption", "cite", "code", "col", "colgroup",
  "component", "data", "datalist", "dd", "del", "details", "dfn", "dialog", "div", "dl", "dt", "em",
  "embed", "fieldset", "figcaption", "figure", "footer", "form", "h1", "h2", "h3", "h4", "h5", "h6",
  "head", "header", "hgroup", "hr", "html", "i", "iframe", "img", "input", "ins", "kbd", "label",
  "legend", "li", "link", "main", "map", "mark", "menu", "meta", "meter", "nav", "noscript",
  "object", "ol", "optgroup", "option", "output", "p", "param", "picture", "pre", "progress", "q",
  "rp", "rt", "ruby", "s", "samp", "script", "search", "section", "select", "slot", "small",
  "source", "span", "strong", "style", "sub", "summary", "sup", "table", "tbody", "td", "template",
  "textarea", "tfoot", "th", "thead", "time", "title", "tr", "track", "u", "ul", "var", "video",
  "wbr"]

/-- The elements of SVG; their letter case matters. -/
def svgTags : List String := [
  "svg", "animate", "animateMotion", "animateTransform", "circle", "clipPath", "defs", "desc",
  "ellipse", "feBlend", "feColorMatrix", "feComponentTransfer", "feComposite", "feConvolveMatrix",
  "feDiffuseLighting", "feDisplacementMap", "feDistantLight", "feDropShadow", "feFlood", "feFuncA",
  "feFuncB", "feFuncG", "feFuncR", "feGaussianBlur", "feImage", "feMerge", "feMergeNode",
  "feMorphology", "feOffset", "fePointLight", "feSpecularLighting", "feSpotLight", "feTile",
  "feTurbulence", "filter", "foreignObject", "g", "image", "line", "linearGradient", "marker",
  "mask", "metadata", "mpath", "path", "pattern", "polygon", "polyline", "radialGradient", "rect",
  "set", "stop", "switch", "symbol", "text", "textPath", "tspan", "use", "view"]

def runtimeComponent? : String → Option String
  | "Transition" | "transition" => some "Transition"
  | "TransitionGroup" | "transition-group" => some "TransitionGroup"
  | "KeepAlive" | "keep-alive" => some "KeepAlive"
  | "Teleport" | "teleport" => some "Teleport"
  | "Suspense" | "suspense" => some "Suspense"
  | _ => none

def isNative (tag : String) : Bool := htmlTags.contains tag || svgTags.contains tag

/-- A hyphen and the word character behind it become that character in upper case. -/
def camelize : Text → Text
  | [] => []
  | [c] => [c]
  | c :: next :: cs =>
    if c = '-' ∧ (Text.isAlphanumeric next ∨ next = '_') then Text.upper next ++ camelize cs
    else c :: camelize (next :: cs)

def capitalize : Text → Text
  | [] => []
  | c :: cs => Text.upper c ++ cs

/-- The name of a tag in the output. Components whose name has a hyphen and no upper case letter are
written in camel case with an initial capital; other names stay. -/
def outputName (tag : String) : String :=
  match runtimeComponent? tag with
  | some name => name
  | none =>
    if isNative tag || !tag.toList.contains '-' || tag.toList.any Char.isUpper then tag
    else String.ofList (capitalize (camelize tag.toList))

end SfcTsx.View
