import SfcTsx.Markup.Template

namespace SfcTsx.Markup

namespace Directive

/-- The name of a directive, what stands behind it, and whether that begins with an argument without
a colon in front. -/
structure Head where
  name : Text
  tail : Text
  shorthand : Bool

/-- Splits a written name, if it is that of a directive. -/
def head? (raw : Text) : Option Head :=
  match raw with
  | ':' :: tail => some ⟨("bind" : String), tail, true⟩
  | '@' :: tail => some ⟨("on" : String), tail, true⟩
  | '#' :: tail => some ⟨("slot" : String), tail, true⟩
  | '.' :: tail => some ⟨("bind" : String), tail, true⟩
  | 'v' :: '-' :: c :: rest =>
    if c.isAlphanum then
      let name := (c :: rest).takeWhile fun c => c != ':' && c != '.'
      some ⟨name, (c :: rest).drop name.length, false⟩
    else none
  | _ => none

/-- The argument at the start of a text that stands at an offset, and what follows it. An empty
argument is none. -/
def scanArg (offset : Nat) (tail : Text) : Option DirectiveArg × Text :=
  let arg (offset : Nat) (content : Text) (dynamic : Bool) : Option DirectiveArg :=
    if content.isEmpty then none
    else some ⟨String.ofList content, ⟨offset, offset + Text.size content⟩, dynamic⟩
  match tail with
  | '[' :: inner =>
    let content := inner.takeWhile (· != ']')
    (arg (offset + 1) content true, inner.drop (content.length + 1))
  | _ =>
    let content := tail.takeWhile (· != '.')
    (arg offset content false, tail.drop content.length)

def scanTail (offset : Nat) (head : Head) : Option DirectiveArg × Text :=
  match head.shorthand, head.tail with
  | true, tail => scanArg offset tail
  | false, ':' :: tail => scanArg (offset + 1) tail
  | false, tail => (none, tail)

def splitModifiers (tail : Text) : List String :=
  ((Text.splitOn '.' tail).filter (!·.isEmpty)).map String.ofList

end Directive

def Attr.ofRaw (a : RawAttr) : Attr :=
  let raw := a.name.toList
  match Directive.head? raw with
  | none => .plain ⟨a.span, a.name, a.nameSpan, a.value⟩
  | some head =>
    let tail := Directive.scanTail (a.nameSpan.stop - Text.size head.tail) head
    let own := if raw.head? = some '.' then ["prop"] else []
    .directive
      { span := a.span
        rawName := a.name
        name := String.ofList head.name
        nameSpan := a.nameSpan
        arg := tail.1
        modifiers := Directive.splitModifiers tail.2 ++ own
        exp := a.value }

end SfcTsx.Markup
