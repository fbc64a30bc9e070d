import SfcTsx.Script.Ascii
import SfcTsx.Script.Grammar
import SfcTsx.Script.Tolerant
import SfcTsx.Text.Space

namespace SfcTsx.Script

/-- The dialect for the value of a `lang` attribute; what is unknown is typed. -/
def Dialect.ofLang (lang : Option Text) : Dialect :=
  match lang.map fun t => String.ofList t.trim with
  | some "tsx" => .tsx
  | some "js" | some "mjs" | some "cjs" => .js
  | some "jsx" => .jsx
  | _ => .ts

inductive Strategy where
  | strict
  | tolerant
deriving DecidableEq, Repr

def maxNesting : Nat := 128

inductive SyntaxNote where
  | nesting (depth : Nat) (span : Span)
  | rejected
deriving DecidableEq, Repr

namespace SyntaxNote

def message : SyntaxNote → String
  | .nesting depth _ => s!"brackets nest {depth} levels deep, more than {maxNesting}"
  | .rejected => "the script breaks the grammar"

end SyntaxNote

structure Reading where
  program : Program
  strategy : Strategy
  note : Option SyntaxNote

section

variable (strict? : Dialect → Text → Option Program)

/-- Reads a text by a parser that may refuse it, or else with tolerance. -/
def readText (dialect : Dialect) (text : Text) : Reading :=
  let depth := Token.nestingDepth text
  let tolerant (note : SyntaxNote) : Reading :=
    { program := Tolerant.parse dialect text, strategy := .tolerant, note := some note }
  if maxNesting < depth then tolerant (.nesting depth ⟨0, text.size⟩)
  else match strict? dialect text with
    | some program => { program, strategy := .strict, note := none }
    | none => tolerant .rejected

def readBy (dialect : Dialect) (ascii : Bool) (source : Text) : Reading :=
  if ascii && source.any (128 ≤ ·.toNat) then
    let a := Ascii.ofText source
    let reading := readText strict? dialect a.text
    { reading with
      program := reading.program.relocate a.relocation
      note := reading.note.map fun
        | .nesting depth span => .nesting depth (a.span span)
        | .rejected => .rejected }
  else readText strict? dialect source

end

def read : Dialect → Bool → Text → Reading := readBy Grammar.parse?

end SfcTsx.Script
