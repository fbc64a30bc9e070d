import SfcTsx.Component.ScriptBlock
import SfcTsx.EditBuffer.Move
import SfcTsx.View.Attribute

namespace SfcTsx.Component

open EditBuffer
open Markup (Document)
open Script (MacroItem Stmt Expr)

structure Module where
  content : Text
  sourceMap : SourceMap

def accessorName (o : Options) : String := o.name "BindingContext"

def Module.ofBuffer (b : EditBuffer) : Module := ⟨b.render, b.sourceMap⟩

def importSpecifier (b : Script.ImportBinding) : String :=
  match b.imported with
  | some imported => if imported = b.name then b.name else s!"{imported} as {b.name}"
  | none => b.name

def distinctBindings (bindings : List (String × Script.ImportBinding)) :
    List (String × Script.ImportBinding) :=
  bindings.foldl (fun kept b => if kept.any (·.2.name = b.2.name) then kept else kept ++ [b]) []

/-- The bindings that the macros of a script import, each with its module. -/
def generatedBindings (s : ScriptBlock) : List (String × Script.ImportBinding) :=
  distinctBindings <| s.items.flatMap fun
    | .importItem i => if i.generated then i.bindings.map (i.source, ·) else []
    | _ => []

/-- The imports at the head of the module; those of macros are one statement for each module. -/
def scriptHeader (o : Options) (s : Scripts) : Text :=
  let define := o.name "defineComponent"
  let bindings := s.setup.toList.flatMap generatedBindings
  let imports := (bindings.map (·.1)).eraseDups.map fun source =>
    let specifiers := (bindings.filter (·.1 = source)).map fun b => importSpecifier b.2
    let names := ", ".intercalate specifiers
    s!"import type \x7b {names} \x7d from \"{source}\";\n"
  (s!"import \x7b defineComponent as {define} \x7d from \"vue\";\n" ++ String.join imports).toList

def scriptFooter (o : Options) (hasSetup hasOptions : Bool) : Text :=
  let options := o.name "options"
  let define := o.name "defineComponent"
  let accessor := accessorName o
  let declared := if hasOptions then "" else s!"const {options} = \x7b\x7d;\n"
  let exported :=
    if hasSetup then
      s!"export default {define}(\x7b ...{options}, setup() \x7b return {accessor}(); \x7d \x7d);\n"
    else
      let body := if hasOptions then s!"new ({define}({options}))()" else "\x7b\x7d"
      s!"export function {accessor}() \x7b\n  return {body};\n\x7d\nexport default {define}({options});\n"
  ("\n" ++ declared ++ exported).toList

/-- The head of the function, in which each type parameter gets its own name back. -/
def opener (o : Options) (generics : Option Script.Generics) (isAsync : Bool) : Text :=
  let declaration := (generics.map (·.declaration)).getD []
  let aliases := (generics.map fun g => (g.names.zip g.markedNames).flatMap fun (name, marked) =>
    "type ".toList ++ name.toList ++ " = ".toList ++ marked ++ ";\n".toList).getD []
  "export ".toList ++ (if isAsync then "async " else "").toList ++ "function ".toList
    ++ (accessorName o).toList ++ declaration ++ "() \x7b\n".toList ++ aliases

def declaredType (source : Text) (m : MacroItem) : Text :=
  match m.typeArgs with
  | none => m.aliasName.toList
  | some span =>
    let text := Text.trim (span.text source)
    let inner := (Text.after? ['<'] text).getD text
    Text.trim ((Text.before? ['>'] inner).getD inner)

def modelType (source : Text) (m : MacroItem) : Text :=
  let name := m.modelName.getD Script.defaultModelName
  let key := if View.isIdentifier name.toList then name else s!"\"{name}\""
  "\x7b ".toList ++ key.toList ++ "?: ".toList ++ declaredType source m ++ " \x7d".toList

def propsType (setup : ScriptBlock) : Text :=
  let props := (setup.macros.filter (·.kind = .props)).reverse.map (declaredType setup.source)
  let models := (setup.macros.filter (·.kind = .model)).map (modelType setup.source)
  let parts := props ++ models
  if parts.isEmpty then "\x7b\x7d".toList else Text.join " & ".toList parts

def closer (o : Options) (setup : ScriptBlock) (context : Context) : Text :=
  let props := (o.name "props").toList ++ ": \x7b\x7d as ".toList ++ propsType setup
  let fields := context.bindings.map String.toList ++ [props]
  "\nreturn \x7b ".toList ++ Text.join ", ".toList fields ++ " \x7d;\n\x7d\n".toList

/-- What becomes of a statement of a setup script. -/
inductive Treatment where
  /-- It stays where it is, inside the function. -/
  | body
  /-- It has to stand before the function. -/
  | importing
  /-- It is moved before the function. -/
  | hoisted
  /-- Its text up to an offset is removed, and what remains stands inside the function. -/
  | dropped (stop : Nat)

def treatment : Stmt → Treatment
  | .importDecl _ => .importing
  | .exportDecl _ (.typeDecl _) => .hoisted
  | .exportDecl _ decl => .dropped decl.span.start
  | .exportNamed span typeOnly _ _ => if typeOnly then .hoisted else .dropped span.stop
  | .exportAll span typeOnly _ => if typeOnly then .hoisted else .dropped span.stop
  | .exportDefault span _ => .dropped span.stop
  | .exportOther span _ => .dropped span.stop
  | _ => .body

/-- How far the statements of a setup script are laid out. -/
structure Layout where
  /-- Where the first statement inside the function starts. -/
  bodyStart : Option Nat := none
  /-- Where the statements that were moved before the function end. -/
  hoistedEnds : List Nat := []
deriving DecidableEq, Repr

def Layout.openAt (l : Layout) (start : Nat) : Layout :=
  { l with bodyStart := l.bodyStart <|> some start }

def hoist (target : Nat) (span : Span) (l : Layout) : Editing Layout := do
  moveRange span.start span.stop target
  return { l with hoistedEnds := l.hoistedEnds ++ [span.stop] }

def layOut (setup : ScriptBlock) (l : Layout) (s : Stmt) : Editing Layout := do
  let target := setup.block.openTag.start
  let span := setup.locate s.span
  match treatment s with
  | .body => return l.openAt span.start
  | .importing => if l.bodyStart.isSome then hoist target span l else return l
  | .hoisted => hoist target span l
  | .dropped stop =>
    remove span.start (setup.block.content.start + stop)
    return l.openAt span.start

/-- Gives a macro call a variable and a type alias of its own:

`const props = defineProps({ a: String })` becomes
`const V = defineProps({ a: String }); type A = ExtractProps<typeof V>; const props = V` -/
def expandMacro (o : Options) (setup : ScriptBlock) (m : MacroItem) : Editing Unit := do
  if m.typeArgs.isNone then
    let call := setup.locate m.call
    let statement := setup.locate m.statement
    let helper := o.name m.kind.helper
    prependRight call.start (s!"const {m.variableName} = ").toList
    insertLeft call.stop (s!";\ntype {m.aliasName} = {helper}<typeof {m.variableName}>;\n").toList
    unless m.bare do
      if statement.start < call.start then
        moveRange call.start call.stop statement.start
        insertLeft call.start m.variableName.toList
      else
        insertLeft call.stop m.variableName.toList

/-- Puts the function around the body of a setup script. Its head stands left of the first statement, so
that macro calls moved in front of that stay inside. -/
def wrapSetup (o : Options) (s : Scripts) (setup : ScriptBlock) (context : Context) (l : Layout) :
    Editing Unit := do
  let stop := setup.block.content.stop
  let head := opener o s.generics context.isAsync
  prependRight stop (closer o setup context)
  match l.bodyStart with
  | some start =>
    if l.hoistedEnds.contains start then prependRight start head else insertLeft start head
  | none => prependRight stop head

def editSetup (o : Options) (s : Scripts) (setup : ScriptBlock) (context : Context) : Editing Unit := do
  let layout ← setup.program.body.foldlM (layOut setup) {}
  setup.macros.forM (expandMacro o setup)
  wrapSetup o s setup context layout

def editDefaultExport (o : Options) (script : ScriptBlock) : Editing Unit :=
  match script.defaultExport? with
  | some (span, e) =>
    overwrite (script.locate span).start (script.locate e.span).start
      (s!"const {o.marker}options = ").toList
  | none => pure ()

def editScripts (o : Options) (d : Document) (s : Scripts) (context : Context) : Editing Unit := do
  perform (View.removeExcept ⟨0, d.source.size⟩ (s.all.map (·.block.content)))
  s.script.toList.forM (editDefaultExport o)
  s.setup.toList.forM fun setup => editSetup o s setup context
  prepend (scriptHeader o s)
  append (scriptFooter o s.setup.isSome (s.script.bind (·.defaultExport?)).isSome)

/-- Every end of a comment gets a backslash. -/
def escapeComment : Text → Text
  | '*' :: '/' :: rest => '*' :: '\\' :: '/' :: escapeComment rest
  | c :: rest => c :: escapeComment rest
  | [] => []

/-- The module that stands for scripts that cannot be edited: their text as a comment, and a function
without bindings. -/
def emptyScript (o : Options) (s : Scripts) : Text :=
  let accessor := accessorName o
  "/*\n".toList ++ s.all.flatMap (fun block => escapeComment block.source ++ ['\n']) ++
    ("*/\n" ++ s!"export function {accessor}() \x7b\n  return \x7b\x7d;\n\x7d\nexport default \x7b\x7d;\n").toList

def Scripts.span (s : Scripts) : Span :=
  match s.all.map (·.block.content) with
  | [] => ⟨0, 0⟩
  | first :: rest => rest.foldl Span.cover first

structure ScriptModule extends Module where
  context : Context
  exports : Exports
  diagnostics : List Diagnostic

def editFailed (kind : String) (e : EditError) (span : Span) : Diagnostic :=
  ⟨.editFailed, (s!"{kind} module: rewrite failed: {e.message}").toList, span⟩

def ScriptModule.write (o : Options) (d : Document) (s : Scripts) : ScriptModule :=
  let context := s.context o
  match (editScripts o d s context).run (.ofText d.source) with
  | .ok _ b => { Module.ofBuffer b with context, exports := s.exports, diagnostics := s.diagnostics }
  | .error e _ =>
    { content := emptyScript o s, sourceMap := .empty, context := {}, exports := {}
      diagnostics := s.diagnostics ++ [editFailed "script" e s.span] }

end SfcTsx.Component
