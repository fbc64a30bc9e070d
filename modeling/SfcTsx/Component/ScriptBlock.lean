import SfcTsx.Component.Exposed
import SfcTsx.Component.Options
import SfcTsx.Diagnostic
import SfcTsx.Markup.Block
import SfcTsx.Script.Generic
import SfcTsx.Script.Parse
import SfcTsx.View.Handler

namespace SfcTsx.Component

open Markup (Block Document)
open Script (Item MacroItem Program Stmt Expr)

structure ScriptBlock where
  block : Block
  source : Text
  dialect : Script.Dialect
  program : Program
  items : List Item
  note : Option Script.SyntaxNote

namespace ScriptBlock

def ofBlock (o : Options) (document : Text) (block : Block) : ScriptBlock :=
  let source := block.content.text document
  let dialect := match block.lang? with
    | some lang => .ofLang (some lang)
    | none => o.dialect
  let reading := Script.read dialect o.ascii source
  let options : Script.ClassifyOptions :=
    { mode := if block.isSetup then .deep else .shallow, marker := o.marker
      helpersModule := o.helpersModule }
  { block, source, dialect, program := reading.program
    items := Script.classify options source reading.program, note := reading.note }

def locate (s : ScriptBlock) (span : Span) : Span := span.shift s.block.content.start

def macros (s : ScriptBlock) : List MacroItem :=
  s.items.filterMap fun
    | .macroCall m => some m
    | _ => none

def valueNames (s : ScriptBlock) : List String :=
  s.items.flatMap fun
    | .declaration d =>
      match d.kind with
      | .variable _ => if d.generated then [] else [d.name]
      | .typeAlias => []
    | .binding b => [b.name]
    | .importItem i =>
      if i.generated then [] else (i.bindings.filter (!·.typeOnly)).map (·.name)
    | _ => []

def isAsync (s : ScriptBlock) : Bool :=
  s.items.any fun
    | .async first => first.isSome
    | _ => false

def defaultExport? (s : ScriptBlock) : Option (Span × Expr) :=
  s.program.body.findSome? fun
    | .exportDefault span e => some (span, e)
    | _ => none

def diagnostics (s : ScriptBlock) : List Diagnostic :=
  let syntaxNotes : List Diagnostic := match s.note with
    | some note@(.nesting _ span) => [⟨.scriptSyntax, note.message.toList, s.locate span⟩]
    | some note@.rejected => [⟨.scriptSyntax, note.message.toList, s.block.content⟩]
    | none => []
  syntaxNotes ++ s.items.filterMap fun
    | .error p => some ⟨.setupExport, p.message.toList, s.locate p.span⟩
    | .warning p => some ⟨.macroUsage, p.message.toList, s.locate p.span⟩
    | _ => none

end ScriptBlock

structure Scripts where
  script : Option ScriptBlock
  setup : Option ScriptBlock
  generics : Option Script.Generics

namespace Scripts

def all (s : Scripts) : List ScriptBlock := s.script.toList ++ s.setup.toList

def ofDocument (o : Options) (d : Document) : Scripts :=
  let setup := d.setup?.map (.ofBlock o d.source)
  { script := d.script?.map (.ofBlock o d.source)
    setup
    generics := do
      let value ← (← setup).block.value? "generic"
      Script.Generics.parse? value.content value.span o.marker.toList }

def genericDiagnostics (s : Scripts) : List Diagnostic :=
  match s.setup.bind (·.block.value? "generic"), s.generics with
  | some value, none => [⟨.invalidGeneric, "invalid generic parameters".toList, value.span⟩]
  | _, _ => []

def diagnostics (s : Scripts) : List Diagnostic :=
  s.all.flatMap ScriptBlock.diagnostics ++ s.genericDiagnostics

def extension (s : Scripts) : String :=
  if s.all.any (·.dialect.hasMarkup) then "tsx" else "ts"

end Scripts

structure Context where
  bindings : List String := []
  /-- Props that are known and are not among the bindings. -/
  props : List String := []
  isAsync : Bool := false
  hasSetup : Bool := false
deriving DecidableEq, Repr

/-- The props that the macros of a setup script declare and no binding hides. -/
def setupProps (setup : ScriptBlock) (bindings : List String) : List String :=
  let declaring := setup.macros.filter fun m => m.kind = .props || m.kind = .model
  ((declaring.flatMap (·.propNames)).filter fun name =>
    View.isIdentifier name.toList && !bindings.contains name).eraseDups

def Scripts.context (s : Scripts) (o : Options) : Context :=
  match s.setup with
  | none =>
    let options := s.script.bind (·.defaultExport?)
    { bindings := (options.map fun (_, e) => exposedNames e).getD [] }
  | some setup =>
    let names := (s.all.flatMap ScriptBlock.valueNames).filter fun name =>
      !o.marker.toList.isPrefixOf name.toList
    let bindings := names.eraseDups
    { bindings, props := setupProps setup bindings, isAsync := setup.isAsync, hasSetup := true }

structure Exports where
  values : List String := []
  types : List String := []
  /-- The modules from which everything is exported. -/
  modules : List String := []
deriving DecidableEq, Repr

/-- The exports of the scripts; a setup script can export types only. -/
def Scripts.exports (s : Scripts) : Exports :=
  let exportsOf (block : ScriptBlock) : List Script.ExportItem := block.items.filterMap fun
    | .exportItem e => some e
    | _ => none
  let items := s.script.toList.flatMap exportsOf ++
    (s.setup.toList.flatMap exportsOf).filter (·.typeOnly)
  let names (typeOnly : Bool) : List String :=
    ((items.filter fun e => e.source.isNone && e.typeOnly == typeOnly).flatMap fun e =>
      e.names.filter (· != "default")).eraseDups
  { values := names false, types := names true
    modules := (items.filterMap (·.source)).eraseDups }

end SfcTsx.Component
