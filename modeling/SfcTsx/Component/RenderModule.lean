import SfcTsx.Component.ScriptModule
import SfcTsx.Markup.Template.Parser
import SfcTsx.View.Render

namespace SfcTsx.Component

open EditBuffer
open Markup (Document Template)

def renderHeader (o : Options) (components : List String) (context : Context) (script : Text) : Text :=
  let runtime := ", ".intercalate ("renderList" :: components)
  let accessor := accessorName o
  let ctx := o.name "ctx"
  let render := o.name "render"
  let props := o.name "props"
  let bindingNames := ", ".intercalate context.bindings
  let propNames := ", ".intercalate context.props
  let bindings := if context.bindings.isEmpty then "" else s!"const \x7b {bindingNames} \x7d = {ctx};\n"
  let declaredProps := if context.hasSetup && !context.props.isEmpty then
      s!"const \x7b {propNames} \x7d = {ctx}.{props};\n"
    else ""
  let (asyncWord, awaitWord) := if context.isAsync then ("async ", "await ") else ("", "")
  (s!"import \x7b {runtime} \x7d from \"vue\";\nimport \x7b {accessor} \x7d from \"").toList ++ script ++
    (s!"\";\nexport {asyncWord}function {render}() \x7b\nconst {ctx} = {awaitWord}{accessor}();\n" ++
      bindings ++ declaredProps ++ "return (<>").toList

def renderFooter : Text := "</>);\n\x7d\n".toList

def readTemplate (d : Document) : Option (Template × List Markup.ParseError) :=
  d.template?.map fun block => Template.parse d.source block.content

def editTemplate (o : Options) (d : Document) (template : Option Template) (context : Context)
    (script : Text) : Editing (List Diagnostic) := do
  perform (View.removeExcept ⟨0, d.source.size⟩ (d.template?.toList.map (·.content)))
  let rendered ← match template with
    | some t => View.renderTemplate { source := d.source, marker := o.marker.toList } t
    | none => pure { components := [], diagnostics := [] }
  prepend (renderHeader o rendered.components context script)
  append renderFooter
  return rendered.diagnostics

structure RenderModule extends Module where
  diagnostics : List Diagnostic

def RenderModule.write (o : Options) (d : Document) (context : Context) (script : Text) : RenderModule :=
  let template := readTemplate d
  let errors : List Diagnostic := (template.map fun t => t.2.map fun e =>
    ({ code := .templateParse, message := e.message.toList, span := e.span } : Diagnostic)).getD []
  match (editTemplate o d (template.map (·.1)) context script).run (.ofText d.source) with
  | .ok diagnostics b => { Module.ofBuffer b with diagnostics := errors ++ diagnostics }
  | .error e _ =>
    let span := (d.template?.map (·.content)).getD ⟨0, 0⟩
    { content := renderHeader o [] context script ++ renderFooter, sourceMap := .empty
      diagnostics := errors ++ [editFailed "render" e span] }

end SfcTsx.Component
