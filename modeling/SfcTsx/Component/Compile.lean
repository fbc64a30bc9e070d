import SfcTsx.Component.Artifact
import SfcTsx.Component.RenderModule
import SfcTsx.Markup.Extract

namespace SfcTsx.Component

open Markup (Document)

/-- What stands for the component where it is imported: it exports what the component exports, each
name on its own, and imports the render module so that it is checked as well. -/
def bundleText (script render : Text) (e : Exports) : Text :=
  let named (keyword : String) (names : List String) : Text :=
    if names.isEmpty then []
    else
      let list := ", ".intercalate names
      (s!"export {keyword}\x7b {list} \x7d from \"").toList ++ script ++ "\";\n".toList
  named "" ["default"] ++ named "" e.values ++ named "type " e.types ++
    e.modules.flatMap (fun module => (s!"export * from \"{module}\";\n").toList) ++
    "import \"".toList ++ render ++ "\";\n".toList

structure Output where
  /-- Script, render and bundle module, in this order. -/
  artifacts : List Artifact
  /-- Sorted by where they start. -/
  diagnostics : List Diagnostic

def Output.hasErrors (output : Output) : Bool := output.diagnostics.any Diagnostic.isError

def compile (o : Options) (filename source : Text) : Output :=
  let (document, errors) := Document.parse o.keepEmpty source
  let blockErrors : List Diagnostic := errors.map fun e =>
    { code := .blockParse, message := e.message.toList, span := e.span }
  let scripts := Scripts.ofDocument o document
  let script := ScriptModule.write o document scripts
  let render := RenderModule.write o document script.context (specifier filename .script)
  let bundle := bundleText (specifier filename .script) (specifier filename .render) script.exports
  { artifacts := [
      ⟨.script, artifactName filename .script scripts.extension, script.content, script.sourceMap⟩,
      ⟨.render, artifactName filename .render "tsx", render.content, render.sourceMap⟩,
      ⟨.bundle, artifactName filename .bundle "ts", bundle, .empty⟩]
    diagnostics := sortOn (·.span.start) (blockErrors ++ script.diagnostics ++ render.diagnostics) }

end SfcTsx.Component
