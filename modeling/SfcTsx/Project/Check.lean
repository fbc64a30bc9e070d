import SfcTsx.Component.Compile
import SfcTsx.Project.Glob
import SfcTsx.Project.Report
import SfcTsx.Project.Settings

namespace SfcTsx.Project

inductive ProjectError where
  | configRead
  | configParse
  | invalidGlob
  | write (path : Text)
deriving DecidableEq, Repr

/-- All that is decided before the first component is read. -/
structure Session where
  arguments : Arguments
  settings : Settings
  ignored : List Glob

def defaultIgnores : List Text :=
  ["**/node_modules/**".toList, "**/dist/**".toList, "**/.git/**".toList]

namespace Session

def start (arguments : Arguments) (projectFile : Option Text) : Except ProjectError Session := do
  let file ← match projectFile with
    | none => pure {}
    | some content =>
      match FileOptions.parse? content with
      | some file => pure file
      | none => throw .configParse
  match (arguments.ignore ++ defaultIgnores).mapM Glob.parse? with
  | some ignored => return { arguments, settings := .resolve arguments file, ignored }
  | none => throw .invalidGlob

def selects (s : Session) (path : Text) : Bool :=
  s.settings.selects path && !s.ignored.any (·.matches path)

def reports (s : Session) (severity : Severity) : Bool :=
  s.arguments.threshold = .warning || severity = .error

end Session

structure Source where
  path : Text
  location : Text
  content : Text

structure FileCheck where
  diagnostics : List Diagnostic
  text : Text
  json : List Json
  emitted : Text
  /-- Files to write, by their path in the output directory. -/
  outputs : List (Text × Text)

def mapText? (s : Session) (source : Source) (a : Component.Artifact) : Option Text :=
  if a.sourceMap.isEmpty then none
  else
    let options : V3.Options :=
      { source := source.location, file := fileName? a.filename, includeContent := true
        hires := s.settings.compile.hiresMaps }
    some (a.toV3 source.content options).render

/-- The files of a module: its source map, and the module with a remark that names the map. -/
def artifactFiles (s : Session) (source : Source) (a : Component.Artifact) : List (Text × Text) :=
  match mapText? s source a with
  | none => [(a.filename, a.content)]
  | some map =>
    let mapName := a.filename ++ ".map".toList
    let remark := "//# sourceMappingURL=".toList ++ (fileName? mapName).getD [] ++ ['\n']
    [(mapName, map), (a.filename, a.content ++ remark)]

def Session.check (s : Session) (source : Source) : FileCheck :=
  let output := Component.compile s.settings.compile source.path source.content
  let diagnostics := output.diagnostics.filter fun d => s.reports d.severity
  let isJson := s.arguments.output = .json
  { diagnostics
    text := report s.arguments.output source.path source.content diagnostics
    json := if isJson then reportJson source.path source.content diagnostics else []
    emitted := if s.arguments.emit then
        output.artifacts.flatMap fun a =>
          "=== ".toList ++ a.filename ++ " ===\n".toList ++ a.content ++ ['\n']
      else []
    outputs := if s.arguments.outDir.isSome then output.artifacts.flatMap (artifactFiles s source)
      else [] }

def Session.summary (s : Session) (checks : List FileCheck) : Summary :=
  .ofDiagnostics checks.length s.arguments.failOnWarnings (checks.flatMap (·.diagnostics))

/-- The end of the report: all problems in JSON, or else the summary. -/
def Session.closing (s : Session) (checks : List FileCheck) : Text :=
  if s.arguments.output = .json then (Json.arr (checks.flatMap (·.json))).pretty ++ ['\n']
  else (s.summary checks).text ++ ['\n']

end SfcTsx.Project
