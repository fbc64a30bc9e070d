import SfcTsx.Project.Files

namespace SfcTsx.Project.Command

def helpText : String := "Compiles Vue single-file components to type-checkable TSX

Usage: vue-tsx [OPTIONS]

Options:
      --workspace <WORKSPACE>            Directory to scan for components [default: .]
      --output <OUTPUT>                  Output format [default: human] [possible values: human, human-verbose, json, machine]
      --tsconfig <TSCONFIG>              Path to tsconfig.json (defaults to the one in the workspace)
      --threshold <THRESHOLD>            Minimum severity threshold [default: warning] [possible values: error, warning]
      --watch                            Recompile when a component changes
      --preserveWatchOutput              Preserve watch output (don't clear screen)
      --fail-on-warnings                 Exit with error on warnings
      --ignore <IGNORE>                  Glob patterns to ignore, relative to the workspace
      --emit                             Print the generated modules to stderr
      --out-dir <OUT_DIR>                Write the generated modules and their source maps under this directory
      --prefix <PREFIX>                  Prefix of synthesized identifiers (overrides vueCompilerOptions.markerPrefix)
      --helpers-module <HELPERS_MODULE>  Module the macro type helpers are imported from
      --hires-maps                       Write one source map segment per character
      --timings                          Print timing breakdowns
      --timings-format <TIMINGS_FORMAT>  Timing output format [default: text] [possible values: text, json]
  -v, --verbose...                       Increase log verbosity (-v debug, -vv trace)
  -h, --help                             Print help
  -V, --version                          Print version"

def versionText : String := "vue-tsx 0.9.5"

def usageMessage : UsageError → String
  | .unknownArgument => "error: unexpected argument found"
  | .invalidValue => "error: a value is missing or invalid"
  | .argumentConflict => "error: an argument cannot be used multiple times"
  | .tooManyValues => "error: unexpected value for an argument"
  | .displayHelp => helpText
  | .displayVersion => versionText

def usageExit (e : UsageError) : IO UInt32 := do
  match e with
  | .displayHelp | .displayVersion =>
    IO.println (usageMessage e)
    return 0
  | _ =>
    IO.eprintln (usageMessage e ++
      "\n\nUsage: vue-tsx [OPTIONS]\n\nFor more information, try '--help'.")
    return 2

def projectMessage : ProjectError → String
  | .configRead => "failed to read the project file"
  | .configParse => "failed to parse the project file"
  | .invalidGlob => "invalid glob pattern"
  | .write path => "failed to write " ++ String.ofList path

def isYes (value : String) : Bool := ["1", "true", "yes", "on"].contains value.toLower

/-- The paths of the files in a directory, in the order of their names. -/
partial def search (root path : String) : IO (List String) := do
  let entries ← try (← IO.FS.realPath (root ++ "/" ++ path)).readDir catch _ => pure #[]
  let sorted := sortBy (fun a b => textLe a.fileName.toList b.fileName.toList) entries.toList
  let mut found := #[]
  for entry in sorted do
    let inner := if path.isEmpty then entry.fileName else path ++ "/" ++ entry.fileName
    match (← entry.path.symlinkMetadata).type with
    | .dir => found := found ++ (← search root inner)
    | .file => found := found.push inner
    | _ => pure ()
  return found.toList

def readProjectFile (args : Arguments) (workspace : String) : IO (Except ProjectError (Option Text)) := do
  let read (path : String) : IO (Except ProjectError (Option Text)) := do
    try return .ok (some (← IO.FS.readFile path).toList) catch _ => return .error .configRead
  match args.tsconfig with
  | some path => read (String.ofList path)
  | none =>
    let path := workspace ++ "/tsconfig.json"
    let found ← (IO.FS.realPath path).toBaseIO
    if found.isOk then read path else return .ok none

def readSources (session : Session) (workspace : String) : IO (List Source) := do
  let mut sources := #[]
  for path in (← search workspace "") do
    if session.selects path.toList then
      let location := workspace ++ "/" ++ path
      match ← (IO.FS.readFile location).toBaseIO with
      | .ok content =>
        sources := sources.push
          { path := path.toList, location := location.toList, content := content.toList }
      | .error e => IO.eprintln s!"WARN failed to read file {location}: {e}"
  return sources.toList

def directoryOf (path : String) : String :=
  "/".intercalate ((path.splitOn "/").dropLast)

def writeFiles (directory : String) (files : List (Text × Text)) : IO (Except ProjectError Unit) := do
  for (name, content) in files do
    let path := directory ++ "/" ++ String.ofList name
    try
      IO.FS.createDirAll (directoryOf path)
      IO.FS.writeFile path (String.ofList content)
    catch _ => return .error (.write path.toList)
  return .ok ()

def printTimings (format : TimingFormat) (phases : List (String × Nat)) (files written : Nat) : IO Unit :=
  match format with
  | .json => do
    let times := phases.map fun (name, ms) => (name ++ "_ms", Json.nat ms)
    let counts := [("file_count", Json.nat files), ("written_count", Json.nat written)]
    IO.eprintln (String.ofList (Json.record (times ++ counts)).pretty)
  | .text => do
    IO.eprintln "=== vue-tsx timings ==="
    for (name, ms) in phases do
      let phase := name.replace "_" " "
      IO.eprintln s!"{phase}: {ms}ms"
    IO.eprintln s!"files: {files} compiled, {written} written"

def checkOnce (session : Session) (workspace : String) (timings : Bool) :
    IO (Except ProjectError Summary) := do
  let begun ← IO.monoMsNow
  let sources ← readSources session workspace
  let scanned ← IO.monoMsNow
  let checks := sources.map session.check
  for check in checks do
    IO.eprint (String.ofList check.emitted)
    if let some directory := session.arguments.outDir then
      if let .error e ← writeFiles (String.ofList directory) check.outputs then return .error e
  let compiled ← IO.monoMsNow
  for check in checks do
    IO.print (String.ofList check.text)
  if timings then
    let written := (checks.flatMap (·.outputs)).length
    printTimings session.arguments.timingsFormat
      [("file_scan", scanned - begun), ("compile", compiled - scanned), ("total", compiled - begun)]
      sources.length written
  IO.print (String.ofList (session.closing checks))
  return .ok (session.summary checks)

/-- Checks the workspace again whenever a component differs from what it was. -/
partial def watch (session : Session) (workspace : String) (timings : Bool) (known : List (Text × Text)) :
    IO UInt32 := do
  IO.sleep 500
  let current := (← readSources session workspace).map fun source => (source.path, source.content)
  unless current == known do
    unless session.arguments.preserveWatchOutput do IO.print "\x1b[2J\x1b[1;1H"
    IO.println "File changed, recompiling...\n"
    if let .error e ← checkOnce session workspace timings then
      IO.eprintln ("WARN recompilation failed: " ++ projectMessage e)
  watch session workspace timings current

def execute (args : Arguments) : IO UInt32 := do
  let given := String.ofList args.workspace
  let current ← IO.currentDir
  let workspace := if given.startsWith "/" then given else s!"{current}/{given}"
  let fail (e : ProjectError) : IO UInt32 := do
    IO.eprintln ("Error: " ++ projectMessage e)
    return 1
  match ← readProjectFile args workspace with
  | .error e => fail e
  | .ok projectFile =>
    match Session.start args projectFile with
    | .error e => fail e
    | .ok session =>
      let wanted := ((← IO.getEnv "VUE_TSX_TIMINGS").map isYes).getD false
      let timings := args.timings || args.timingsFormat == .json || wanted
      if args.watch then IO.println "Starting watch mode...\n"
      match ← checkOnce session workspace timings with
      | .error e => fail e
      | .ok summary =>
        if args.watch then
          IO.println "Watching for changes... (Ctrl+C to stop)\n"
          watch session workspace timings
            ((← readSources session workspace).map fun source => (source.path, source.content))
        else return if summary.failed then 1 else 0

end SfcTsx.Project.Command

def main (args : List String) : IO UInt32 :=
  match SfcTsx.Project.Arguments.parse (args.map String.toList) with
  | .ok args => SfcTsx.Project.Command.execute args
  | .error e => SfcTsx.Project.Command.usageExit e
