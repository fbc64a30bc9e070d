import SfcTsx.Text

namespace SfcTsx.Project

inductive OutputFormat where
  | human
  | humanVerbose
  | json
  | machine
deriving DecidableEq, Repr

inductive Threshold where
  | error
  | warning
deriving DecidableEq, Repr

inductive TimingFormat where
  | text
  | json
deriving DecidableEq, Repr

structure Arguments where
  workspace : Text := ['.']
  output : OutputFormat := .human
  tsconfig : Option Text := none
  threshold : Threshold := .warning
  watch : Bool := false
  /-- Do not clear the screen before that. -/
  preserveWatchOutput : Bool := false
  failOnWarnings : Bool := false
  ignore : List Text := []
  emit : Bool := false
  outDir : Option Text := none
  marker : Option Text := none
  helpersModule : Option Text := none
  hiresMaps : Bool := false
  timings : Bool := false
  timingsFormat : TimingFormat := .text
  verbosity : Nat := 0
deriving DecidableEq, Repr

def Arguments.logLevel (a : Arguments) : String :=
  match a.verbosity with
  | 0 => "warn"
  | 1 => "debug"
  | _ => "trace"

inductive UsageError where
  | unknownArgument
  | invalidValue
  | argumentConflict
  | tooManyValues
  | displayHelp
  | displayVersion
deriving DecidableEq, Repr

inductive Switch where
  | workspace
  | output
  | tsconfig
  | threshold
  | watch
  | preserveWatchOutput
  | failOnWarnings
  | ignore
  | emit
  | outDir
  | marker
  | helpersModule
  | hiresMaps
  | timings
  | timingsFormat
  | verbose
  | help
  | version
deriving DecidableEq, Repr

namespace Switch

def ofLong? : String → Option Switch
  | "workspace" => some .workspace
  | "output" => some .output
  | "tsconfig" => some .tsconfig
  | "threshold" => some .threshold
  | "watch" => some .watch
  | "preserveWatchOutput" => some .preserveWatchOutput
  | "fail-on-warnings" => some .failOnWarnings
  | "ignore" => some .ignore
  | "emit" => some .emit
  | "out-dir" => some .outDir
  | "prefix" => some .marker
  | "helpers-module" => some .helpersModule
  | "hires-maps" => some .hiresMaps
  | "timings" => some .timings
  | "timings-format" => some .timingsFormat
  | "verbose" => some .verbose
  | "help" => some .help
  | "version" => some .version
  | _ => none

def ofShort? : Char → Option Switch
  | 'v' => some .verbose
  | 'h' => some .help
  | 'V' => some .version
  | _ => none

def takesValue : Switch → Bool
  | .workspace | .output | .tsconfig | .threshold | .ignore | .outDir | .marker | .helpersModule
  | .timingsFormat => true
  | _ => false

def repeats : Switch → Bool
  | .ignore | .verbose => true
  | _ => false

end Switch

def OutputFormat.ofWord? : String → Option OutputFormat
  | "human" => some .human
  | "human-verbose" => some .humanVerbose
  | "json" => some .json
  | "machine" => some .machine
  | _ => none

def Threshold.ofWord? : String → Option Threshold
  | "error" => some .error
  | "warning" => some .warning
  | _ => none

def TimingFormat.ofWord? : String → Option TimingFormat
  | "text" => some .text
  | "json" => some .json
  | _ => none

namespace Arguments

def setOption (a : Arguments) (switch : Switch) (value : Text) : Except UsageError Arguments :=
  let word := String.ofList value
  let choose {α : Type} (choice : Option α) (f : α → Arguments) : Except UsageError Arguments :=
    match choice with
    | some c => .ok (f c)
    | none => .error .invalidValue
  match switch with
  | .workspace => .ok { a with workspace := value }
  | .output => choose (OutputFormat.ofWord? word) fun output => { a with output }
  | .tsconfig => .ok { a with tsconfig := some value }
  | .threshold => choose (Threshold.ofWord? word) fun threshold => { a with threshold }
  | .ignore => .ok { a with ignore := a.ignore ++ [value] }
  | .outDir => .ok { a with outDir := some value }
  | .marker => .ok { a with marker := some value }
  | .helpersModule => .ok { a with helpersModule := some value }
  | .timingsFormat => choose (TimingFormat.ofWord? word) fun timingsFormat => { a with timingsFormat }
  | _ => .error .tooManyValues

def setFlag (a : Arguments) : Switch → Except UsageError Arguments
  | .watch => .ok { a with watch := true }
  | .preserveWatchOutput => .ok { a with preserveWatchOutput := true }
  | .failOnWarnings => .ok { a with failOnWarnings := true }
  | .emit => .ok { a with emit := true }
  | .hiresMaps => .ok { a with hiresMaps := true }
  | .timings => .ok { a with timings := true }
  | .verbose => .ok { a with verbosity := a.verbosity + 1 }
  | .help => .error .displayHelp
  | .version => .error .displayVersion
  | _ => .error .invalidValue

end Arguments

structure Scan where
  arguments : Arguments := {}
  seen : List Switch := []
  /-- An option whose value may follow, or that waits to be set to a value. -/
  pending : Option (Switch × Option Text) := none
  /-- Two hyphens were read, behind which nothing is a switch. -/
  closed : Bool := false

namespace Scan

/-- Sets a switch, which may be set already only if it repeats. -/
def set (s : Scan) (switch : Switch) (value : Option Text) : Except UsageError Scan := do
  if s.seen.contains switch && !switch.repeats then throw .argumentConflict
  let arguments ← match value with
    | some value => s.arguments.setOption switch value
    | none => s.arguments.setFlag switch
  return { s with arguments, seen := switch :: s.seen }

def settle (s : Scan) : Except UsageError Scan :=
  match s.pending with
  | none => return s
  | some (_, none) => throw .invalidValue
  | some (switch, some value) => { s with pending := none }.set switch (some value)

def long (s : Scan) (name : Text) (value : Option Text) : Except UsageError Scan :=
  match Switch.ofLong? (String.ofList name) with
  | none => throw .unknownArgument
  | some switch =>
    match switch.takesValue, value with
    | true, none => do return { ← s.settle with pending := some (switch, none) }
    | true, some value => do (← s.settle).set switch (some value)
    | false, none => do (← s.settle).set switch none
    | false, some _ => throw .tooManyValues

def short (s : Scan) : List Char → Except UsageError Scan
  | [] => return s
  | c :: cs =>
    match Switch.ofShort? c with
    | none => throw .unknownArgument
    | some switch => do short (← (← s.settle).set switch none) cs

/-- Reads what is no switch: the value of an option, if one waits for it. -/
def operand (s : Scan) (arg : Text) : Except UsageError Scan :=
  match s.pending with
  | some (switch, none) => return { s with pending := some (switch, some arg) }
  | _ => throw .unknownArgument

def step (s : Scan) (arg : Text) : Except UsageError Scan :=
  if s.closed then throw .unknownArgument
  else match arg with
    | ['-', '-'] => return { s with closed := true }
    | '-' :: '-' :: rest =>
      let name := rest.takeWhile (· != '=')
      match rest.drop name.length with
      | _ :: value => s.long name (some value)
      | [] => s.long name none
    | '-' :: c :: cs => s.short (c :: cs)
    | arg => s.operand arg

end Scan

def Arguments.parse (args : List Text) : Except UsageError Arguments := do
  let scan ← args.foldlM Scan.step {}
  return (← scan.settle).arguments

end SfcTsx.Project
