import SfcTsx.Diagnostic
import SfcTsx.Json
import SfcTsx.LineIndex
import SfcTsx.Project.Arguments

namespace SfcTsx.Project

structure Position where
  line : Nat
  column : Nat
  offset : Nat
deriving DecidableEq, Repr

def Position.ofOffset (index : LineIndex) (offset : Nat) : Position :=
  let place := (index.lineCol offset).getD ⟨0, 0⟩
  ⟨place.line + 1, place.col + 1, offset⟩

def Position.toJson (p : Position) : Json :=
  .record [("line", .nat p.line), ("column", .nat p.column), ("offset", .nat p.offset)]

def severityLabel : Severity → String
  | .warning => "Warning"
  | .error => "Error"

def lines (t : Text) : List Text :=
  let parts := Text.splitOn '\n' t
  let ended := parts.dropLast.map fun line => (Text.before? ['\r'] line).getD line
  match parts.getLast? with
  | some [] | none => ended
  | some last => ended ++ [last]

def snippet (source : Text) (p : Position) : Text :=
  match (lines source)[p.line - 1]? with
  | none => []
  | some line =>
    let gutter := Nat.toDigits 10 p.line
    "  ".toList ++ gutter ++ " | ".toList ++ line ++ "\n  ".toList ++
      List.replicate gutter.length ' ' ++ " | ".toList ++ List.replicate (p.column - 1) ' ' ++
      "^\n".toList

def described (d : Diagnostic) : Text := d.message ++ (s!" ({d.code.word})").toList

def reportOne (format : OutputFormat) (path source : Text) (index : LineIndex) (d : Diagnostic) : Text :=
  let start := Position.ofOffset index d.span.start
  let label := severityLabel d.severity
  let place := path ++ (s!":{start.line}:{start.column}").toList
  match format with
  | .json => []
  | .machine =>
    let stop := Position.ofOffset index d.span.stop
    label.toUpper.toList ++ [' '] ++ place ++ (s!":{stop.line}:{stop.column} ").toList ++ described d ++
      ['\n']
  | .human => place ++ ['\n'] ++ (s!"{label}: ").toList ++ described d ++ "\n\n".toList
  | .humanVerbose =>
    place ++ ['\n'] ++ (s!"{label}: ").toList ++ described d ++ ['\n'] ++ snippet source start ++ ['\n']

/-- The problems of a file, except in JSON, which is written for all files at once. -/
def report (format : OutputFormat) (path source : Text) (diagnostics : List Diagnostic) : Text :=
  diagnostics.flatMap (reportOne format path source (LineIndex.ofText source))

def reportJson (path source : Text) (diagnostics : List Diagnostic) : List Json :=
  let index := LineIndex.ofText source
  diagnostics.map fun d =>
    .record [("type", .text (severityLabel d.severity).toList), ("filename", .text path),
      ("start", (Position.ofOffset index d.span.start).toJson),
      ("end", (Position.ofOffset index d.span.stop).toJson), ("message", .text d.message),
      ("code", .text d.code.word.toList)]

structure Summary where
  files : Nat
  errors : Nat
  warnings : Nat
  failOnWarnings : Bool
deriving DecidableEq, Repr

namespace Summary

def failed (s : Summary) : Bool := 0 < s.errors || (s.failOnWarnings && 0 < s.warnings)

def count (n : Nat) (thing : String) : String := if n = 1 then s!"{n} {thing}" else s!"{n} {thing}s"

def text (s : Summary) : Text :=
  let errors := count s.errors "error"
  let warnings := count s.warnings "warning"
  let files := count s.files "file"
  (s!"====================================\nvue-tsx found {errors} and {warnings} in {files}").toList

end Summary

def Summary.ofDiagnostics (files : Nat) (failOnWarnings : Bool) (diagnostics : List Diagnostic) : Summary :=
  let errors := (diagnostics.filter Diagnostic.isError).length
  ⟨files, errors, diagnostics.length - errors, failOnWarnings⟩

end SfcTsx.Project
