import SfcTsx.Span

namespace SfcTsx

inductive Severity where
  | warning
  | error
deriving DecidableEq, Repr

def Severity.word : Severity → String
  | .warning => "warning"
  | .error => "error"

inductive DiagnosticCode where
  | blockParse
  | templateParse
  | scriptSyntax
  | setupExport
  | macroUsage
  | invalidGeneric
  | invalidChain
  | invalidDirective
  | editFailed
deriving DecidableEq, Repr

namespace DiagnosticCode

def word : DiagnosticCode → String
  | .blockParse => "block-parse"
  | .templateParse => "template-parse"
  | .scriptSyntax => "script-syntax"
  | .setupExport => "setup-export"
  | .macroUsage => "macro-usage"
  | .invalidGeneric => "invalid-generic"
  | .invalidChain => "invalid-chain"
  | .invalidDirective => "invalid-directive"
  | .editFailed => "rewrite-failed"

def severity : DiagnosticCode → Severity
  | .scriptSyntax | .macroUsage => .warning
  | _ => .error

def ofWord? (word : String) : Option DiagnosticCode :=
  [blockParse, templateParse, scriptSyntax, setupExport, macroUsage, invalidGeneric, invalidChain,
    invalidDirective, editFailed].find? (·.word = word)

end DiagnosticCode

structure Diagnostic where
  code : DiagnosticCode
  message : Text
  span : Span
deriving DecidableEq, Repr

namespace Diagnostic

def severity (d : Diagnostic) : Severity := d.code.severity

def isError (d : Diagnostic) : Bool := d.severity = .error

end Diagnostic
end SfcTsx
