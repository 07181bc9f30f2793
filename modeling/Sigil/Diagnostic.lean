import Sigil.Span

/-!
# Diagnostics

What the reader, the checker and the evaluator report about a script. A
session collects diagnostics in the order in which they were reported.
-/

namespace Sigil

/-- How grave a diagnostic is. -/
inductive Severity where
  | warning
  | error
deriving DecidableEq, Repr

/-- The severity in words. -/
def Severity.text : Severity → String
  | warning => "warning"
  | error => "error"

/-- What a diagnostic is about. -/
inductive DiagnosticCode where
  | unboundName
  | unusedName
  | typeMismatch
  | arityMismatch
  | returnOutsideFunction
  | lexError
  | parseError
  | runtimeError
deriving DecidableEq, Repr

namespace DiagnosticCode

/-- All codes. -/
def all : List DiagnosticCode :=
  [unboundName, unusedName, typeMismatch, arityMismatch, returnOutsideFunction, lexError,
    parseError, runtimeError]

/-- The code as it is shown. -/
def text : DiagnosticCode → String
  | unboundName => "UnboundName"
  | unusedName => "UnusedName"
  | typeMismatch => "TypeMismatch"
  | arityMismatch => "ArityMismatch"
  | returnOutsideFunction => "ReturnOutsideFunction"
  | lexError => "LexError"
  | parseError => "ParseError"
  | runtimeError => "RuntimeError"

/-- The code that is shown so. -/
def ofText? (s : String) : Option DiagnosticCode :=
  all.find? (·.text = s)

end DiagnosticCode

/-- One report about a script. -/
structure Diagnostic where
  severity : Severity
  code : DiagnosticCode
  message : String
  span : Option Span
deriving DecidableEq, Repr

/-- A diagnostic on one line, with the place it is about if it has one. -/
def Diagnostic.text (d : Diagnostic) : String :=
  let place := match d.span with
    | none => ""
    | some s => s.text ++ ": "
  s!"{place}{d.severity.text}[{d.code.text}]: {d.message}"

/-- Whether a diagnostic is an error. -/
def Diagnostic.isError (d : Diagnostic) : Bool :=
  d.severity = .error

end Sigil
