import TreeFlow.Location

/-!
# Diagnostics

Every stage describes its failures in the same four terms: how severe it is,
which part of the compiler raised it, what it says, and where in the source
it points. The two one-line renderings differ in how much of that they keep.
-/

set_option autoImplicit false

namespace TreeFlow

inductive Severity where
  | info
  | warning
  | error
  | critical
  deriving DecidableEq, Repr

def Severity.label : Severity → String
  | .info => "INFO"
  | .warning => "WARNING"
  | .error => "ERROR"
  | .critical => "CRITICAL"

structure Diagnostic where
  severity : Severity
  issuer : String
  message : String
  location : Option Location
  deriving DecidableEq, Repr

namespace Diagnostic

def whereabouts (d : Diagnostic) (absent : String) : String :=
  match d.location with
  | some l => l.render
  | none => absent

/-- The line shown to a user: severity, location and message. -/
def report (d : Diagnostic) : String :=
  "FUC | " ++ d.severity.label ++ " | " ++ d.whereabouts "unknown location" ++ " | " ++ d.message

/-- The line kept for maintainers, which also names the issuer. -/
def trace (d : Diagnostic) : String :=
  "FUC | " ++ d.severity.label ++ " | " ++ d.whereabouts "unknown" ++ " | " ++ d.issuer
    ++ " | " ++ d.message

def display (d : Diagnostic) : String :=
  match d.location with
  | some l => d.message ++ " (at " ++ l.render ++ ")"
  | none => d.message

end Diagnostic

end TreeFlow
