import TreeFlow.Diagnostic

/-!
# Styled lines

A line of output has a style. With colours, a styled line is wrapped in
terminal control sequences; without, every line is its text.
-/

set_option autoImplicit false

namespace TreeFlow

inductive Style where
  | title
  | info
  | success
  | error
  | plain
  deriving DecidableEq, Repr

namespace Style

def codes : Style → List Nat
  | .title => [1, 4]
  | .info => [36]
  | .success => [32, 1]
  | .error => [31, 1]
  | .plain => []

def sequence (code : Nat) : String := "\x1b[" ++ toString code ++ "m"

def line (colors : Bool) (style : Style) (text : String) : String :=
  if colors ∧ style ≠ .plain then
    String.join (style.codes.map sequence) ++ text ++ sequence 0 ++ "\n"
  else text ++ "\n"

end Style

/-- A diagnostic as it is shown on the command line: one styled line, and a
plain one for its location. -/
def Diagnostic.lines (colors : Bool) (d : Diagnostic) : String :=
  Style.error.line colors (d.severity.label ++ "[" ++ d.issuer ++ "]: " ++ d.message) ++
    match d.location with
    | some l => Style.plain.line colors ("  --> " ++ l.render)
    | none => ""

end TreeFlow
