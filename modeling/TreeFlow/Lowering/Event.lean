/-!
# The run log

Each step of a run that is worth following leaves an event. An event has a
level and a text.
-/

set_option autoImplicit false

namespace TreeFlow

inductive LogLevel where
  | trace
  | debug
  | info
  | warn
  deriving DecidableEq, Repr

def LogLevel.label : LogLevel → String
  | .trace => "TRACE"
  | .debug => "DEBUG"
  | .info => "INFO"
  | .warn => "WARN"

inductive Event where
  | programStarted (name : String) (items : Nat)
  | programFinished (functions globals : Nat)
  | functionDeclared (name : String)
  | bodyStarted (name : String)
  | bodyFellOff (name : String)
  | intrinsicDeclared (name : String)
  | constantDefined (name : String) (value : Int)
  | constantRedefined (name : String) (old new : Int)
  | parameterPromoted (name : String)
  | unreachableSkipped (count : Nat)
  | blockCreated (label : String) (id : Nat)
  | insertionPoint (block : Nat)
  deriving DecidableEq, Repr

namespace Event

def level : Event → LogLevel
  | .programStarted .. | .programFinished .. => .info
  | .functionDeclared _ | .bodyStarted _ | .intrinsicDeclared _ | .constantDefined ..
  | .parameterPromoted _ | .unreachableSkipped _ => .debug
  | .constantRedefined .. => .warn
  | .bodyFellOff _ | .blockCreated .. | .insertionPoint _ => .trace

def text : Event → String
  | .programStarted n items =>
    "lowering program '" ++ n ++ "' (" ++ toString items ++ " top-level items)"
  | .programFinished f g =>
    "lowered " ++ toString f ++ " function(s), " ++ toString g ++ " global(s)"
  | .functionDeclared n => "declared function '" ++ n ++ "'"
  | .bodyStarted n => "lowering body of '" ++ n ++ "'"
  | .bodyFellOff n => "'" ++ n ++ "' falls off its end; adding default return"
  | .intrinsicDeclared n => "declaring intrinsic '" ++ n ++ "'"
  | .constantDefined n v => "#define " ++ n ++ " " ++ toString v
  | .constantRedefined n old new =>
    "constant '" ++ n ++ "' redefined (" ++ toString old ++ " -> " ++ toString new ++ ")"
  | .parameterPromoted n => "promoted parameter '" ++ n ++ "' to a stack slot"
  | .unreachableSkipped k =>
    "skipping " ++ toString k ++ " unreachable statement(s) after a terminator"
  | .blockCreated label id => "created block " ++ label ++ "." ++ toString id
  | .insertionPoint b => "insertion point -> bb" ++ toString b

def render (e : Event) : String := e.level.label ++ " " ++ e.text

end Event

end TreeFlow
