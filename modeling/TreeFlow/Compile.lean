import TreeFlow.Tree.Reader
import TreeFlow.Flow.Verifier
import TreeFlow.Lowering.Program

/-!
# Compiling

Compiling lowers a tree, verifies the module and stamps the chosen target on
it. A dump is read first. The three stages fail in their own ways and are
reported alike.
-/

set_option autoImplicit false

namespace TreeFlow

structure Options where
  target : Option Target
  singlePass : Bool
  deriving DecidableEq, Repr

def Options.default : Options := ⟨none, false⟩

inductive CompileError where
  | reading (e : SyntaxError)
  | lowering (e : LowerError)
  | verifying (e : VerifyError)
  deriving DecidableEq, Repr

def CompileError.diagnostic (file : String) : CompileError → Diagnostic
  | .reading e => e.diagnostic file
  | .lowering e => e.diagnostic
  | .verifying e => e.diagnostic

structure Compiled where
  result : Except CompileError Module
  log : List Event

def Module.stamp (m : Module) (target : Option Target) : Module :=
  match target with
  | some t => { m with target := some t }
  | none => m

/-- Verifies a lowered module and stamps the target on it. -/
def Module.seal (m : Module) (o : Options) : Except CompileError Module :=
  match m.verify with
  | some e => .error (.verifying e)
  | none => .ok (m.stamp o.target)

def Tree.compile (o : Options) (t : Tree) : Compiled :=
  let lowered := t.lower o.singlePass
  match lowered.result with
  | .error e => ⟨.error (.lowering e), lowered.log⟩
  | .ok m => ⟨m.seal o, lowered.log⟩

def compileText (o : Options) (file text : String) : Compiled :=
  match Tree.read file text with
  | .error e => ⟨.error (.reading e), []⟩
  | .ok t => t.compile o

end TreeFlow
