import TreeFlow.Diagnostic
import TreeFlow.Flow.Module

/-!
# Structural verification

Every block of a function must end in a terminator whose targets are blocks
of the same function, a return must carry the declared result type, and a
call must name a function of the module. The first violation is reported, in
the order of functions, blocks, terminator and calls.
-/

set_option autoImplicit false

namespace TreeFlow

inductive Violation where
  | missingTerminator (label : String)
  | unknownTarget (block : Nat)
  | returnTypeMismatch (got expected : Ty)
  | unknownCallee (function : Nat)
  deriving DecidableEq, Repr

def Violation.text : Violation → String
  | .missingTerminator label => "block '" ++ label ++ "' has no terminator"
  | .unknownTarget b => "branch to unknown block bb" ++ toString b
  | .returnTypeMismatch got expected =>
    "return of " ++ got.render ++ " from function returning " ++ expected.render
  | .unknownCallee f => "call to unknown function #" ++ toString f

structure VerifyError where
  violation : Violation
  function : String
  block : Nat
  deriving DecidableEq, Repr

namespace VerifyError

def message (e : VerifyError) : String :=
  e.violation.text ++ " (in '" ++ e.function ++ "', bb" ++ toString e.block ++ ")"

def diagnostic (e : VerifyError) : Diagnostic := ⟨.critical, "fuc.ir.verify", e.message, none⟩

end VerifyError

def Terminator.returned? : Terminator → Option Ty
  | .ret (some v) => some v.ty
  | .ret none => some .void
  | _ => none

/-- Whether a return may end a function of result type `ret`: a returned
value needs the same type, and a bare return needs `void`. -/
def Terminator.returns (ret : Ty) : Terminator → Bool
  | .ret (some v) => v.ty == ret
  | .ret none => ret.isVoid
  | _ => true

namespace Module

def checkTerminator (f : Function) (b : Block) : Option Violation :=
  match b.terminator with
  | none => some (.missingTerminator b.label)
  | some t =>
    match t.successors.find? fun k => f.bodies.length ≤ k with
    | some k => some (.unknownTarget k)
    | none =>
      if t.returns f.ret then none
      else some (.returnTypeMismatch (t.returned?.getD .void) f.ret)

def checkCall (m : Module) : Instr → Option Violation
  | .call _ callee _ => if callee < m.functions.length then none else some (.unknownCallee callee)
  | _ => none

def checkBlock (m : Module) (f : Function) (b : Block) : Option Violation :=
  (checkTerminator f b).or (b.instrs.findSome? m.checkCall)

def verifyFunction (m : Module) (f : Function) : Option VerifyError :=
  f.blocks.findSome? fun b => (m.checkBlock f b).map (⟨·, f.name, b.id⟩)

def verify (m : Module) : Option VerifyError := m.functions.findSome? m.verifyFunction

end Module

end TreeFlow
