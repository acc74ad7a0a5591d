import TreeFlow.Flow.Module
import TreeFlow.Lowering.Error
import TreeFlow.Lowering.Scope

/-!
# The state of a lowering run

A run owns the module under construction, the names in scope, the functions
that were registered for items of the program, a cursor that says which function
and block receive instructions, the enclosing loops and the nesting depth. A step
that fails keeps what it has emitted and bound.
-/

set_option autoImplicit false

namespace TreeFlow

structure LoopTargets where
  onContinue : Nat
  onBreak : Nat
  deriving DecidableEq, Repr

structure LowerState where
  module : Module
  scope : Scope
  /-- The function that was registered for the item at an index. -/
  registered : List (Nat × Nat)
  function : Option Nat
  block : Option Nat
  loops : List LoopTargets
  depth : Nat
  log : List Event
  deriving DecidableEq, Repr

def LowerState.initial : LowerState := ⟨.empty, .empty, [], none, none, [], 0, []⟩

abbrev Lower := EStateM LowerError LowerState

namespace Lower

def lift {α : Type} : Except LowerError α → Lower α
  | .ok a => pure a
  | .error e => throw e

def refuse {α : Type} (e : BuildFault) : Lower α := throw ⟨.builder e, none⟩

def note (e : Event) : Lower Unit := modify fun s => { s with log := s.log ++ [e] }

/-- Runs an action and then a change of state, whether or not the action
fails. -/
def ensuring {α : Type} (act : Lower α) (after : LowerState → LowerState) : Lower α := fun s =>
  match act s with
  | .ok a t => .ok a (after t)
  | .error e t => .error e (after t)

/-! ## Functions and blocks -/

def inFunction {α : Type} (act : Build α) : Lower α := fun s =>
  match s.function with
  | none => refuse .noInsertionPoint s
  | some id =>
    match s.module.function? id with
    | none => refuse (.unknownFunction id) s
    | some f =>
      match act f with
      | .ok a g => .ok a { s with module := s.module.setFunction id g }
      | .error e g => refuse e { s with module := s.module.setFunction id g }

def currentFunction : Lower Function := inFunction fun f => .ok f f

def currentBlock : Lower Nat := do
  match (← get).block with
  | some b => return b
  | none => refuse .noInsertionPoint

def inBlock {α : Type} (act : Nat → Build α) : Lower α := do
  let b ← currentBlock
  inFunction (act b)

def terminated : Lower Bool := inBlock fun b f =>
  match f.terminated? b with
  | .ok t => .ok t f
  | .error e => .error e f

def setBlock (b : Nat) : Lower Unit := do
  note (.insertionPoint b)
  modify fun s => { s with block := some b }

def newBlock (label : String) : Lower Nat := do
  let b ← inFunction (Build.newBlock label)
  note (.blockCreated label b)
  return b

/-- Opens the body of a function: locals, loops and depth start afresh, and a
new entry block is under the cursor. -/
def enter (id : Nat) : Lower Nat := do
  modify fun s =>
    { s with scope := s.scope.clearLocals, loops := [], depth := 0, function := some id }
  let b ← inFunction (Build.newBlock "entry")
  modify fun s => { s with block := some b }
  return b

def leave : Lower Unit := modify fun s => { s with function := none, block := none }

/-! ## Loops and nesting -/

def pushLoop (l : LoopTargets) : Lower Unit := modify fun s => { s with loops := l :: s.loops }

def popLoop : Lower (Option LoopTargets) := do
  let l := (← get).loops.head?
  modify fun s => { s with loops := s.loops.tail }
  return l

def innermostLoop : Lower (Option LoopTargets) := return (← get).loops.head?

def inLoop {α : Type} (l : LoopTargets) (act : Lower α) : Lower α := do
  pushLoop l
  ensuring act fun s => { s with loops := s.loops.tail }

def descend (site : Site) : Lower Unit := do
  if maxDepth ≤ (← get).depth then throw (site.fault (.tooDeep site.kind))
  modify fun s => { s with depth := s.depth + 1 }

def ascend : Lower Unit := modify fun s => { s with depth := s.depth - 1 }

def nested {α : Type} (site : Site) (act : Lower α) : Lower α := do
  descend site
  ensuring act fun s => { s with depth := s.depth - 1 }

/-! ## Names -/

def lookup (name : String) : Lower (Option Binding) := return (← get).scope.lookup name

def bind (name : String) (storage : Storage) : Lower Unit :=
  modify fun s => { s with scope := s.scope.bind name storage }

def define (name : String) (n : Int) : Lower Unit := modify fun s =>
  { s with scope := s.scope.define name n, log := s.log ++ s.scope.redefinition name n }

/-! ## Instructions -/

def alloca (ty : Ty) : Lower Value := inFunction (Build.alloca ty)

def seed (value pointer : Value) : Lower Unit := inFunction (Build.seed value pointer)

def load (ty : Ty) (pointer : Value) : Lower Value := inBlock fun b => Build.load b ty pointer

def store (value pointer : Value) : Lower Unit := inBlock fun b => Build.store b value pointer

def binary (op : Arith) (lhs rhs : Value) : Lower Value :=
  inBlock fun b => Build.binary b op lhs rhs

def icmp (test : Compare) (lhs rhs : Value) : Lower Value :=
  inBlock fun b => Build.icmp b test lhs rhs

/-- Calls a function of the module. The callee is looked up before the
cursor. -/
def call (callee : Nat) (args : List Value) : Lower (Option Value) := do
  match (← get).module.function? callee with
  | none => refuse (.unknownFunction callee)
  | some f => inBlock fun b => Build.call b callee f.ret args

def br (target : Nat) : Lower Unit := inBlock fun b => Build.br b target

def condBr (condition : Value) (yes no : Nat) : Lower Unit :=
  inBlock fun b => Build.condBr b condition yes no

def ret (value : Option Value) : Lower Unit := inBlock fun b => Build.ret b value

def fallThrough (target : Nat) : Lower Unit := do
  if !(← terminated) then br target

/-! ## The module -/

def declare (sig : Signature) : Lower Nat := do
  let id := (← get).module.functions.length
  modify fun s => { s with module := s.module.declare sig }
  return id

def register (index id : Nat) : Lower Unit :=
  modify fun s => { s with registered := (index, id) :: s.registered }

def registered? (index : Nat) : Lower (Option Nat) := return (← get).registered.lookup index

def addBytes (bytes : List UInt8) : Lower Value := do
  let id := (← get).module.globals.length
  modify fun s => { s with module := s.module.addBytes bytes }
  return Module.address id

end Lower

end TreeFlow
