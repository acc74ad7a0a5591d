import TreeFlow.Flow.Function

/-!
# Building a function

Each operation checks first and acts second, so a failed operation leaves
every block as it was. Registers are numbered in the order they are handed
out. A slot takes its register before the entry block is looked for: asking
for a slot in a function without blocks fails and still uses up a number.
-/

set_option autoImplicit false

namespace TreeFlow

inductive BuildFault where
  | unknownBlock (block : Nat)
  | unknownFunction (function : Nat)
  | blockTerminated (block : Nat)
  | noEntryBlock (name : String)
  | noInsertionPoint
  deriving DecidableEq, Repr

def BuildFault.message : BuildFault → String
  | .unknownBlock b => "unknown basic block bb" ++ toString b
  | .unknownFunction f => "unknown function #" ++ toString f
  | .blockTerminated b => "basic block bb" ++ toString b ++ " is already terminated"
  | .noEntryBlock n => "function '" ++ n ++ "' has no entry block"
  | .noInsertionPoint => "no insertion point: no function body is open"

/-- An operation on a function under construction. The function survives a
failure. -/
abbrev Build := EStateM BuildFault Function

namespace Function

def openBlock (f : Function) (b : Nat) : Except BuildFault Block :=
  match f.bodies[b]? with
  | none => .error (.unknownBlock b)
  | some k => if k.terminated then .error (.blockTerminated b) else .ok k

def terminated? (f : Function) (b : Nat) : Except BuildFault Bool :=
  match f.bodies[b]? with
  | none => .error (.unknownBlock b)
  | some k => .ok k.terminated

def append (f : Function) (b : Nat) (i : Instr) : Function :=
  { f with bodies := f.bodies.modify b fun k => { k with instrs := k.instrs ++ [i] } }

def close (f : Function) (b : Nat) (t : Terminator) : Function :=
  { f with bodies := f.bodies.modify b fun k => { k with terminator := some t } }

def takeRegister (f : Function) : Function := { f with registers := f.registers + 1 }

end Function

namespace Build

def newBlock (label : String) : Build Nat := fun f =>
  let id := f.bodies.length
  let block : Block := ⟨id, label ++ "." ++ toString id, [], none⟩
  .ok id { f with bodies := f.bodies ++ [block] }

def alloca (ty : Ty) : Build Value := fun f =>
  let s : Slot := ⟨f.registers, ty⟩
  let f := f.takeRegister
  match f.bodies with
  | [] => .error (.noEntryBlock f.name) f
  | _ :: _ => .ok s.pointer { f with slots := f.slots ++ [s] }

/-- Stores into a slot before any body code runs, even when the entry block
is already terminated. -/
def seed (value pointer : Value) : Build Unit := fun f =>
  match f.bodies with
  | [] => .error (.noEntryBlock f.name) f
  | _ :: _ => .ok () { f with seeds := f.seeds ++ [⟨value, pointer⟩] }

def perform (b : Nat) (i : Instr) : Build Unit := fun f =>
  match f.openBlock b with
  | .error e => .error e f
  | .ok _ => .ok () (f.append b i)

/-- Appends the instruction that `make` builds around a fresh register of
type `ty`. -/
def define (b : Nat) (ty : Ty) (make : Nat → Instr) : Build Value := fun f =>
  match f.openBlock b with
  | .error e => .error e f
  | .ok _ => .ok (.reg f.registers ty) (f.takeRegister.append b (make f.registers))

def terminate (b : Nat) (t : Terminator) : Build Unit := fun f =>
  match t.successors.find? fun k => f.bodies.length ≤ k with
  | some k => .error (.unknownBlock k) f
  | none =>
    match f.openBlock b with
    | .error e => .error e f
    | .ok _ => .ok () (f.close b t)

def load (b : Nat) (ty : Ty) (pointer : Value) : Build Value :=
  define b ty fun d => .load d ty pointer

def store (b : Nat) (value pointer : Value) : Build Unit :=
  perform b (.store value pointer)

def binary (b : Nat) (op : Arith) (lhs rhs : Value) : Build Value :=
  define b lhs.ty fun d => .binary d op lhs rhs

def icmp (b : Nat) (test : Compare) (lhs rhs : Value) : Build Value :=
  define b .i1 fun d => .icmp d test lhs rhs

def call (b : Nat) (callee : Nat) (ret : Ty) (args : List Value) : Build (Option Value) :=
  if ret.isVoid then do
    perform b (.call none callee args)
    return none
  else some <$> define b ret fun d => .call (some d) callee args

def br (b target : Nat) : Build Unit := terminate b (.br target)

def condBr (b : Nat) (condition : Value) (yes no : Nat) : Build Unit :=
  terminate b (.condBr condition yes no)

def ret (b : Nat) (value : Option Value) : Build Unit := terminate b (.ret value)

end Build

/-- The operations by name, for histories of a function. -/
inductive Op where
  | newBlock (label : String)
  | alloca (ty : Ty)
  | seed (value pointer : Value)
  | load (block : Nat) (ty : Ty) (pointer : Value)
  | store (block : Nat) (value pointer : Value)
  | binary (block : Nat) (op : Arith) (lhs rhs : Value)
  | icmp (block : Nat) (test : Compare) (lhs rhs : Value)
  | call (block callee : Nat) (ret : Ty) (args : List Value)
  | br (block target : Nat)
  | condBr (block : Nat) (condition : Value) (yes no : Nat)
  | ret (block : Nat) (value : Option Value)
  deriving DecidableEq, Repr

inductive Outcome where
  | block (id : Nat)
  | value (v : Value)
  | done
  deriving DecidableEq, Repr

namespace Op

def apply : Op → Build Outcome
  | .newBlock label => .block <$> Build.newBlock label
  | .alloca ty => .value <$> Build.alloca ty
  | .seed v p => (fun _ => .done) <$> Build.seed v p
  | .load b ty p => .value <$> Build.load b ty p
  | .store b v p => (fun _ => .done) <$> Build.store b v p
  | .binary b op l r => .value <$> Build.binary b op l r
  | .icmp b test l r => .value <$> Build.icmp b test l r
  | .call b callee ty args =>
    (fun | some v => .value v | none => .done) <$> Build.call b callee ty args
  | .br b t => (fun _ => .done) <$> Build.br b t
  | .condBr b c t e => (fun _ => .done) <$> Build.condBr b c t e
  | .ret b v => (fun _ => .done) <$> Build.ret b v

def step (f : Function) (op : Op) : Function :=
  match op.apply f with
  | .ok _ g => g
  | .error _ g => g

/-- The function after a history of operations, failed ones included. -/
def run : Function → List Op → Function
  | f, [] => f
  | f, op :: ops => run (step f op) ops

end Op

end TreeFlow
