import TreeFlow.Flow.Instruction

/-!
# Functions and their blocks

A function owns its blocks and its register counter. The head of the entry
block is kept apart from its body: first the stack slots, then the stores
that seed slots with incoming parameters. Whatever is emitted later, every
slot therefore dominates its uses, and `Function.blocks` puts the prologue
back in front of the entry body.
-/

set_option autoImplicit false

namespace TreeFlow

structure Param where
  name : String
  ty : Ty
  deriving DecidableEq, Repr

def Param.render (p : Param) : String := p.ty.render ++ " " ++ p.name

structure Signature where
  name : String
  ret : Ty
  params : List Param
  variadic : Bool
  deriving DecidableEq, Repr

structure Block where
  id : Nat
  label : String
  instrs : List Instr
  terminator : Option Terminator
  deriving DecidableEq, Repr

def Block.terminated (b : Block) : Bool := b.terminator.isSome

def Block.size (b : Block) : Nat := b.instrs.length + b.terminator.toList.length

structure Slot where
  register : Nat
  ty : Ty
  deriving DecidableEq, Repr

def Slot.instr (s : Slot) : Instr := .alloca s.register s.ty

def Slot.pointer (s : Slot) : Value := .reg s.register (.ptr s.ty)

structure Seed where
  value : Value
  pointer : Value
  deriving DecidableEq, Repr

def Seed.instr (s : Seed) : Instr := .store s.value s.pointer

structure Function extends Signature where
  id : Nat
  slots : List Slot
  seeds : List Seed
  bodies : List Block
  registers : Nat
  deriving DecidableEq, Repr

namespace Function

def declare (id : Nat) (sig : Signature) : Function :=
  { sig with id, slots := [], seeds := [], bodies := [], registers := 0 }

def prologue (f : Function) : List Instr := f.slots.map Slot.instr ++ f.seeds.map Seed.instr

/-- The blocks as they run: the entry block starts with the prologue. -/
def blocks (f : Function) : List Block :=
  match f.bodies with
  | [] => []
  | b :: bs => { b with instrs := f.prologue ++ b.instrs } :: bs

@[simp] theorem blocks_length (f : Function) : f.blocks.length = f.bodies.length := by
  unfold blocks
  split <;> simp_all

def block? (f : Function) (b : Nat) : Option Block := f.blocks[b]?

def entry? (f : Function) : Option Nat := f.bodies.head?.map (·.id)

def isDeclaration (f : Function) : Bool := f.bodies.isEmpty

def slotCount (f : Function) : Nat := f.slots.length

def prologueLength (f : Function) : Nat := f.slots.length + f.seeds.length

def size (f : Function) : Nat := f.blocks.foldr (fun b n => b.size + n) 0

def argument? (f : Function) (i : Nat) : Option Value :=
  f.params[i]?.map fun p => .param i p.ty

def arguments (f : Function) : List (String × Value) :=
  f.params.zipIdx.map fun (p, i) => (p.name, .param i p.ty)

end Function

end TreeFlow
