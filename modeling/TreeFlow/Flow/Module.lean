import TreeFlow.Target
import TreeFlow.Flow.Function

/-!
# Modules

A module is an ordered registry of functions and of constant byte arrays.
The position of an entry is its identity. Names are not checked here: of
several functions with one name, the first is found.
-/

set_option autoImplicit false

namespace TreeFlow

structure Global where
  id : Nat
  name : String
  ty : Ty
  bytes : List UInt8
  deriving DecidableEq, Repr

structure Module where
  target : Option Target
  functions : List Function
  globals : List Global
  deriving DecidableEq, Repr

structure FunctionSummary where
  name : String
  params : List String
  returnType : String
  variadic : Bool
  declaration : Bool
  blocks : Nat
  instructions : Nat
  stackSlots : Nat
  deriving DecidableEq, Repr

structure Summary where
  target : Option String
  functions : List FunctionSummary
  globals : Nat
  deriving DecidableEq, Repr

def Function.summary (f : Function) : FunctionSummary where
  name := f.name
  params := f.params.map Param.render
  returnType := f.ret.render
  variadic := f.variadic
  declaration := f.isDeclaration
  blocks := f.bodies.length
  instructions := f.size
  stackSlots := f.slotCount

namespace Module

def empty : Module := ⟨none, [], []⟩

def function? (m : Module) (id : Nat) : Option Function := m.functions[id]?

def find? (m : Module) (name : String) : Option Nat :=
  (m.functions.find? fun f => f.name == name).map (·.id)

/-- Adds a function without a body. Its identity is the number of functions
before it. -/
def declare (m : Module) (sig : Signature) : Module :=
  { m with functions := m.functions ++ [.declare m.functions.length sig] }

def setFunction (m : Module) (id : Nat) (f : Function) : Module :=
  { m with functions := m.functions.set id f }

def byteArray (id : Nat) (bytes : List UInt8) : Global :=
  ⟨id, ".str." ++ toString id, .array bytes.length .i8, bytes⟩

def addBytes (m : Module) (bytes : List UInt8) : Module :=
  { m with globals := m.globals ++ [byteArray m.globals.length bytes] }

def address (id : Nat) : Value := .global id (.ptr .i8)

def triple? (m : Module) : Option String := m.target.map Target.triple

def summary (m : Module) : Summary :=
  ⟨m.triple?, m.functions.map Function.summary, m.globals.length⟩

end Module

end TreeFlow
