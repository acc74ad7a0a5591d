import TreeFlow.Flow.Value
import TreeFlow.Lowering.Event

/-!
# Names in scope

A scope binds the locals of the function being lowered and the constants of
the whole program. The latest binding of a name counts, and a local hides a
constant of the same name.
-/

set_option autoImplicit false

namespace TreeFlow

/-- Where a local lives: a parameter that was never assigned is a value, and
everything else has a stack slot. -/
inductive Storage where
  | register (value : Value)
  | slot (pointer : Value) (ty : Ty)
  deriving DecidableEq, Repr

inductive Binding where
  | stored (storage : Storage)
  | constant (n : Int)
  deriving DecidableEq, Repr

structure Scope where
  locals : List (String × Storage)
  constants : List (String × Int)
  deriving DecidableEq, Repr

namespace Scope

def empty : Scope := ⟨[], []⟩

def bind (s : Scope) (name : String) (storage : Storage) : Scope :=
  { s with locals := (name, storage) :: s.locals }

def define (s : Scope) (name : String) (n : Int) : Scope :=
  { s with constants := (name, n) :: s.constants }

def clearLocals (s : Scope) : Scope := { s with locals := [] }

def local? (s : Scope) (name : String) : Option Storage := s.locals.lookup name

def constant? (s : Scope) (name : String) : Option Int := s.constants.lookup name

def lookup (s : Scope) (name : String) : Option Binding :=
  match s.local? name with
  | some storage => some (.stored storage)
  | none => (s.constant? name).map .constant

def redefinition (s : Scope) (name : String) (n : Int) : List Event :=
  (s.constant? name).toList.map fun old => .constantRedefined name old n

theorem local?_bind (s : Scope) (name other : String) (storage : Storage) :
    (s.bind name storage).local? other =
      if other = name then some storage else s.local? other := by
  by_cases h : other = name
  · simp [bind, local?, h]
  · simp [bind, local?, List.lookup_cons, h, beq_eq_false_iff_ne.mpr h]

theorem local?_clearLocals (s : Scope) (name : String) : s.clearLocals.local? name = none := rfl

end Scope

end TreeFlow
