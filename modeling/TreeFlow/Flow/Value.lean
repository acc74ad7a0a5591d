/-!
# Types and values of the flow graph

Parameters are plain values without an address. A stack slot is a register of
pointer type. Array types describe only the bytes behind a global.
-/

set_option autoImplicit false

namespace TreeFlow

inductive Ty where
  | void
  | i1
  | i8
  | i32
  | ptr (target : Ty)
  | array (length : Nat) (item : Ty)
  deriving DecidableEq, Repr

namespace Ty

def render : Ty → String
  | .void => "void"
  | .i1 => "i1"
  | .i8 => "i8"
  | .i32 => "i32"
  | .ptr t => t.render ++ "*"
  | .array n t => "[" ++ toString n ++ " x " ++ t.render ++ "]"

def isVoid : Ty → Bool
  | .void => true
  | _ => false

def isInteger : Ty → Bool
  | .i1 | .i8 | .i32 => true
  | _ => false

def target? : Ty → Option Ty
  | .ptr t => some t
  | _ => none

end Ty

inductive Value where
  | const (ty : Ty) (n : Int)
  | param (index : Nat) (ty : Ty)
  | reg (id : Nat) (ty : Ty)
  | global (id : Nat) (ty : Ty)
  deriving DecidableEq, Repr

namespace Value

def int (n : Int) : Value := .const .i32 n

def ty : Value → Ty
  | .const t _ | .param _ t | .reg _ t | .global _ t => t

def isParam : Value → Bool
  | .param _ _ => true
  | _ => false

def const? : Value → Option Int
  | .const _ n => some n
  | _ => none

def operand : Value → String
  | .const _ n => toString n
  | .param i _ => "$" ++ toString i
  | .reg r _ => "%" ++ toString r
  | .global g _ => "@" ++ toString g

def render (v : Value) : String := v.ty.render ++ " " ++ v.operand

end Value

end TreeFlow
