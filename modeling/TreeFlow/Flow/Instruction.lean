import TreeFlow.Flow.Value

/-!
# Instructions and terminators

An instruction stands inside a basic block; a terminator ends one. Each has
one textual form, used in listings.
-/

set_option autoImplicit false

namespace TreeFlow

inductive Arith where
  | add
  | sub
  | mul
  | sdiv
  | srem
  deriving DecidableEq, Repr

def Arith.label : Arith → String
  | .add => "Add"
  | .sub => "Sub"
  | .mul => "Mul"
  | .sdiv => "SDiv"
  | .srem => "SRem"

def Arith.all : List Arith := [.add, .sub, .mul, .sdiv, .srem]

inductive Compare where
  | eq
  | ne
  | slt
  | sle
  | sgt
  | sge
  deriving DecidableEq, Repr

def Compare.label : Compare → String
  | .eq => "Eq"
  | .ne => "Ne"
  | .slt => "Slt"
  | .sle => "Sle"
  | .sgt => "Sgt"
  | .sge => "Sge"

def Compare.all : List Compare := [.eq, .ne, .slt, .sle, .sgt, .sge]

inductive Instr where
  | alloca (dest : Nat) (ty : Ty)
  | load (dest : Nat) (ty : Ty) (pointer : Value)
  | store (value pointer : Value)
  | binary (dest : Nat) (op : Arith) (lhs rhs : Value)
  | icmp (dest : Nat) (test : Compare) (lhs rhs : Value)
  | call (dest : Option Nat) (callee : Nat) (args : List Value)
  deriving DecidableEq, Repr

namespace Instr

def dest? : Instr → Option Nat
  | .alloca d _ | .load d _ _ | .binary d _ _ _ | .icmp d _ _ _ => some d
  | .call d _ _ => d
  | .store _ _ => none

def isAlloca : Instr → Bool
  | .alloca _ _ => true
  | _ => false

def operands : Instr → List Value
  | .alloca _ _ => []
  | .load _ _ p => [p]
  | .store v p => [v, p]
  | .binary _ _ l r | .icmp _ _ l r => [l, r]
  | .call _ _ args => args

def body : Instr → String
  | .alloca _ t => "alloca " ++ t.render
  | .load _ t p => "load " ++ t.render ++ ", " ++ p.render
  | .store v p => "store " ++ v.render ++ ", " ++ p.render
  | .binary _ op l r => op.label ++ " " ++ l.render ++ ", " ++ r.render
  | .icmp _ test l r => "icmp " ++ test.label ++ " " ++ l.render ++ ", " ++ r.render
  | .call _ f args =>
    "call #" ++ toString f ++ "(" ++ String.intercalate ", " (args.map Value.render) ++ ")"

def render (i : Instr) : String :=
  match i.dest? with
  | some d => "%" ++ toString d ++ " = " ++ i.body
  | none => i.body

end Instr

inductive Terminator where
  | br (target : Nat)
  | condBr (condition : Value) (yes no : Nat)
  | ret (value : Option Value)
  deriving DecidableEq, Repr

namespace Terminator

def successors : Terminator → List Nat
  | .br t => [t]
  | .condBr _ t e => [t, e]
  | .ret _ => []

def operands : Terminator → List Value
  | .br _ => []
  | .condBr c _ _ => [c]
  | .ret v => v.toList

def render : Terminator → String
  | .br t => "br bb" ++ toString t
  | .condBr c t e => "condbr " ++ c.render ++ ", bb" ++ toString t ++ ", bb" ++ toString e
  | .ret none => "ret"
  | .ret (some v) => "ret " ++ v.render

end Terminator

end TreeFlow
