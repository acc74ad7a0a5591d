/-!
# Signed decimal numerals

A numeral is an optional sign and at least one decimal digit. It is read
only when its value fits into thirty-two bits.
-/

set_option autoImplicit false

namespace TreeFlow.Text

def digit? (c : Char) : Option Nat :=
  if '0' ≤ c ∧ c ≤ '9' then some (c.toNat - '0'.toNat) else none

def digits? : Nat → List Char → Option Nat
  | n, [] => some n
  | n, c :: cs =>
    match digit? c with
    | some d => digits? (10 * n + d) cs
    | none => none

def natural? : List Char → Option Nat
  | [] => none
  | cs => digits? 0 cs

def integer? : List Char → Option Int
  | '-' :: cs => (natural? cs).map fun n => -(n : Int)
  | '+' :: cs => (natural? cs).map fun n => (n : Int)
  | cs => (natural? cs).map fun n => (n : Int)

def fitsInt32 (n : Int) : Bool := -2147483648 ≤ n && n < 2147483648

def int32? (cs : List Char) : Option Int := (integer? cs).filter fitsInt32

end TreeFlow.Text
