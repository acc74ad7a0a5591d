/-!
# The shortest decimal of a binary number

A positive number in sixty-four bit binary form stands for all reals that
round to it. It is written with the fewest digits that pick out one of these,
and among decimals of that length by the one closest to it. The comparison is
made in natural numbers, so nothing is rounded on the way.
-/

set_option autoImplicit false

namespace TreeFlow.Text

/-- The number `mantissa * 2 ^ exponent`. At the lower end of a binade the
next number below is twice as close as the next one above. -/
structure Binary where
  mantissa : Nat
  exponent : Int
  atLowerEnd : Bool
  deriving DecidableEq, Repr

def Binary.ofFloat (x : Float) : Binary :=
  let bits := x.toBits.toNat
  let unit := Nat.pow 2 52
  let field : Nat := bits / unit % Nat.pow 2 11
  let fraction : Nat := bits % unit
  if field = 0 then ⟨fraction, -1074, false⟩
  else ⟨unit + fraction, (field : Int) - 1075, fraction = 0 ∧ 1 < field⟩

structure Decimal where
  digits : Nat
  exponent : Int
  deriving DecidableEq, Repr

def power (base : Nat) (e : Int) : Nat × Nat := (base.pow e.toNat, base.pow (-e).toNat)

namespace Binary

/-- The neighbour of the number on the grid of the multiples of
`10 ^ e`, if one of them rounds to the number. The ends of the interval of the
reals that round to it belong to it when the mantissa is even. -/
def onGrid? (x : Binary) (e : Int) : Option Decimal :=
  let (up, down) := power 2 (x.exponent - 2)
  let (unit, parts) := power 10 e
  let middle := 4 * x.mantissa * up * parts
  let low := (4 * x.mantissa - if x.atLowerEnd then 1 else 2) * up * parts
  let high := (4 * x.mantissa + 2) * up * parts
  let point (d : Nat) : Nat := d * unit * down
  let inside (d : Nat) : Bool :=
    if x.mantissa % 2 = 0 then low ≤ point d && point d ≤ high
    else low < point d && point d < high
  let below := middle / (unit * down)
  let toBelow := middle - point below
  let toAbove := point (below + 1) - middle
  let nearer : Nat :=
    if toBelow < toAbove then below
    else if toAbove < toBelow then below + 1
    else below + below % 2
  let other : Nat := if nearer = below then below + 1 else below
  if inside nearer then some ⟨nearer, e⟩
  else if inside other then some ⟨other, e⟩
  else none

def grids : List Int := (List.range 640).map fun (i : Nat) => (310 : Int) - (i : Int)

def shortest (x : Binary) : Decimal := (grids.findSome? x.onGrid?).getD ⟨0, 0⟩

end Binary

def exponentText (e : Int) : List Char :=
  ['e', if e < 0 then '-' else '+'] ++ Nat.toDigits 10 e.natAbs

/-- A decimal in text: plain from five places behind the point to sixteen
places before it, with an exponent otherwise. A plain number always has a
point. -/
def Decimal.text (d : Decimal) : String :=
  let shown := Nat.toDigits 10 d.digits
  let size : Int := d.exponent + shown.length
  let zeros (n : Nat) : List Char := List.replicate n '0'
  String.ofList <|
    if d.digits = 0 then ['0', '.', '0']
    else if 0 ≤ d.exponent ∧ size ≤ 16 then shown ++ zeros d.exponent.toNat ++ ['.', '0']
    else if 0 < size ∧ size ≤ 16 then shown.take size.toNat ++ ['.'] ++ shown.drop size.toNat
    else if -5 < size ∧ size ≤ 0 then ['0', '.'] ++ zeros (-size).toNat ++ shown
    else
      let fraction := shown.drop 1
      shown.take 1 ++ (if fraction.isEmpty then [] else '.' :: fraction) ++ exponentText (size - 1)

def shortestText (x : Float) : String := (Binary.ofFloat x).shortest.text

end TreeFlow.Text
