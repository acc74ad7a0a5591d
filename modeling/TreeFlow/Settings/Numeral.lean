import TreeFlow.Text.Shortest
import TreeFlow.Settings.Cursor

/-!
# Numbers in a settings text

No setting is a number, so a number is read only to be named in a failure, or
walked over. An integer that fits into sixty-four bits is named as it is. Any
other number is named by the binary number it is read as: its first digits, as
long as they fit into sixty-four bits, are scaled by a power of ten.
-/

set_option autoImplicit false

namespace TreeFlow.Settings

/-! ## Spelling -/

structure Spelling where
  whole : List Char
  fraction : Option (List Char)
  exponent : Option (Bool × List Char)
  deriving DecidableEq, Repr

namespace Scan

def isDigit (c : Char) : Bool := c.isDigit

def digits : Scan (List Char) := do
  let ds := (← get).rest.takeWhile isDigit
  modify (Cursor.dropWhile isDigit)
  return ds

def whole (atEnd : Cause) : Scan (List Char) := do
  match ← peek with
  | none => failHere atEnd
  | some '0' => do
    eat
    if ((← peek).map isDigit).getD false then failNext .invalidNumber
    return ['0']
  | some c => if isDigit c then digits else failNext .invalidNumber

def fraction (atEnd : Cause) : Scan (Option (List Char)) := do
  if (← peek) ≠ some '.' then return none
  eat
  let ds ← digits
  if ds.isEmpty then
    if (← peek).isNone then failHere atEnd else failNext .invalidNumber
  return some ds

def exponent (atEnd : Cause) : Scan (Option (Bool × List Char)) := do
  let mark ← peek
  if mark ≠ some 'e' ∧ mark ≠ some 'E' then return none
  eat
  let sign ← peek
  if sign = some '+' ∨ sign = some '-' then eat
  let ds ← digits
  if ds.isEmpty then
    if (← peek).isNone then failHere atEnd else failNext .invalidNumber
  return some (sign = some '-', ds)

/-- A number behind its sign. A text that ends too early fails with the given
cause. -/
def spelling (atEnd : Cause) : Scan Spelling := do
  let w ← whole atEnd
  let f ← fraction atEnd
  let e ← exponent atEnd
  return ⟨w, f, e⟩

def skipNumber : Scan Unit := do
  let _ ← spelling .invalidNumber

end Scan

/-! ## Value -/

/-- Digits read so far, those left out in front of the point, and those taken
from behind it. -/
structure Significand where
  value : Nat
  dropped : Nat
  places : Nat
  deriving DecidableEq, Repr

namespace Significand

def digitValue (c : Char) : Nat := c.toNat - '0'.toNat

def fits (n : Nat) (c : Char) : Bool := 10 * n + digitValue c < Nat.pow 2 64

/-- Takes a digit before the point. From the first that does not fit on, all
are left out. -/
def push (s : Significand) (c : Char) : Significand :=
  if s.dropped = 0 ∧ fits s.value c then { s with value := 10 * s.value + digitValue c }
  else { s with dropped := s.dropped + 1 }

def extend (s : Significand) : List Char → Significand
  | [] => s
  | c :: cs =>
    if fits s.value c then
      extend { s with value := 10 * s.value + digitValue c, places := s.places + 1 } cs
    else s

def ofSpelling (w : List Char) (f : Option (List Char)) : Significand :=
  (w.foldl push ⟨0, 0, 0⟩).extend (f.getD [])

def power (s : Significand) : Int := s.dropped - s.places

end Significand

def powerOfTen (n : Nat) : Float := Float.ofScientific 1 false n

/-- Divides by a power of ten in steps that are in range. Three steps take
any number of sixty-four bits to zero. -/
def scaleDown : Nat → Float → Nat → Float
  | 0, x, _ => x
  | steps + 1, x, n =>
    if n ≤ 308 then x / powerOfTen n else scaleDown steps (x / powerOfTen 308) (n - 308)

def scaled? (n : Nat) (power : Int) : Option Float :=
  let x := n.toUInt64.toFloat
  if n = 0 then some x
  else if power < 0 then some (scaleDown 3 x (-power).toNat)
  else if power ≤ 308 then
    let y := x * powerOfTen power.toNat
    if y.isInf then none else some y
  else none

inductive Numeral where
  | integer (n : Int)
  | real (negative : Bool) (magnitude : Float)

def Numeral.text : Numeral → String
  | .integer n => "integer " ++ ticked (toString n)
  | .real negative x =>
    "floating point " ++ ticked ((if negative then "-" else "") ++ Text.shortestText x)

/-- Reads the digits of an exponent as long as they fit into thirty-one bits,
and returns how many are left when they do not. -/
def exponentValue : Nat → List Char → Nat × Option Nat
  | n, [] => (n, none)
  | n, c :: cs =>
    let m := 10 * n + Significand.digitValue c
    if m < Nat.pow 2 31 then exponentValue m cs else (m, some cs.length)

namespace Scan

def failBack {α : Type} (cause : Cause) (bytes : Nat) : Scan α := do
  let c ← get
  throw ⟨cause, c.line, c.column - bytes⟩

def numeral (negative : Bool) : Scan Numeral := do
  let ⟨w, f, e⟩ ← spelling .eofValue
  let s := Significand.ofSpelling w f
  let exact := s.dropped = 0 ∧ f.isNone ∧ e.isNone
  if exact ∧ ¬negative then return .integer s.value
  else if exact ∧ 0 < s.value ∧ s.value ≤ Nat.pow 2 63 then return .integer (-(s.value : Int))
  else
    let (minus, ds) := e.getD (false, [])
    let (n, surplus) := exponentValue 0 ds
    match surplus with
    | some left => if s.value ≠ 0 ∧ ¬minus then failBack .numberOutOfRange left
    | none => pure ()
    match scaled? s.value (s.power + if minus then -(n : Int) else n) with
    | some x => return .real negative x
    | none => failHere .numberOutOfRange

end Scan

end TreeFlow.Settings
