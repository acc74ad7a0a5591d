import TreeFlow.Compile
import TreeFlow.Settings.Scalar

/-!
# Options from a settings file

Settings are a JSON object with the fields `target` and `single_pass`, or a
list of their values in that order. What is missing keeps its default, and
other fields are ignored. A target is given by its short name, or as an object
with the name as its key and `null` as its value.
-/

set_option autoImplicit false

namespace TreeFlow.Settings

open Scan

/-- The name of a target. A text that ends before the name breaks off the
object that the name would be the key of. -/
def variant : Scan Target := do
  match ← token with
  | none => failNext .eofObject
  | some '"' => do
    eat
    let s ← string
    match Target.ofName? s with
    | some t => return t
    | none => failHere (.unknownVariant s (Target.all.map Target.name))
  | some _ => wrongType "variant identifier"

def unit : Scan Unit := do
  match ← token with
  | none => failNext .eofValue
  | some 'n' => do
    eat
    ident ['u', 'l', 'l']
  | some _ => wrongType "unit"

def target : Scan (Option Target) := do
  match ← token with
  | some 'n' => do
    eat
    ident ['u', 'l', 'l']
    return none
  | some '"' => some <$> variant
  | some '{' => do
    eat
    let t ← variant
    colon
    unit
    match ← token with
    | some '}' => do
      eat
      return some t
    | some _ => failHere .expectedValue
    | none => failHere .eofObject
  | some _ => failNext .expectedValue
  | none => failNext .eofValue

def boolean : Scan Bool := do
  match ← token with
  | none => failNext .eofValue
  | some 't' => do
    eat
    ident ['r', 'u', 'e']
    return true
  | some 'f' => do
    eat
    ident ['a', 'l', 's', 'e']
    return false
  | some _ => wrongType "a boolean"

structure Draft where
  target : Option (Option Target)
  singlePass : Option Bool
  deriving DecidableEq, Repr

def Draft.options (d : Draft) : Options := ⟨d.target.getD none, d.singlePass.getD false⟩

/-! ## An object -/

/-- A second value for a field. It is noticed behind the key and the blanks
or the closing brace that follow it. -/
def duplicate {α : Type} (name : String) : Scan α := do
  if (← token) = some '}' then eat
  failHere (.duplicateField name)

def member (d : Draft) (key : String) : Scan Draft := do
  if key = "target" then do
    if d.target.isSome then duplicate key
    colon
    return { d with target := some (← target) }
  else if key = "single_pass" then do
    if d.singlePass.isSome then duplicate key
    colon
    return { d with singlePass := some (← boolean) }
  else do
    colon
    skip
    return d

def key (first : Bool) : Scan (Option String) := do
  match ← token with
  | none => failNext .eofObject
  | some '}' => do
    eat
    return none
  | some c =>
    if first then opening (some c)
    else if c = ',' then do
      eat
      opening (← token)
    else failNext .expectedObjectEnd
where
  opening : Option Char → Scan (Option String)
    | some '"' => do
      eat
      return some (← string)
    | some '}' => failNext .trailingComma
    | some _ => failNext .keyMustBeString
    | none => failNext .eofValue

def members : Nat → Bool → Draft → Scan Draft
  | 0, _, _ => failNext .eofObject
  | n + 1, first, d => do
    match ← key first with
    | none => return d
    | some k => do
      let d ← member d k
      members n false d

/-! ## A list -/

def element (first : Bool) : Scan Bool := do
  match ← token with
  | none => failNext .eofList
  | some ']' => return false
  | some c =>
    if first then return true
    else if c = ',' then do
      eat
      match ← token with
      | some ']' => failNext .trailingComma
      | some _ => return true
      | none => failNext .eofValue
    else failNext .expectedListEnd

def closeList : Scan Unit := do
  match ← token with
  | some ']' => eat
  | some ',' => do
    eat
    if (← token) = some ']' then failNext .trailingComma else failNext .trailingCharacters
  | some _ => failNext .trailingCharacters
  | none => failNext .eofList

def elements : Scan Draft := do
  if ← element true then do
    let t ← target
    if ← element false then return ⟨some t, some (← boolean)⟩
    else return ⟨some t, none⟩
  else return ⟨none, none⟩

/-! ## The whole text -/

def document : Scan Options := do
  let d ← match ← token with
    | none => failNext .eofValue
    | some '[' => do
      eat
      let d ← elements
      closeList
      pure d
    | some '{' => do
      eat
      members (← room) true ⟨none, none⟩
    | some _ => wrongType "struct CompileOptions"
  match ← token with
  | some _ => failNext .trailingCharacters
  | none => return d.options

def read (text : String) : Except Fault Options :=
  match document (.start text.toList) with
  | .ok o _ => .ok o
  | .error e _ => .error e

end TreeFlow.Settings
