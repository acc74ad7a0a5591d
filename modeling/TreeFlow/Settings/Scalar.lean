import TreeFlow.Text.Quoted
import TreeFlow.Settings.Numeral

/-!
# Strings and values that are not needed

A string is read with its escapes undone, or only walked over. A value that
no setting takes is walked over; its shape still has to be right.
-/

set_option autoImplicit false

namespace TreeFlow.Settings.Scan

/-! ## Strings -/

def hexDigit? (c : Char) : Option Nat :=
  if '0' ≤ c ∧ c ≤ '9' then some (c.toNat - '0'.toNat)
  else if 'a' ≤ c ∧ c ≤ 'f' then some (c.toNat - 'a'.toNat + 10)
  else if 'A' ≤ c ∧ c ≤ 'F' then some (c.toNat - 'A'.toNat + 10)
  else none

def hexadecimal? (cs : List Char) : Option Nat :=
  cs.foldl (fun n c => do return 16 * (← n) + (← hexDigit? c)) (some 0)

/-- The four digits of a code unit. They are taken as four bytes. -/
def codeUnit : Scan Nat := do
  let rest := (← get).rest
  if rest.foldr (fun c n => c.utf8Size + n) 0 < 4 then failAhead .eofString 4
  else
    match hexadecimal? (rest.take 4) with
    | some n => do
      eat
      eat
      eat
      eat
      return n
    | none => failAhead .invalidEscape 4

def isLeading (n : Nat) : Bool := 0xD800 ≤ n && n ≤ 0xDBFF

def isTrailing (n : Nat) : Bool := 0xDC00 ≤ n && n ≤ 0xDFFF

def within (expected : Char) : Scan Unit := do
  match ← peek with
  | none => failHere .eofString
  | some c => if c = expected then eat else failNext .unexpectedHexEnd

/-- The character of a code unit, or of two that form a pair. -/
def unicode : Scan Char := do
  let n ← codeUnit
  if isTrailing n then failHere .loneSurrogate
  else if isLeading n then do
    within '\\'
    within 'u'
    let m ← codeUnit
    if isTrailing m then return Char.ofNat (0x10000 + 0x400 * (n - 0xD800) + (m - 0xDC00))
    else failHere .loneSurrogate
  else return Char.ofNat n

def simpleEscape? (c : Char) : Option Char :=
  [('"', '"'), ('\\', '\\'), ('/', '/'), ('b', '\x08'), ('f', '\x0c'), ('n', '\n'), ('r', '\r'),
    ('t', '\t')].lookup c

def escape : Scan Char := do
  match ← peek with
  | none => failHere .eofString
  | some c =>
    match simpleEscape? c with
    | some e => do
      eat
      return e
    | none =>
      if c = 'u' then do
        eat
        unicode
      else failNext .invalidEscape

def stringFrom : Nat → List Char → Scan String
  | 0, _ => failHere .eofString
  | room + 1, read => do
    match ← next with
    | none => failHere .eofString
    | some '"' => return String.ofList read.reverse
    | some '\\' => do
      let c ← escape
      stringFrom room (c :: read)
    | some c =>
      if c.toNat < 0x20 then failHere .controlCharacter else stringFrom room (c :: read)

def string : Scan String := do stringFrom (← room) []

def skipEscape : Scan Unit := do
  match ← peek with
  | none => failHere .eofString
  | some c =>
    if (simpleEscape? c).isSome then eat
    else if c = 'u' then do
      eat
      let _ ← codeUnit
    else failNext .invalidEscape

def skipStringFrom : Nat → Scan Unit
  | 0 => failHere .eofString
  | room + 1 => do
    match ← peek with
    | none => failHere .eofString
    | some '"' => eat
    | some '\\' => do
      eat
      skipEscape
      skipStringFrom room
    | some c => if c.toNat < 0x20 then failHere .controlCharacter else do
      eat
      skipStringFrom room

def skipString : Scan Unit := do skipStringFrom (← room)

/-! ## Values that are not needed -/

mutual

def skipValue : Nat → Scan Unit
  | 0 => failNext .expectedValue
  | n + 1 => do
    match ← token with
    | none => failNext .eofValue
    | some 'n' => do
      eat
      ident ['u', 'l', 'l']
    | some 't' => do
      eat
      ident ['r', 'u', 'e']
    | some 'f' => do
      eat
      ident ['a', 'l', 's', 'e']
    | some '-' => do
      eat
      skipNumber
    | some '"' => do
      eat
      skipString
    | some '[' => do
      eat
      skipItems n true
    | some '{' => do
      eat
      skipMembers n true
    | some c => if isDigit c then skipNumber else failNext .expectedValue

def skipItems : Nat → Bool → Scan Unit
  | 0, _ => failNext .expectedValue
  | n + 1, first => do
    match ← token with
    | none => failNext .eofList
    | some ']' => eat
    | some c =>
      if first then do
        skipValue n
        skipItems n false
      else if c = ',' then do
        eat
        skipValue n
        skipItems n false
      else failNext .expectedListEnd

def skipMembers : Nat → Bool → Scan Unit
  | 0, _ => failNext .expectedValue
  | n + 1, first => do
    match ← token with
    | none => failNext .eofObject
    | some '}' => eat
    | some c =>
      if first then skipMember n
      else if c = ',' then do
        eat
        skipMember n
      else failNext .expectedObjectEnd

def skipMember : Nat → Scan Unit
  | 0 => failNext .expectedValue
  | n + 1 => do
    match ← token with
    | some '"' => do
      eat
      skipString
      colon
      skipValue n
      skipMembers n false
    | some _ => failNext .keyMustBeString
    | none => failNext .eofObject

end

def skip : Scan Unit := do skipValue (2 * (← room))

/-- The failure of a value of the wrong type. The value is read first. -/
def wrongType {α : Type} (expected : String) : Scan α := do
  let found ← describe
  failHere (.invalidType found expected)
where
  describe : Scan String := do
    match ← peek with
    | some 'n' => do
      eat
      ident ['u', 'l', 'l']
      return "null"
    | some 't' => do
      eat
      ident ['r', 'u', 'e']
      return "boolean " ++ ticked "true"
    | some 'f' => do
      eat
      ident ['a', 'l', 's', 'e']
      return "boolean " ++ ticked "false"
    | some '-' => do
      eat
      return (← numeral true).text
    | some '"' => do
      eat
      return "string " ++ Text.quote (← string)
    | some '[' => return "sequence"
    | some '{' => return "map"
    | some c => if isDigit c then return (← numeral false).text else failNext .expectedValue
    | none => failNext .expectedValue

end TreeFlow.Settings.Scan
