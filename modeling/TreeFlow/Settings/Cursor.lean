/-!
# A cursor in a settings text

The cursor walks over a JSON text and knows its line, counted from one, and
how many bytes of that line are behind it. A failure is charged either to the
cursor itself or to a byte ahead of it, even if that is in the middle of a
character.
-/

set_option autoImplicit false

namespace TreeFlow.Settings

inductive Cause where
  | eofValue
  | eofList
  | eofObject
  | eofString
  | expectedColon
  | expectedListEnd
  | expectedObjectEnd
  | expectedIdent
  | expectedValue
  | invalidEscape
  | invalidNumber
  | numberOutOfRange
  | controlCharacter
  | keyMustBeString
  | loneSurrogate
  | unexpectedHexEnd
  | trailingComma
  | trailingCharacters
  | invalidType (found expected : String)
  | unknownVariant (found : String) (known : List String)
  | duplicateField (name : String)
  deriving DecidableEq, Repr

def ticked (s : String) : String := "`" ++ s ++ "`"

def Cause.text : Cause → String
  | .eofValue => "EOF while parsing a value"
  | .eofList => "EOF while parsing a list"
  | .eofObject => "EOF while parsing an object"
  | .eofString => "EOF while parsing a string"
  | .expectedColon => "expected `:`"
  | .expectedListEnd => "expected `,` or `]`"
  | .expectedObjectEnd => "expected `,` or `\x7d`"
  | .expectedIdent => "expected ident"
  | .expectedValue => "expected value"
  | .invalidEscape => "invalid escape"
  | .invalidNumber => "invalid number"
  | .numberOutOfRange => "number out of range"
  | .controlCharacter => "control character (\\u0000-\\u001F) found while parsing a string"
  | .keyMustBeString => "key must be a string"
  | .loneSurrogate => "lone leading surrogate in hex escape"
  | .unexpectedHexEnd => "unexpected end of hex escape"
  | .trailingComma => "trailing comma"
  | .trailingCharacters => "trailing characters"
  | .invalidType found expected => "invalid type: " ++ found ++ ", expected " ++ expected
  | .unknownVariant found known =>
    "unknown variant " ++ ticked found ++ ", expected one of "
      ++ String.intercalate ", " (known.map ticked)
  | .duplicateField name => "duplicate field " ++ ticked name

structure Fault where
  cause : Cause
  line : Nat
  column : Nat
  deriving DecidableEq, Repr

def Fault.message (e : Fault) : String :=
  e.cause.text ++ " at line " ++ toString e.line ++ " column " ++ toString e.column

structure Cursor where
  rest : List Char
  line : Nat
  column : Nat
  deriving DecidableEq, Repr

namespace Cursor

def start (text : List Char) : Cursor := ⟨text, 1, 0⟩

def past (c : Cursor) (ch : Char) (rest : List Char) : Cursor :=
  if ch = '\n' then ⟨rest, c.line + 1, 0⟩ else ⟨rest, c.line, c.column + ch.utf8Size⟩

def step (c : Cursor) : Cursor :=
  match c.rest with
  | [] => c
  | ch :: rest => c.past ch rest

def here (c : Cursor) (cause : Cause) : Fault := ⟨cause, c.line, c.column⟩

/-- The failure that many bytes on, or at the end of the text. -/
def ahead (c : Cursor) (cause : Cause) (bytes : Nat) : Fault :=
  go c.rest bytes c
where
  go : List Char → Nat → Cursor → Fault
    | [], _, c => c.here cause
    | ch :: rest, n, c =>
      if ch.utf8Size ≤ n then go rest (n - ch.utf8Size) (c.past ch rest)
      else ⟨cause, c.line, c.column + n⟩

def dropWhile (p : Char → Bool) (c : Cursor) : Cursor :=
  go c.rest c
where
  go : List Char → Cursor → Cursor
    | [], c => c
    | ch :: rest, c => if p ch then go rest (c.past ch rest) else c

end Cursor

abbrev Scan := EStateM Fault Cursor

namespace Scan

def failHere {α : Type} (cause : Cause) : Scan α := do throw ((← get).here cause)

def failAhead {α : Type} (cause : Cause) (bytes : Nat) : Scan α := do
  throw ((← get).ahead cause bytes)

def failNext {α : Type} (cause : Cause) : Scan α := failAhead cause 1

def peek : Scan (Option Char) := return (← get).rest.head?

def eat : Scan Unit := modify Cursor.step

def next : Scan (Option Char) := do
  let c ← peek
  eat
  return c

def isBlank (c : Char) : Bool := c == ' ' || c == '\n' || c == '\t' || c == '\r'

def token : Scan (Option Char) := do
  modify (Cursor.dropWhile isBlank)
  peek

def ident : List Char → Scan Unit
  | [] => pure ()
  | expected :: more => do
    match ← peek with
    | none => failHere .eofValue
    | some c =>
      if c = expected then do
        eat
        ident more
      else failNext .expectedIdent

def colon : Scan Unit := do
  match ← token with
  | some ':' => eat
  | some _ => failNext .expectedColon
  | none => failNext .eofObject

/-- Room for a recursion that takes at most two steps per character. -/
def room : Scan Nat := return 2 * (← get).rest.length + 2

end Scan

end TreeFlow.Settings
