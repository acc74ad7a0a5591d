import TreeFlow.Compile

/-!
# JSON documents

A document is written on one line, or with one entry per line and two spaces
of indentation per level. Empty lists and objects stay on their line.
-/

set_option autoImplicit false

namespace TreeFlow

inductive Doc where
  | null
  | bool (b : Bool)
  | number (n : Nat)
  | text (s : String)
  | list (items : List Doc)
  | object (fields : List (String × Doc))

namespace Doc

def hexDigits (n : Nat) : List Char :=
  let ds := Nat.toDigits 16 n
  List.replicate (4 - ds.length) '0' ++ ds

def escape (c : Char) : List Char :=
  if c = '"' ∨ c = '\\' then ['\\', c]
  else if c = '\n' then ['\\', 'n']
  else if c = '\r' then ['\\', 'r']
  else if c = '\t' then ['\\', 't']
  else if c = '\x08' then ['\\', 'b']
  else if c = '\x0c' then ['\\', 'f']
  else if c.toNat < 0x20 then ['\\', 'u'] ++ hexDigits c.toNat
  else [c]

def quote (s : String) : String := String.ofList (['"'] ++ s.toList.flatMap escape ++ ['"'])

def boolText (b : Bool) : String := if b then "true" else "false"

/-! ## On one line -/

mutual

def compact : Doc → String
  | .null => "null"
  | .bool b => boolText b
  | .number n => toString n
  | .text s => quote s
  | .list items => "[" ++ compactItems items ++ "]"
  | .object fields => "\x7b" ++ compactFields fields ++ "\x7d"

def compactItems : List Doc → String
  | [] => ""
  | [d] => compact d
  | d :: ds => compact d ++ "," ++ compactItems ds

def compactFields : List (String × Doc) → String
  | [] => ""
  | [(k, d)] => quote k ++ ":" ++ compact d
  | (k, d) :: fs => quote k ++ ":" ++ compact d ++ "," ++ compactFields fs

end

/-! ## One entry per line -/

def newline (level : Nat) : String := "\n" ++ String.ofList (List.replicate (2 * level) ' ')

mutual

def prettyAt (level : Nat) : Doc → String
  | .null => "null"
  | .bool b => boolText b
  | .number n => toString n
  | .text s => quote s
  | .list [] => "[]"
  | .list (d :: ds) =>
    "[" ++ newline (level + 1) ++ prettyAt (level + 1) d ++ prettyItems (level + 1) ds
      ++ newline level ++ "]"
  | .object [] => "\x7b\x7d"
  | .object ((k, d) :: fs) =>
    "\x7b" ++ newline (level + 1) ++ quote k ++ ": " ++ prettyAt (level + 1) d
      ++ prettyFields (level + 1) fs ++ newline level ++ "\x7d"

def prettyItems (level : Nat) : List Doc → String
  | [] => ""
  | d :: ds => "," ++ newline level ++ prettyAt level d ++ prettyItems level ds

def prettyFields (level : Nat) : List (String × Doc) → String
  | [] => ""
  | (k, d) :: fs =>
    "," ++ newline level ++ quote k ++ ": " ++ prettyAt level d ++ prettyFields level fs

end

def pretty (d : Doc) : String := prettyAt 0 d

def ofText? : Option String → Doc
  | some s => .text s
  | none => .null

end Doc

def FunctionSummary.doc (f : FunctionSummary) : Doc := .object
  [("name", .text f.name), ("params", .list (f.params.map .text)),
    ("return_type", .text f.returnType), ("variadic", .bool f.variadic),
    ("declaration", .bool f.declaration), ("blocks", .number f.blocks),
    ("instructions", .number f.instructions), ("stack_slots", .number f.stackSlots)]

def Summary.doc (s : Summary) : Doc := .object
  [("target", .ofText? s.target), ("functions", .list (s.functions.map FunctionSummary.doc)),
    ("globals", .number s.globals)]

def Options.doc (o : Options) : Doc := .object
  [("target", .ofText? (o.target.map Target.name)), ("single_pass", .bool o.singlePass)]

end TreeFlow
