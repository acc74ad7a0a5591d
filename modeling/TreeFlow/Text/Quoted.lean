import TreeFlow.Text.Hidden

/-!
# Quoted texts in messages

A text in a message stands in double quotes. Quotes, backslashes and the
usual control characters have short escapes; any other character that would
not be seen on its own is written by its code point in lower-case hexadecimal
digits.
-/

set_option autoImplicit false

namespace TreeFlow.Text

def hexadecimal (n : Nat) : List Char := Nat.toDigits 16 n

def escape (c : Char) : List Char :=
  if c = '\x00' then ['\\', '0']
  else if c = '\t' then ['\\', 't']
  else if c = '\r' then ['\\', 'r']
  else if c = '\n' then ['\\', 'n']
  else if c = '"' ∨ c = '\\' then ['\\', c]
  else if isHidden c then ['\\', 'u', '{'] ++ hexadecimal c.toNat ++ ['}']
  else [c]

def quote (s : String) : String :=
  String.ofList (['"'] ++ s.toList.flatMap escape ++ ['"'])

end TreeFlow.Text
