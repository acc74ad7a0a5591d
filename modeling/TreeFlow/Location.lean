/-!
# Places in a source file

A place is a line and a column, both counted from one. Columns count
characters. Only a line feed starts a new line: the two-character line end
is one place wide before its line feed resets the column, and a carriage
return that stands alone is an ordinary column.
-/

set_option autoImplicit false

namespace TreeFlow

structure Place where
  line : Nat
  column : Nat
  deriving DecidableEq, Repr

namespace Place

def start : Place := ⟨1, 1⟩

def advance (p : Place) (c : Char) : Place :=
  if c = '\n' then ⟨p.line + 1, 1⟩ else ⟨p.line, p.column + 1⟩

def after : Place → List Char → Place
  | p, [] => p
  | p, c :: cs => after (p.advance c) cs

theorem after_append (p : Place) (xs ys : List Char) :
    p.after (xs ++ ys) = (p.after xs).after ys := by
  induction xs generalizing p with
  | nil => rfl
  | cons c xs ih => exact ih _

end Place

structure Location where
  file : String
  place : Place
  deriving DecidableEq, Repr

def Location.render (l : Location) : String :=
  l.file ++ ":" ++ toString l.place.line ++ ":" ++ toString l.place.column

end TreeFlow
