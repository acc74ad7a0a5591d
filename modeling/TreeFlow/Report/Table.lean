import TreeFlow.Text.Columns
import TreeFlow.Flow.Module

/-!
# Tables in boxes

A table has a header and body rows of the same length. Each column is as wide
as its widest cell, with one blank on both sides. Header cells stand to the
left; body cells stand where their column says.
-/

set_option autoImplicit false

namespace TreeFlow

inductive Align where
  | left
  | right
  deriving DecidableEq, Repr

structure Table where
  header : List String
  align : List Align
  rows : List (List String)
  deriving DecidableEq, Repr

namespace Table

def widthOf (column : List String) : Nat := (column.map Text.columns).foldl max 0

def widths (t : Table) : List Nat :=
  (List.range t.header.length).map fun i =>
    widthOf ((t.header :: t.rows).map fun row => row.getD i "")

def blanks (n : Nat) : String := String.ofList (List.replicate n ' ')

def pad (a : Align) (width : Nat) (cell : String) : String :=
  let fill := blanks (width - Text.columns cell)
  match a with
  | .left => " " ++ cell ++ fill ++ " "
  | .right => " " ++ fill ++ cell ++ " "

/-- A horizontal line: its left end, its body, its crossings and its right
end. -/
def rule (left body cross right : String) (widths : List Nat) : String :=
  let bar (w : Nat) : String := String.join (List.replicate (w + 2) body)
  left ++ String.intercalate cross (widths.map bar) ++ right

def line (aligns : List Align) (widths : List Nat) (cells : List String) : String :=
  let padded := (cells.zip (aligns.zip widths)).map fun (c, a, w) => pad a w c
  "│" ++ String.intercalate "┆" padded ++ "│"

def lines (t : Table) : List String :=
  let ws := t.widths
  let head := line (t.header.map fun _ => .left) ws t.header
  let body := (t.rows.map (line t.align ws)).intersperse (rule "├" "╌" "┼" "┤" ws)
  [rule "┌" "─" "┬" "┐" ws, head, rule "╞" "═" "╪" "╡" ws] ++ body ++ [rule "└" "─" "┴" "┘" ws]

def render (t : Table) : String := String.intercalate "\n" t.lines

end Table

def FunctionSummary.signature (f : FunctionSummary) : String :=
  let params := f.params ++ (if f.variadic then ["..."] else [])
  f.returnType ++ " (" ++ String.intercalate ", " params ++ ")"

def FunctionSummary.row (f : FunctionSummary) : List String :=
  [f.name, f.signature, if f.declaration then "extern" else "defined", toString f.blocks,
    toString f.instructions, toString f.stackSlots]

def Summary.table (s : Summary) : Table where
  header := ["function", "signature", "kind", "blocks", "instrs", "slots"]
  align := [.left, .left, .left, .right, .right, .right]
  rows := s.functions.map FunctionSummary.row

def Target.table : Table where
  header := ["target", "triple"]
  align := [.left, .left]
  rows := Target.all.map fun t => [t.name, t.triple]

end TreeFlow
