import TreeFlow.Text.White
import TreeFlow.Text.Decimal
import TreeFlow.Lowering.Error

/-!
# Shapes of nodes

The checks on a node that need no context: how many children it has, of what
kind they are, which type an identifier names, which number a literal is and
which operation a symbol stands for.
-/

set_option autoImplicit false

namespace TreeFlow

namespace Site

def wrongArity (s : Site) (least most found : Nat) : LowerError :=
  s.fault (.wrongArity s.kind least most found)

def require (s : Site) (i : Nat) (k : Kind) (child : Tree) : Except LowerError Unit :=
  if child.kind = k then .ok () else .error (s.fault (.wrongChild i s.kind k child.kind))

end Site

namespace Tree

def checkArity (t : Tree) (least most : Nat) : Except LowerError Unit :=
  if t.children.length < least ∨ most < t.children.length then
    .error (t.site.wrongArity least most t.children.length)
  else .ok ()

def child (t : Tree) (i : Nat) (k : Kind) : Except LowerError Tree :=
  match t.children[i]? with
  | none => .error (t.site.fault (.missingChild t.kind i))
  | some c => (t.site.require i k c).map fun _ => c

end Tree

namespace Ty

def ofName? (name : String) : Option Ty :=
  if name = "int" then some .i32 else if name = "void" then some .void else none

def ofSite (s : Site) : Except LowerError Ty :=
  if s.kind = .identifier then
    match ofName? s.name with
    | some t => .ok t
    | none => .error (s.fault (.unknownType s.name))
  else .error (s.fault (.notTypeName s.kind))

end Ty

def Site.literal (s : Site) : Except LowerError Int :=
  match Text.int32? (Text.trim s.name.toList) with
  | some n => .ok n
  | none => .error (s.fault (.invalidLiteral s.name))

inductive Operator where
  | arith (op : Arith)
  | compare (test : Compare)
  deriving DecidableEq, Repr

namespace Operator

def table : List (String × Operator) :=
  [("+", .arith .add), ("-", .arith .sub), ("*", .arith .mul), ("/", .arith .sdiv),
    ("%", .arith .srem), ("==", .compare .eq), ("!=", .compare .ne), ("<", .compare .slt),
    ("<=", .compare .sle), (">", .compare .sgt), (">=", .compare .sge)]

def ofSymbol? (s : String) : Option Operator := table.lookup s

def ofSite (s : Site) : Except LowerError Operator :=
  match ofSymbol? s.name with
  | some op => .ok op
  | none => .error (s.fault (.unknownOperator s.name))

end Operator

/-- How an assignment combines the old value with the new one: not at all,
or by an arithmetic operation. -/
inductive Update where
  | replace
  | combine (op : Arith)
  deriving DecidableEq, Repr

namespace Update

def table : List (String × Update) :=
  [("=", .replace), ("+=", .combine .add), ("-=", .combine .sub), ("*=", .combine .mul),
    ("/=", .combine .sdiv), ("%=", .combine .srem)]

def ofSymbol? (s : String) : Option Update := table.lookup s

def ofSite (s : Site) : Except LowerError Update :=
  match ofSymbol? s.name with
  | some u => .ok u
  | none => .error (s.fault (.unknownAssignment s.name))

end Update

end TreeFlow
