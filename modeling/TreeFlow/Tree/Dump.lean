import TreeFlow.Tree

/-!
# The tree dump

A dump writes one node per line as `Kind(name)`, indented by four spaces per
level. A node with children opens a brace on its line and closes it on a
line of its own. Locations are not written.
-/

set_option autoImplicit false

namespace TreeFlow.Tree

def margin (level : Nat) : List Char := List.replicate (4 * level) ' '

def heading (s : Site) : List Char :=
  s.kind.label.toList ++ '(' :: s.name.toList ++ [')']

mutual

def dumpChars (level : Nat) : Tree → List Char
  | .node s [] => margin level ++ heading s ++ ['\n']
  | .node s (t :: ts) =>
    margin level ++ heading s ++ [' ', '{', '\n'] ++ dumpChars (level + 1) t
      ++ dumpAll (level + 1) ts ++ margin level ++ ['}', '\n']

def dumpAll (level : Nat) : List Tree → List Char
  | [] => []
  | t :: ts => dumpChars level t ++ dumpAll level ts

end

def dump (t : Tree) : String := String.ofList (dumpChars 0 t)

end TreeFlow.Tree
