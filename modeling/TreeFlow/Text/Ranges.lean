/-!
# Ranges of characters

A class of characters is a table of closed ranges of code points in
increasing order.
-/

set_option autoImplicit false

namespace TreeFlow.Text

def between (first last : Nat) (c : Char) : Bool := first ≤ c.toNat && c.toNat ≤ last

def inRanges (ranges : List (Nat × Nat)) (c : Char) : Bool :=
  ranges.any fun r => between r.1 r.2 c

end TreeFlow.Text
