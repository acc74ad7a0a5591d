import TreeFlow.Flow.Function

/-!
# The graph of a function

The edges of the graph are the targets of terminators. The breadth-first
search takes each block from the front of a queue and puts its unseen
successors at the back; as many steps as there are blocks are enough.
-/

set_option autoImplicit false

namespace TreeFlow.Function

def successors (f : Function) (b : Nat) : List Nat :=
  match (f.block? b).bind (·.terminator) with
  | some t => t.successors
  | none => []

def predecessors (f : Function) (b : Nat) : List Nat :=
  (f.blocks.filter fun k => (f.successors k.id).contains b).map (·.id)

/-- Where the identity of each block is its position, the predecessors of a block are
the blocks that it succeeds. -/
theorem mem_predecessors {f : Function} (ids : ∀ b k, f.block? b = some k → k.id = b) {a b : Nat} :
    a ∈ f.predecessors b ↔ b ∈ f.successors a := by
  simp only [predecessors, List.mem_map, List.mem_filter, List.contains_iff_mem]
  constructor
  · rintro ⟨k, ⟨-, hb⟩, rfl⟩
    exact hb
  · intro hb
    cases hk : f.block? a with
    | none => simp [successors, hk] at hb
    | some k => exact ⟨k, ⟨List.mem_of_getElem? hk, by rwa [ids a k hk]⟩, ids a k hk⟩

def unseen : List Nat → List Nat → List Nat
  | _, [] => []
  | seen, b :: bs => if seen.contains b then unseen seen bs else b :: unseen (b :: seen) bs

def search (f : Function) : Nat → List Nat → List Nat → List Nat
  | 0, _, _ => []
  | _, [], _ => []
  | n + 1, b :: queue, seen =>
    let found := unseen seen (f.successors b)
    b :: search f n (queue ++ found) (found ++ seen)

/-- The blocks that can be reached from the entry, nearest first. -/
def reachable (f : Function) : List Nat :=
  match f.entry? with
  | none => []
  | some e => f.search f.bodies.length [e] [e]

end TreeFlow.Function
