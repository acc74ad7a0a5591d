import Mathlib.Data.List.Nodup
import Mathlib.Logic.Relation
import Mathlib.Order.Lattice.Nat
import TreeFlow.Proofs.History

/-!
# Searching the graph of a function

The edges of the graph are read off the terminators, by the identities of the blocks.
The search keeps a frontier: the blocks that it has left behind, in the order in
which they were taken from the queue, and the blocks that still wait there. Every
block to which an edge leads from a block left behind has been seen, so that a
shortest walk to a block that has not been seen leads through the queue. The queue
therefore holds blocks of at most two distances, the nearer ones first, and what is
found next is one edge further away than the block it is found from.
-/

set_option autoImplicit false

namespace TreeFlow

namespace Function

variable {f : Function} {a b c e n : Nat} {past queue seen : List Nat}

/-! ## Edges, walks and distances -/

/-- The block `a` ends in a branch to `b`. There is no edge from a block that returns, or
that has not been ended. -/
inductive Edge (f : Function) (a b : Nat) : Prop
  | br {k : Block} (block : k ∈ f.blocks) (id : k.id = a) (ends : k.terminator = some (.br b))
  | yes {k : Block} {v : Value} {no : Nat} (block : k ∈ f.blocks) (id : k.id = a)
      (ends : k.terminator = some (.condBr v b no))
  | no {k : Block} {v : Value} {yes : Nat} (block : k ∈ f.blocks) (id : k.id = a)
      (ends : k.terminator = some (.condBr v yes b))

/-- A walk of `n` edges from one block to another. -/
inductive Walk (f : Function) (a : Nat) : Nat → Nat → Prop
  | start : f.Walk a 0 a
  | step {n b c : Nat} (walk : f.Walk a n b) (edge : f.Edge b c) : f.Walk a (n + 1) c

def Reaches (f : Function) : Nat → Nat → Prop := Relation.ReflTransGen f.Edge

noncomputable def distance (f : Function) (a b : Nat) : Nat := sInf {n | f.Walk a n b}

theorem reaches_iff_walk : f.Reaches a b ↔ ∃ n, f.Walk a n b := by
  constructor
  · intro h
    induction h with
    | refl => exact ⟨0, .start⟩
    | tail _ edge ih =>
      obtain ⟨n, walk⟩ := ih
      exact ⟨n + 1, walk.step edge⟩
  · rintro ⟨n, walk⟩
    induction walk with
    | start => exact .refl
    | step _ edge ih => exact ih.tail edge

theorem Walk.distance_le (h : f.Walk a n b) : f.distance a b ≤ n := Nat.sInf_le h

theorem Reaches.shortest (h : f.Reaches a b) : f.Walk a (f.distance a b) b :=
  Nat.sInf_mem (reaches_iff_walk.mp h)

theorem Reaches.distance_step (h : f.Reaches a b) (edge : f.Edge b c) :
    f.distance a c ≤ f.distance a b + 1 := (h.shortest.step edge).distance_le

theorem Walk.leaves {S : Nat → Prop} (h : f.Walk a n b) (ha : S a) (hb : ¬ S b) :
    ∃ x y, S x ∧ ¬ S y ∧ f.Edge x y ∧ f.distance a x < n := by
  induction h with
  | start => exact absurd ha hb
  | @step n b c walk edge ih =>
    by_cases hin : S b
    · exact ⟨b, c, hin, hb, edge, Nat.lt_succ_of_le walk.distance_le⟩
    · obtain ⟨x, y, hx, hy, hedge, hlt⟩ := ih hin
      exact ⟨x, y, hx, hy, hedge, Nat.lt_succ_of_lt hlt⟩

/-! ## Successors -/

theorem Placed.ids (h : f.Placed) (b : Nat) (k : Block) (hk : f.block? b = some k) :
    k.id = b := by
  obtain ⟨l, hl, rfl⟩ := block?_eq_some.mp hk
  exact (h b l hl).id

theorem Placed.block?_id (h : f.Placed) {k : Block} (hk : k ∈ f.blocks) :
    f.block? k.id = some k := by
  obtain ⟨b, hb⟩ := List.mem_iff_getElem?.mp hk
  rwa [h.ids b k hb]

theorem Placed.mem_successors (h : f.Placed) : b ∈ f.successors a ↔ f.Edge a b := by
  constructor
  · intro hb
    cases hk : f.block? a with
    | none => simp [successors, hk] at hb
    | some k =>
      have hmem : k ∈ f.blocks := List.mem_of_getElem? hk
      cases ht : k.terminator with
      | none => simp [successors, hk, ht] at hb
      | some t =>
        simp only [successors, hk, Option.bind_some, ht] at hb
        cases t with
        | br target =>
          obtain rfl := List.mem_singleton.mp hb
          exact .br hmem (h.ids a k hk) ht
        | condBr v yes no =>
          rcases List.mem_pair.mp hb with rfl | rfl
          · exact .yes hmem (h.ids a k hk) ht
          · exact .no hmem (h.ids a k hk) ht
        | ret value => cases hb
  · rintro (⟨hk, rfl, ht⟩ | ⟨hk, rfl, ht⟩ | ⟨hk, rfl, ht⟩) <;>
      simp [successors, h.block?_id hk, ht, Terminator.successors]

/-! ## What is found -/

theorem mem_unseen {bs : List Nat} {x : Nat} : x ∈ unseen seen bs ↔ x ∈ bs ∧ x ∉ seen := by
  induction bs generalizing seen with
  | nil => simp [unseen]
  | cons b bs ih =>
    rw [unseen]
    by_cases hb : b ∈ seen
    · rw [if_pos (by simpa using hb), ih, List.mem_cons]
      constructor
      · exact fun h => ⟨.inr h.1, h.2⟩
      · rintro ⟨rfl | hx, hnew⟩
        · exact absurd hb hnew
        · exact ⟨hx, hnew⟩
    · rw [if_neg (by simpa using hb), List.mem_cons, ih, List.mem_cons, List.mem_cons]
      by_cases hx : x = b
      · simp [hx, hb]
      · simp [hx]

theorem nodup_unseen (bs : List Nat) : (unseen seen bs).Nodup := by
  induction bs generalizing seen with
  | nil => exact List.nodup_nil
  | cons b bs ih =>
    rw [unseen]
    split
    · exact ih
    · exact List.nodup_cons.mpr ⟨fun h => (mem_unseen.mp h).2 List.mem_cons_self, ih⟩

/-! ## The frontier of the search -/

/-- The search without a bound on its steps: from this queue and with these blocks
seen it ends, and it has taken these blocks from the queue. -/
inductive Explores (f : Function) : List Nat → List Nat → List Nat → Prop
  | stop {seen : List Nat} : f.Explores [] seen []
  | step {b : Nat} {queue seen order : List Nat}
      (rest : f.Explores (queue ++ unseen seen (f.successors b))
        (unseen seen (f.successors b) ++ seen) order) :
      f.Explores (b :: queue) seen (b :: order)

/-- The state of a search from block `e` that has left some blocks behind. -/
structure Frontier (f : Function) (e : Nat) (past queue seen : List Nat) : Prop where
  start : e ∈ past ++ queue
  seen : ∀ x, x ∈ seen ↔ x ∈ past ++ queue
  nodup : (past ++ queue).Nodup
  reached : ∀ x ∈ past ++ queue, f.Reaches e x
  closed : ∀ x ∈ past, ∀ y, f.Edge x y → y ∈ past ++ queue
  sorted : (past ++ queue).Pairwise fun x y => f.distance e x ≤ f.distance e y
  narrow : ∀ x ∈ queue, ∀ y ∈ queue, f.distance e x ≤ f.distance e y + 1

namespace Frontier

theorem initial (f : Function) (e : Nat) : f.Frontier e [] [e] [e] where
  start := List.mem_singleton_self e
  seen _ := Iff.rfl
  nodup := List.nodup_singleton e
  reached x hx := List.mem_singleton.mp hx ▸ .refl
  closed _ hx := absurd hx List.not_mem_nil
  sorted := List.pairwise_singleton _ e
  narrow x hx y hy := by
    rw [List.mem_singleton.mp hx, List.mem_singleton.mp hy]
    exact Nat.le_succ _

/-- A block that has not been seen is further away than the next one of the queue. -/
theorem beyond (h : f.Frontier e past (b :: queue) seen) {x : Nat} (hx : f.Reaches e x)
    (hnew : x ∉ past ++ b :: queue) : f.distance e b < f.distance e x := by
  obtain ⟨y, z, hy, hz, hedge, hlt⟩ :=
    hx.shortest.leaves (S := (· ∈ past ++ b :: queue)) h.start hnew
  refine Nat.lt_of_le_of_lt ?_ hlt
  rcases List.mem_append.mp hy with hpast | hqueue
  · exact absurd (h.closed y hpast z hedge) hz
  · rcases List.mem_cons.mp hqueue with rfl | hqueue
    · exact Nat.le_refl _
    · exact (List.pairwise_cons.mp (List.pairwise_append.mp h.sorted).2.1).1 y hqueue

theorem found (h : f.Frontier e past (b :: queue) seen) (placed : f.Placed) {x : Nat}
    (hx : x ∈ unseen seen (f.successors b)) :
    x ∉ past ++ b :: queue ∧ f.Reaches e x ∧ f.distance e x = f.distance e b + 1 := by
  obtain ⟨hsucc, hnew⟩ := mem_unseen.mp hx
  have hedge := placed.mem_successors.mp hsucc
  rw [h.seen] at hnew
  have hb := h.reached b (List.mem_append_right _ List.mem_cons_self)
  have hreached : f.Reaches e x := hb.tail hedge
  exact ⟨hnew, hreached, Nat.le_antisymm (hb.distance_step hedge) (h.beyond hreached hnew)⟩

theorem step (h : f.Frontier e past (b :: queue) seen) (placed : f.Placed) :
    f.Frontier e (past ++ [b]) (queue ++ unseen seen (f.successors b))
      (unseen seen (f.successors b) ++ seen) := by
  have horder : past ++ [b] ++ (queue ++ unseen seen (f.successors b)) =
      past ++ b :: queue ++ unseen seen (f.successors b) := by simp
  have hnearest : ∀ x ∈ queue, f.distance e b ≤ f.distance e x :=
    (List.pairwise_cons.mp (List.pairwise_append.mp h.sorted).2.1).1
  have hnarrow : ∀ x ∈ queue, f.distance e x ≤ f.distance e b + 1 := fun x hx =>
    h.narrow x (List.mem_cons_of_mem b hx) b List.mem_cons_self
  constructor
  · rw [horder]
    exact List.mem_append_left _ h.start
  · intro x
    rw [horder, List.mem_append, List.mem_append, h.seen, or_comm]
  · rw [horder]
    refine List.nodup_append.mpr ⟨h.nodup, nodup_unseen _, ?_⟩
    rintro x hx y hy rfl
    exact (h.found placed hy).1 hx
  · rw [horder]
    intro x hx
    rcases List.mem_append.mp hx with hx | hx
    · exact h.reached x hx
    · exact (h.found placed hx).2.1
  · rw [horder]
    intro x hx y hy
    rcases List.mem_append.mp hx with hx | hx
    · exact List.mem_append_left _ (h.closed x hx y hy)
    · rw [List.mem_singleton.mp hx] at hy
      by_cases hold : y ∈ past ++ b :: queue
      · exact List.mem_append_left _ hold
      · have hsucc := placed.mem_successors.mpr hy
        exact List.mem_append_right _ (mem_unseen.mpr ⟨hsucc, mt (h.seen y).mp hold⟩)
  · rw [horder]
    refine List.pairwise_append.mpr ⟨h.sorted, ?_, ?_⟩
    · refine List.Pairwise.imp_of_mem ?_ (nodup_unseen _)
      intro x y hx hy _
      rw [(h.found placed hx).2.2, (h.found placed hy).2.2]
    · intro x hx y hy
      rw [(h.found placed hy).2.2]
      rcases List.mem_append.mp hx with hx | hx
      · have hle := (List.pairwise_append.mp h.sorted).2.2 x hx b List.mem_cons_self
        omega
      · rcases List.mem_cons.mp hx with rfl | hx
        · exact Nat.le_succ _
        · exact hnarrow x hx
  · intro x hx y hy
    rcases List.mem_append.mp hx with hx | hx <;> rcases List.mem_append.mp hy with hy | hy
    · exact h.narrow x (List.mem_cons_of_mem b hx) y (List.mem_cons_of_mem b hy)
    · have hle := hnarrow x hx
      rw [(h.found placed hy).2.2]
      omega
    · have hle := hnearest y hy
      rw [(h.found placed hx).2.2]
      omega
    · rw [(h.found placed hx).2.2, (h.found placed hy).2.2]
      exact Nat.le_succ _

theorem finish {order : List Nat} (h : f.Explores queue seen order) (placed : f.Placed)
    (hfrontier : f.Frontier e past queue seen) :
    ∃ seen', f.Frontier e (past ++ order) [] seen' := by
  induction h generalizing past with
  | @stop seen =>
    rw [List.append_nil]
    exact ⟨seen, hfrontier⟩
  | @step b queue seen order _ ih =>
    have hrest := ih (hfrontier.step placed)
    rwa [List.append_assoc, List.singleton_append] at hrest

theorem complete (h : f.Frontier e past [] seen) {x : Nat} : x ∈ past ↔ f.Reaches e x := by
  have hall : past ++ [] = past := List.append_nil past
  constructor
  · exact fun hx => h.reached x (by rwa [hall])
  · intro hx
    induction hx with
    | refl => exact hall ▸ h.start
    | tail _ edge ih => exact hall ▸ h.closed _ ih _ edge

end Frontier

/-! ## The bound on the steps -/

theorem Placed.edge_lt (h : f.Placed) (edge : f.Edge a b) : b < f.bodies.length := by
  have hbound : ∀ {k : Block} {t : Terminator}, k ∈ f.blocks → k.terminator = some t →
      b ∈ t.successors → b < f.bodies.length := by
    intro k t hk ht hb
    obtain ⟨l, hl, hkl⟩ := block?_eq_some.mp (h.block?_id hk)
    exact (h k.id l hl).targets t (by rw [hkl] at ht; exact ht) b hb
  rcases edge with ⟨hk, -, ht⟩ | ⟨hk, -, ht⟩ | ⟨hk, -, ht⟩ <;>
    exact hbound hk ht (by simp [Terminator.successors])

theorem Placed.reaches_lt (h : f.Placed) (he : e < f.bodies.length) (hx : f.Reaches e b) :
    b < f.bodies.length := by
  induction hx with
  | refl => exact he
  | tail _ edge _ => exact h.edge_lt edge

theorem Frontier.length_le (h : f.Frontier e past queue seen) (placed : f.Placed)
    (he : e < f.bodies.length) : past.length + queue.length ≤ f.bodies.length := by
  have hsub : past ++ queue ⊆ List.range f.bodies.length := fun x hx =>
    List.mem_range.mpr (placed.reaches_lt he (h.reached x hx))
  have hle := (List.subperm_of_subset h.nodup hsub).length_le
  rwa [List.length_append, List.length_range] at hle

/-- As many steps as there are blocks are enough for the search to end. -/
theorem Frontier.explores (h : f.Frontier e past queue seen) (placed : f.Placed)
    (he : e < f.bodies.length) (hn : f.bodies.length ≤ past.length + n) :
    f.Explores queue seen (f.search n queue seen) := by
  induction n generalizing past queue seen with
  | zero =>
    have hle := h.length_le placed he
    obtain rfl : queue = [] := List.eq_nil_of_length_eq_zero (by omega)
    exact .stop
  | succ n ih =>
    cases queue with
    | nil => exact .stop
    | cons b queue =>
      refine .step (ih (h.step placed) ?_)
      rw [List.length_append, List.length_singleton]
      omega

/-! ## Queries -/

/-- What the queries about the graph of a function answer. Successors are where the edges
lead. The search ends by itself. It finds the blocks that can be reached from the entry
block, each once, the entry block first and nearer blocks before those further away.
Predecessors are the converse of successors, in increasing order. -/
structure Queries (f : Function) : Prop where
  edges : ∀ a b, b ∈ f.successors a ↔ f.Edge a b
  ends : ∀ e ∈ f.entry?, f.Explores [e] [e] f.reachable
  blank : f.blocks = [] → f.reachable = []
  first : f.reachable.head? = f.entry?
  once : f.reachable.Nodup
  members : ∀ b, b ∈ f.reachable ↔ ∃ e ∈ f.entry?, f.Reaches e b
  nearest : ∀ e ∈ f.entry?,
    f.reachable.Pairwise fun a b => f.distance e a ≤ f.distance e b
  converse : ∀ a b, a ∈ f.predecessors b ↔ b ∈ f.successors a
  increasing : ∀ b, (f.predecessors b).Pairwise (· < ·)

theorem Placed.increasing (h : f.Placed) (b : Nat) : (f.predecessors b).Pairwise (· < ·) := by
  have hall : (f.blocks.map (·.id)).Pairwise (· < ·) := by
    rw [List.pairwise_iff_getElem]
    intro i j hi hj hlt
    rw [List.length_map] at hi hj
    rw [List.getElem_map, List.getElem_map, h.ids i _ (List.getElem?_eq_getElem hi),
      h.ids j _ (List.getElem?_eq_getElem hj)]
    exact hlt
  exact hall.sublist (List.filter_sublist.map _)

theorem Placed.entry? (h : f.Placed) : f.entry? = if f.bodies = [] then none else some 0 := by
  unfold Function.entry?
  cases hb : f.bodies with
  | nil => rfl
  | cons k ks =>
    have hid : k.id = 0 := (h 0 k (by rw [hb]; rfl)).id
    simp [hid]

theorem Placed.queries (h : f.Placed) : f.Queries := by
  have hentry := h.entry?
  by_cases hb : f.bodies = []
  · rw [if_pos hb] at hentry
    have hnone : f.reachable = [] := by simp only [reachable, hentry]
    refine ⟨fun a b => h.mem_successors, ?_, fun _ => hnone, ?_, ?_, ?_, ?_,
      fun a b => mem_predecessors h.ids, h.increasing⟩
    · simp [hentry]
    · rw [hnone, hentry]
      rfl
    · rw [hnone]
      exact List.nodup_nil
    · simp [hnone, hentry]
    · simp [hentry]
  · rw [if_neg hb] at hentry
    have hsearch : f.reachable = f.search f.bodies.length [0] [0] := by
      simp only [reachable, hentry]
    have hlen : 0 < f.bodies.length := List.length_pos_iff.mpr hb
    have hends := (Frontier.initial f 0).explores (n := f.bodies.length) h hlen (by simp)
    rw [← hsearch] at hends
    obtain ⟨seen, hfrontier⟩ := Frontier.finish hends h (Frontier.initial f 0)
    rw [List.nil_append] at hfrontier
    refine ⟨fun a b => h.mem_successors, ?_, ?_, ?_, ?_, ?_, ?_,
      fun a b => mem_predecessors h.ids, h.increasing⟩
    · rw [hentry]
      rintro e ⟨rfl⟩
      exact hends
    · intro hnil
      have hzero : f.blocks.length = 0 := by rw [hnil]; rfl
      rw [blocks_length] at hzero
      omega
    · rw [hentry, hsearch]
      cases hcount : f.bodies.length with
      | zero => omega
      | succ n => rfl
    · simpa using hfrontier.nodup
    · intro b
      rw [hfrontier.complete, hentry]
      simp
    · rw [hentry]
      rintro e ⟨rfl⟩
      simpa using hfrontier.sorted

end Function

/-- The queries about the graph of a function that was built by any history of
operations, failed ones included, are exact. -/
theorem Op.run_queries (id : Nat) (sig : Signature) (ops : List Op) :
    (run (.declare id sig) ops).Queries :=
  (run_stable Function.Placed.stable (Function.Placed.stable.declare id sig) ops).queries

-- A loop behind the entry block, and a block that nothing leads to.
example : (Op.run (.declare 0 ⟨"f", .void, [], false⟩) [.newBlock "entry", .newBlock "end",
    .newBlock "body", .newBlock "test", .newBlock "lost", .br 0 3, .condBr 3 (.const .i1 1) 2 1,
    .br 2 3, .br 4 1, .ret 1 none]).reachable = [0, 3, 2, 1] := by decide +kernel

end TreeFlow
