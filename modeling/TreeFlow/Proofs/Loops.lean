import TreeFlow.Flow.Graph
import TreeFlow.Proofs.Drafting

/-!
# The wiring of loops

The blocks of a loop are entered only by the loop itself: its test from where the
loop was reached, from the end of its body and from the blocks that start its
next round, its body from its test, and its end from its test and the blocks that
leave it. Code in front of the loop, around it or behind it does not know these
blocks. The proof goes along a layout and keeps apart the blocks that a piece
closes from all others.
-/

set_option autoImplicit false

namespace TreeFlow

/-! ## Closed blocks -/

namespace Mark

def Fills (μ μ' : Mark) (x : Nat) : Prop :=
  μ.ended = false ∧ (x = μ.block ∨ μ.blocks ≤ x ∧ x < μ'.blocks)

/-- A block that a piece closes. Control goes on in one that it does not
close. -/
def Closes (μ μ' : Mark) (x : Nat) : Prop := μ.Fills μ' x ∧ x ∉ μ'.cursor.open?

variable {μ μ₁ μ₂ : Mark} {x : Nat}

theorem mem_open : x ∈ μ.cursor.open? ↔ μ.ended = false ∧ x = μ.block := by
  by_cases h : μ.ended = true <;> simp [cursor, Cursor.open?, h, eq_comm]

theorem not_closes (h : μ₁.cursor = μ.cursor) : ¬ μ.Closes μ₁ x := by
  rintro ⟨⟨hended, hx⟩, hopen⟩
  have hblocks : μ₁.blocks = μ.blocks := congrArg Cursor.blocks h
  rw [h, mem_open] at hopen
  refine hopen ⟨hended, ?_⟩
  omega

theorem closes_stop (h : μ.ended = false) (h₁ : μ₁.cursor = μ.cursor.stop) :
    μ.Closes μ₁ x ↔ x = μ.block := by
  have hblocks : μ₁.blocks = μ.blocks := congrArg Cursor.blocks h₁
  have hended : μ₁.ended = true := congrArg Cursor.ended h₁
  simp only [Closes, Fills, mem_open, hended, h, true_and, Bool.true_eq_false, false_and,
    not_false_eq_true, and_true]
  omega

theorem closes_trans (h : μ.ended = false) (h₁ : μ₁.ended = false) (hb : μ.block < μ.blocks)
    (hcursor : μ₁.block = μ.block ∨ μ.blocks ≤ μ₁.block ∧ μ₁.block < μ₁.blocks)
    (hcursor₁ : μ₂.block = μ₁.block ∨ μ₁.blocks ≤ μ₂.block ∧ μ₂.block < μ₂.blocks)
    (hle : μ.blocks ≤ μ₁.blocks) (hle₁ : μ₁.blocks ≤ μ₂.blocks) :
    μ.Closes μ₂ x ↔ μ.Closes μ₁ x ∨ μ₁.Closes μ₂ x := by
  simp only [Closes, Fills, mem_open, h, h₁, true_and]
  cases μ₂.ended with
  | true =>
    simp only [Bool.true_eq_false, false_and, not_false_eq_true, and_true]
    omega
  | false =>
    simp only [true_and]
    omega

section Constructs

variable {ν ν₁ : Mark} (h : μ.ended = false) (hb : μ.block < μ.blocks)

include h hb

theorem closes_loop (hν : ν.cursor = ⟨μ.blocks + 1, μ.blocks + 3, false⟩)
    (hcursor : μ₁.block = ν.block ∨ ν.blocks ≤ μ₁.block ∧ μ₁.block < μ₁.blocks)
    (hle : ν.blocks ≤ μ₁.blocks) :
    μ.Closes (μ₁.head (μ.blocks + 2)) x ↔
      x = μ.block ∨ x = μ.blocks ∨ ν.Closes μ₁ x ∨ x ∈ μ₁.cursor.open? := by
  obtain ⟨hblock, hblocks, hended⟩ : ν.block = μ.blocks + 1 ∧ ν.blocks = μ.blocks + 3 ∧
      ν.ended = false := by simpa [cursor] using hν
  simp only [Closes, Fills, mem_open, h, hended, head_block, head_blocks, head_ended, true_and]
  cases μ₁.ended with
  | true =>
    simp only [Bool.true_eq_false, false_and, not_false_eq_true, and_true, or_false]
    omega
  | false =>
    simp only [true_and]
    omega

theorem closes_ifThen (hν : ν.cursor = ⟨μ.blocks, μ.blocks + 2, false⟩)
    (hle : ν.blocks ≤ μ₁.blocks) :
    μ.Closes (μ₁.head (μ.blocks + 1)) x ↔ ν.Fills μ₁ x ∨ x = μ.block := by
  obtain ⟨hblock, hblocks, hended⟩ : ν.block = μ.blocks ∧ ν.blocks = μ.blocks + 2 ∧
      ν.ended = false := by simpa [cursor] using hν
  simp only [Closes, Fills, mem_open, h, hended, head_block, head_blocks, head_ended, true_and]
  omega

theorem closes_ifElse (hν : ν.cursor = ⟨μ.blocks, μ.blocks + 3, false⟩)
    (hle : ν.blocks ≤ μ₁.blocks) (hν₁ : ν₁.cursor = ⟨μ.blocks + 2, μ₁.blocks, false⟩)
    (hle₁ : ν₁.blocks ≤ μ₂.blocks) :
    μ.Closes (μ₂.head (μ.blocks + 1)) x ↔ (ν.Fills μ₁ x ∨ ν₁.Fills μ₂ x) ∨ x = μ.block := by
  obtain ⟨hblock, hblocks, hended⟩ : ν.block = μ.blocks ∧ ν.blocks = μ.blocks + 3 ∧
      ν.ended = false := by simpa [cursor] using hν
  obtain ⟨hblock₁, hblocks₁, hended₁⟩ : ν₁.block = μ.blocks + 2 ∧ ν₁.blocks = μ₁.blocks ∧
      ν₁.ended = false := by simpa [cursor] using hν₁
  simp only [Closes, Fills, mem_open, h, hended, hended₁, head_block, head_blocks, head_ended,
    true_and]
  omega

end Constructs

end Mark

theorem Function.Ends.successors {g : Function} {μ : Mark} {x : Terminator} (h : g.Ends μ x) :
    g.successors μ.block = x.successors := by
  obtain ⟨k, hk, -, hx⟩ := h
  have hblock : g.block? μ.block = some { k with instrs := g.lead μ.block ++ k.instrs } :=
    Function.block?_eq_some.mpr ⟨k, hk, rfl⟩
  rw [Function.successors, hblock]
  simp [hx]

/-! ## Loops -/

/-- Among the blocks of a set, the loop is entered by the blocks that it names
and by no others. Its own blocks are numbered from `lo` on and below `hi`. -/
structure Loop.Wired (l : Loop) (g : Function) (S : Nat → Prop) (lo hi : Nat) : Prop where
  ids : lo ≤ l.test ∧ l.body = l.test + 1 ∧ l.stop = l.test + 2 ∧ l.stop < hi
  branch : ∃ k v, g.block? l.test = some k ∧ k.terminator = some (.condBr v l.body l.stop)
  members : S l.reached ∧ S l.test ∧ (∀ x ∈ l.leaves, S x) ∧ (∀ x ∈ l.again, S x) ∧
    ∀ x ∈ l.last, S x
  toBody : ∀ x, S x → (l.body ∈ g.successors x ↔ x = l.test)
  toStop : ∀ x, S x → (l.stop ∈ g.successors x ↔ x = l.test ∨ x ∈ l.leaves)
  toTest : ∀ x, S x → (l.test ∈ g.successors x ↔ x = l.reached ∨ x ∈ l.again ∨ x ∈ l.last)

theorem Loop.Wired.widen {l : Loop} {g : Function} {S T : Nat → Prop} {lo hi lo' hi' : Nat}
    (h : l.Wired g S lo hi) (hlo : lo' ≤ lo) (hhi : hi ≤ hi') (hST : ∀ x, S x → T x)
    (hrest : ∀ x, T x → ¬ S x → ∀ y ∈ g.successors x, y < lo ∨ hi ≤ y) :
    l.Wired g T lo' hi' := by
  obtain ⟨ids, branch, members, toBody, toStop, toTest⟩ := h
  obtain ⟨hreached, htest, hleaves, hagain, hlast⟩ := members
  have hout : ∀ {x y : Nat}, T x → ¬ S x → lo ≤ y → y < hi → y ∉ g.successors x := by
    intro x y hx hS hlo hhi hy
    have := hrest x hx hS y hy
    omega
  refine ⟨by omega, branch, ⟨hST _ hreached, hST _ htest, fun x hx => hST x (hleaves x hx),
    fun x hx => hST x (hagain x hx), fun x hx => hST x (hlast x hx)⟩, ?_, ?_, ?_⟩
  · intro x hx
    by_cases hS : S x
    · exact toBody x hS
    · refine iff_of_false (hout hx hS (by omega) (by omega)) ?_
      rintro rfl
      exact hS htest
  · intro x hx
    by_cases hS : S x
    · exact toStop x hS
    · refine iff_of_false (hout hx hS (by omega) (by omega)) ?_
      rintro (rfl | hmem)
      · exact hS htest
      · exact hS (hleaves x hmem)
  · intro x hx
    by_cases hS : S x
    · exact toTest x hS
    · refine iff_of_false (hout hx hS (by omega) (by omega)) ?_
      rintro (rfl | hmem | hmem)
      · exact hS hreached
      · exact hS (hagain x hmem)
      · exact hS (hlast x hmem)

/-! ## Drafts -/

/-- Blocks of a set lead to blocks from `lo` on and below `hi` or to blocks in
`exits`, unless they leave or repeat the innermost loop around the draft. All
loops of the draft are wired. -/
structure Draft.Wires (d : Draft) (g : Function) (ls : List LoopTargets) (S : Nat → Prop)
    (lo hi : Nat) (exits : List Nat) : Prop where
  leaves : ∀ x ∈ d.leaves, S x ∧ ∃ l ∈ ls.head?, g.successors x = [l.onBreak]
  again : ∀ x ∈ d.again, S x ∧ ∃ l ∈ ls.head?, g.successors x = [l.onContinue]
  targets : ∀ x, S x → x ∉ d.leaves → x ∉ d.again →
    ∀ y ∈ g.successors x, lo ≤ y ∧ y < hi ∨ y ∈ exits
  loops : ∀ l ∈ d.loops, l.Wired g S lo hi

namespace Draft.Wires

variable {d e : Draft} {g : Function} {ls : List LoopTargets} {S T : Nat → Prop}
  {lo mid hi : Nat} {exits : List Nat}

theorem targets_below {n : Nat} (h : d.Wires g ls S lo hi exits)
    (hls : ∀ l ∈ ls, l.onContinue < n ∧ l.onBreak < n) (hexits : ∀ y ∈ exits, y < n) {x y : Nat}
    (hx : S x) (hy : y ∈ g.successors x) : lo ≤ y ∧ y < hi ∨ y < n := by
  by_cases hleaves : x ∈ d.leaves
  · obtain ⟨-, l, hl, hsucc⟩ := h.leaves x hleaves
    rw [hsucc, List.mem_singleton] at hy
    exact .inr (hy ▸ (hls l (List.mem_of_mem_head? hl)).2)
  · by_cases hagain : x ∈ d.again
    · obtain ⟨-, l, hl, hsucc⟩ := h.again x hagain
      rw [hsucc, List.mem_singleton] at hy
      exact .inr (hy ▸ (hls l (List.mem_of_mem_head? hl)).1)
    · exact (h.targets x hx hleaves hagain y hy).imp_right (hexits y)

theorem widen {lo' : Nat} {exits' : List Nat} (h : d.Wires g ls S lo hi exits) (hlo : lo' ≤ lo)
    (hhi : lo ≤ hi) (hST : ∀ x, S x → T x)
    (hexits : ∀ y ∈ exits, y ∈ exits' ∨ lo' ≤ y ∧ y < hi)
    (hextra : ∀ x, T x → ¬ S x → ∀ y ∈ g.successors x, y < lo ∧ (lo' ≤ y ∨ y ∈ exits')) :
    d.Wires g ls T lo' hi exits' := by
  refine ⟨fun x hx => (h.leaves x hx).imp_left (hST x), fun x hx => (h.again x hx).imp_left (hST x),
    fun x hx hleaves hagain y hy => ?_, fun l hl => ?_⟩
  · by_cases hS : S x
    · rcases h.targets x hS hleaves hagain y hy with hy | hy
      · exact .inl ⟨Nat.le_trans hlo hy.1, hy.2⟩
      · exact (hexits y hy).symm
    · obtain ⟨hlt, hy | hy⟩ := hextra x hx hS y hy
      · exact .inl ⟨hy, Nat.lt_of_lt_of_le hlt hhi⟩
      · exact .inr hy
  · exact (h.loops l hl).widen hlo (Nat.le_refl _) hST fun x hx hS y hy =>
      .inl (hextra x hx hS y hy).1

theorem append (h : d.Wires g ls S lo mid exits) (h' : e.Wires g ls T mid hi exits)
    (hls : ∀ l ∈ ls, l.onContinue < lo ∧ l.onBreak < lo) (hexits : ∀ y ∈ exits, y < lo)
    (hmid : lo ≤ mid) (hhi : mid ≤ hi) :
    (d.append e).Wires g ls (fun x => S x ∨ T x) lo hi exits := by
  refine ⟨fun x hx => ?_, fun x hx => ?_, fun x hx hleaves hagain y hy => ?_, fun l hl => ?_⟩
  · rcases List.mem_append.mp hx with hx | hx
    · exact (h.leaves x hx).imp_left .inl
    · exact (h'.leaves x hx).imp_left .inr
  · rcases List.mem_append.mp hx with hx | hx
    · exact (h.again x hx).imp_left .inl
    · exact (h'.again x hx).imp_left .inr
  · rw [Draft.append, List.mem_append, not_or] at hleaves hagain
    rcases hx with hx | hx
    · rcases h.targets x hx hleaves.1 hagain.1 y hy with hy | hy
      · exact .inl (by omega)
      · exact .inr hy
    · rcases h'.targets x hx hleaves.2 hagain.2 y hy with hy | hy
      · exact .inl (by omega)
      · exact .inr hy
  · -- The blocks of one draft do not lead to the loops of the other.
    rcases List.mem_append.mp hl with hl | hl
    · refine (h.loops l hl).widen (Nat.le_refl _) hhi (fun x => .inl) fun x hx hS y hy => ?_
      have := h'.targets_below hls hexits (hx.resolve_left hS) hy
      omega
    · refine (h'.loops l hl).widen hmid (Nat.le_refl _) (fun x => .inr) fun x hx hT y hy => ?_
      have := h.targets_below hls hexits (hx.resolve_right hT) hy
      omega

theorem congr (h : d.Wires g ls S lo hi exits) (hST : ∀ x, S x ↔ T x) :
    d.Wires g ls T lo hi exits := by
  obtain rfl : S = T := funext fun x => propext (hST x)
  exact h

variable {μ μ' : Mark}

theorem quiet (h : μ'.cursor = μ.cursor) :
    (Draft.quiet μ.cursor).Wires g ls (μ.Closes μ') μ.blocks μ'.blocks [] :=
  ⟨nofun, nofun, fun _ hx => absurd hx (Mark.not_closes h), nofun⟩

theorem halt (hμ : μ.ended = false) (hμ' : μ'.cursor = μ.cursor.stop)
    (hsucc : g.successors μ.block = []) :
    (Draft.quiet μ.cursor.stop).Wires g ls (μ.Closes μ') μ.blocks μ'.blocks [] := by
  refine ⟨nofun, nofun, fun x hx _ _ y hy => ?_, nofun⟩
  obtain rfl := (Mark.closes_stop hμ hμ').mp hx
  rw [hsucc] at hy
  cases hy

theorem leave {l : LoopTargets} (hμ : μ.ended = false)
    (hsucc : g.successors μ.block = [l.onBreak]) :
    Draft.Wires ⟨μ.cursor.stop, [μ.block], [], []⟩ g (l :: ls) (μ.Closes μ.stop) μ.blocks
      μ.stop.blocks [] := by
  have hcloses : ∀ x, μ.Closes μ.stop x ↔ x = μ.block := fun x => Mark.closes_stop hμ rfl
  refine ⟨fun x hx => ?_, nofun, fun x hx hleaves => ?_, nofun⟩
  · obtain rfl := List.mem_singleton.mp hx
    exact ⟨(hcloses _).mpr rfl, l, rfl, hsucc⟩
  · exact absurd (List.mem_singleton.mpr ((hcloses x).mp hx)) hleaves

theorem repeats {l : LoopTargets} (hμ : μ.ended = false)
    (hsucc : g.successors μ.block = [l.onContinue]) :
    Draft.Wires ⟨μ.cursor.stop, [], [μ.block], []⟩ g (l :: ls) (μ.Closes μ.stop) μ.blocks
      μ.stop.blocks [] := by
  have hcloses : ∀ x, μ.Closes μ.stop x ↔ x = μ.block := fun x => Mark.closes_stop hμ rfl
  refine ⟨nofun, fun x hx => ?_, fun x hx _ hagain => ?_, nofun⟩
  · obtain rfl := List.mem_singleton.mp hx
    exact ⟨(hcloses _).mpr rfl, l, rfl, hsucc⟩
  · exact absurd (List.mem_singleton.mpr ((hcloses x).mp hx)) hagain

theorem arm {target : Nat} (h : d.Wires g ls (μ.Closes μ') μ.blocks μ'.blocks [])
    (hle : μ.blocks ≤ μ'.blocks) (hfalls : g.Falls μ' target) (htarget : target < μ.blocks) :
    d.Wires g ls (μ.Fills μ') μ.blocks μ'.blocks [target] := by
  refine h.widen (Nat.le_refl _) hle (fun x hx => hx.1) nofun fun x hx hS y hy => ?_
  have hopen : x ∈ μ'.cursor.open? := Classical.not_not.mp fun hopen => hS ⟨hx, hopen⟩
  obtain ⟨hended, rfl⟩ := Mark.mem_open.mp hopen
  rw [(hfalls hended).successors] at hy
  obtain rfl : y = target := by simpa [Terminator.successors] using hy
  exact ⟨htarget, .inr (List.mem_singleton_self _)⟩

theorem branch {first rest : Nat} (h : d.Wires g ls S lo hi exits) (hhi : lo ≤ hi)
    (hexits : ∀ y ∈ exits, μ.blocks ≤ y ∧ y < lo) (hlo : μ.blocks ≤ lo)
    (hends : g.successors μ.block = [first, rest])
    (hfirst : μ.blocks ≤ first ∧ first < lo) (hrest : μ.blocks ≤ rest ∧ rest < lo) (b : Nat) :
    (d.resume b).Wires g ls (fun x => S x ∨ x = μ.block) μ.blocks hi [] := by
  have hwide : d.Wires g ls (fun x => S x ∨ x = μ.block) μ.blocks hi [] := by
    refine h.widen hlo hhi (fun x => .inl) (fun y hy => ?_) fun x hx hS y hy => ?_
    · have := hexits y hy
      exact .inr (by omega)
    · obtain rfl := hx.resolve_left hS
      rw [hends] at hy
      rcases List.mem_cons.mp hy with rfl | hy
      · exact ⟨hfirst.2, .inl hfirst.1⟩
      · obtain rfl := List.mem_singleton.mp hy
        exact ⟨hrest.2, .inl hrest.1⟩
  exact ⟨hwide.leaves, hwide.again, hwide.targets, hwide.loops⟩

/-! ### A loop around a draft -/

section Around

variable {ν : Mark} (hb : μ.block < μ.blocks)
  (hν : ν.cursor = ⟨μ.blocks + 1, μ.blocks + 3, false⟩)
  (hcursor : μ'.block = ν.block ∨ ν.blocks ≤ μ'.block ∧ μ'.block < μ'.blocks)
  (inside : d.Wires g (⟨μ.blocks, μ.blocks + 2⟩ :: ls) (ν.Closes μ') ν.blocks μ'.blocks [])
  (enters : g.successors μ.block = [μ.blocks])
  (branches : g.successors μ.blocks = [μ.blocks + 1, μ.blocks + 2])
  (back : g.Falls μ' μ.blocks)

include inside in
theorem successors_leaves {x : Nat} (hx : x ∈ d.leaves) :
    ν.Closes μ' x ∧ g.successors x = [μ.blocks + 2] := by
  obtain ⟨hclosed, l, hl, hsucc⟩ := inside.leaves x hx
  obtain rfl : _ = l := Option.some.inj hl
  exact ⟨hclosed, hsucc⟩

include inside in
theorem successors_again {x : Nat} (hx : x ∈ d.again) :
    ν.Closes μ' x ∧ g.successors x = [μ.blocks] := by
  obtain ⟨hclosed, l, hl, hsucc⟩ := inside.again x hx
  obtain rfl : _ = l := Option.some.inj hl
  exact ⟨hclosed, hsucc⟩

include hν in
theorem above_test {x : Nat} (hx : ν.Closes μ' x) : μ.blocks < x := by
  have hblock : ν.block = μ.blocks + 1 := congrArg Cursor.block hν
  have hblocks : ν.blocks = μ.blocks + 3 := congrArg Cursor.blocks hν
  obtain ⟨⟨-, hx⟩, -⟩ := hx
  omega

include hν hcursor back in
theorem successors_open {x : Nat} (hx : x ∈ μ'.cursor.open?) :
    μ.blocks < x ∧ g.successors x = [μ.blocks] := by
  have hblock : ν.block = μ.blocks + 1 := congrArg Cursor.block hν
  have hblocks : ν.blocks = μ.blocks + 3 := congrArg Cursor.blocks hν
  obtain ⟨hended, rfl⟩ := Mark.mem_open.mp hx
  exact ⟨by omega, (back hended).successors⟩

include hb hν hcursor inside enters branches back in
theorem loop_entered {x : Nat}
    (hx : x = μ.block ∨ x = μ.blocks ∨ ν.Closes μ' x ∨ x ∈ μ'.cursor.open?) :
    (μ.blocks + 1 ∈ g.successors x ↔ x = μ.blocks) ∧
      (μ.blocks + 2 ∈ g.successors x ↔ x = μ.blocks ∨ x ∈ d.leaves) ∧
      (μ.blocks ∈ g.successors x ↔ x = μ.block ∨ x ∈ d.again ∨ x ∈ μ'.cursor.open?) := by
  have hblocks : ν.blocks = μ.blocks + 3 := congrArg Cursor.blocks hν
  -- Blocks up to the test are not in the body.
  have hleaves : x ≤ μ.blocks → x ∉ d.leaves := fun hle hmem =>
    absurd (above_test hν (successors_leaves inside hmem).1) (Nat.not_lt.mpr hle)
  have hagain : x ≤ μ.blocks → x ∉ d.again := fun hle hmem =>
    absurd (above_test hν (successors_again inside hmem).1) (Nat.not_lt.mpr hle)
  have hopen : x ≤ μ.blocks → x ∉ μ'.cursor.open? := fun hle hmem =>
    absurd (successors_open hν hcursor back hmem).1 (Nat.not_lt.mpr hle)
  rcases hx with rfl | rfl | hclosed | hmem
  · have hle := Nat.le_of_lt hb
    simp [enters, hleaves hle, Nat.ne_of_lt hb]
  · have hle := Nat.le_refl μ.blocks
    simp [branches, hagain hle, hopen hle, Nat.ne_of_gt hb]
  · have habove := above_test hν hclosed
    have hreached : x ≠ μ.block := Nat.ne_of_gt (Nat.lt_trans hb habove)
    have htest : x ≠ μ.blocks := Nat.ne_of_gt habove
    by_cases hmem : x ∈ d.leaves
    · have hsucc := (successors_leaves inside hmem).2
      have hother : x ∉ d.again := fun hmem' => by
        simp [(successors_again inside hmem').2] at hsucc
      simp [hsucc, hmem, hreached, htest, hother, hclosed.2]
    · by_cases hmem' : x ∈ d.again
      · have hsucc := (successors_again inside hmem').2
        simp [hsucc, hmem, hmem', htest]
      · have htargets : ∀ y ∈ g.successors x, μ.blocks + 3 ≤ y := fun y hy => by
          simpa [hblocks] using (inside.targets x hclosed hmem hmem' y hy).resolve_right nofun |>.1
        have hnot : ∀ y, y < μ.blocks + 3 → y ∉ g.successors x := fun y hlt hy =>
          absurd (htargets y hy) (Nat.not_le.mpr hlt)
        simp [hnot, hmem, hmem', hreached, htest, hclosed.2]
  · obtain ⟨habove, hsucc⟩ := successors_open hν hcursor back hmem
    have htest : x ≠ μ.blocks := Nat.ne_of_gt habove
    have hother : x ∉ d.leaves := fun hmem' => (successors_leaves inside hmem').1.2 hmem
    simp [hsucc, hmem, htest, hother]

include hν hcursor inside enters branches back in
theorem loop_targets {x : Nat} (hle : ν.blocks ≤ μ'.blocks)
    (hx : x = μ.block ∨ x = μ.blocks ∨ ν.Closes μ' x ∨ x ∈ μ'.cursor.open?) {y : Nat}
    (hy : y ∈ g.successors x) :
    (μ.blocks ≤ y ∧ y < μ'.blocks) ∧ (¬ ν.Closes μ' x → y < ν.blocks) := by
  have hblocks : ν.blocks = μ.blocks + 3 := congrArg Cursor.blocks hν
  rcases hx with rfl | rfl | hclosed | hmem
  · rw [enters, List.mem_singleton] at hy
    omega
  · rw [branches, List.mem_cons, List.mem_singleton] at hy
    omega
  · refine ⟨?_, fun h => absurd hclosed h⟩
    by_cases hmem : x ∈ d.leaves
    · rw [(successors_leaves inside hmem).2, List.mem_singleton] at hy
      omega
    · by_cases hmem' : x ∈ d.again
      · rw [(successors_again inside hmem').2, List.mem_singleton] at hy
        omega
      · have := (inside.targets x hclosed hmem hmem' y hy).resolve_right List.not_mem_nil
        omega
  · rw [(successors_open hν hcursor back hmem).2, List.mem_singleton] at hy
    omega

end Around

theorem loop {ν : Mark} (hμ : μ.ended = false) (hb : μ.block < μ.blocks)
    (hν : ν.cursor = ⟨μ.blocks + 1, μ.blocks + 3, false⟩)
    (hcursor : μ'.block = ν.block ∨ ν.blocks ≤ μ'.block ∧ μ'.block < μ'.blocks)
    (hle : ν.blocks ≤ μ'.blocks)
    (inside : d.Wires g (⟨μ.blocks, μ.blocks + 2⟩ :: ls) (ν.Closes μ') ν.blocks μ'.blocks [])
    (hd : d.cursor = μ'.cursor) {v : Value} {c r : Nat}
    (enters : g.Ends μ (.br μ.blocks))
    (branches : g.Ends (((μ.grow 3).head μ.blocks).after c r)
      (.condBr v (μ.blocks + 1) (μ.blocks + 2)))
    (back : g.Falls μ' μ.blocks) :
    (Draft.loop μ.cursor d).Wires g ls (μ.Closes (μ'.head (μ.blocks + 2))) μ.blocks μ'.blocks
      [] := by
  have hblocks : ν.blocks = μ.blocks + 3 := congrArg Cursor.blocks hν
  have hcloses : ∀ x, μ.Closes (μ'.head (μ.blocks + 2)) x ↔
      x = μ.block ∨ x = μ.blocks ∨ ν.Closes μ' x ∨ x ∈ μ'.cursor.open? := fun x =>
    Mark.closes_loop hμ hb hν hcursor hle
  have hentered := fun x hx =>
    loop_entered hb hν hcursor inside enters.successors branches.successors back ((hcloses x).mp hx)
  have htargets := fun x hx y hy =>
    loop_targets hν hcursor inside enters.successors branches.successors back hle
      ((hcloses x).mp hx) (y := y) hy
  refine ⟨nofun, nofun, fun x hx _ _ y hy => .inl (htargets x hx y hy).1, fun l hl => ?_⟩
  rcases List.mem_cons.mp hl with rfl | hl
  · obtain ⟨k, hk, -, hterm⟩ := branches
    refine ⟨⟨Nat.le_refl _, rfl, rfl, ?_⟩, ⟨_, v, Function.block?_eq_some.mpr ⟨k, hk, rfl⟩, hterm⟩,
      ⟨(hcloses _).mpr (.inl rfl), (hcloses _).mpr (.inr (.inl rfl)), fun x hx => ?_,
        fun x hx => ?_, fun x hx => ?_⟩, fun x hx => (hentered x hx).1,
      fun x hx => (hentered x hx).2.1, fun x hx => ?_⟩
    · show μ.blocks + 2 < μ'.blocks
      omega
    · exact (hcloses x).mpr (.inr (.inr (.inl (inside.leaves x hx).1)))
    · exact (hcloses x).mpr (.inr (.inr (.inl (inside.again x hx).1)))
    · exact (hcloses x).mpr (.inr (.inr (.inr (hd ▸ hx))))
    · show _ ↔ _ ∨ _ ∨ x ∈ d.cursor.open?
      rw [hd]
      exact (hentered x hx).2.2
  · refine (inside.loops l hl).widen (by omega) (Nat.le_refl _)
      (fun x hx => (hcloses x).mpr (.inr (.inr (.inl hx)))) fun x hx hS y hy => ?_
    exact .inl ((htargets x hx y hy).2 hS)

end Draft.Wires

/-! ## Layouts -/

/-- A piece wires the loops of its draft, in the blocks that it closes. -/
theorem Lays.wired {m : Module} {g : Function} {p : Piece} {ls : List LoopTargets} {μ μ' : Mark}
    (h : Lays m g p ls μ μ') (hμ : μ.ended = false) (hb : μ.block < μ.blocks)
    (hls : ∀ l ∈ ls, l.onContinue < μ.blocks ∧ l.onBreak < μ.blocks) :
    (p.draft μ.cursor).Wires g ls (μ.Closes μ') μ.blocks μ'.blocks [] := by
  induction h with
  | declare kind =>
    rw [Piece.draft_declaration _ kind]
    exact .quiet rfl
  | initialise kind =>
    rw [Piece.draft_declaration _ kind]
    exact .quiet rfl
  | assign kind _ _ target =>
    rw [Piece.draft_assignment _ kind]
    exact .quiet target.cursor
  | returnNone kind ends =>
    rw [Piece.draft_return _ kind]
    exact .halt hμ rfl ends.successors
  | returnValue kind _ _ ends =>
    rw [Piece.draft_return _ kind]
    exact .halt hμ rfl ends.successors
  | @loop site test body ls μ μ₁ c v r kind block enters _ _ branches inside back ih =>
    rw [Piece.draft_loop _ kind block]
    have hbelow : ∀ l ∈ LoopTargets.mk μ.blocks (μ.blocks + 2) :: ls,
        l.onContinue < μ.blocks + 3 ∧ l.onBreak < μ.blocks + 3 := by
      intro l hl
      rcases List.mem_cons.mp hl with rfl | hl
      · exact ⟨by simp, by simp⟩
      · have := hls l hl
        omega
    exact .loop hμ hb rfl inside.cursor inside.blocks_le (ih rfl (by simp) hbelow) inside.drafted
      enters branches back
  | @ifThen site test yes ls μ μ₁ c v r kind _ block _ _ branches inside joins ih =>
    rw [Piece.draft_ifThen _ kind block]
    have hbelow : ∀ l ∈ ls, l.onContinue < μ.blocks + 2 ∧ l.onBreak < μ.blocks + 2 := fun l hl => by
      have := hls l hl
      omega
    have hyes := (ih rfl (by simp) hbelow).arm inside.blocks_le joins (by simp)
    exact (hyes.branch inside.blocks_le (by simp) (by simp) branches.successors (by simp) (by simp)
      (μ.blocks + 1)).congr fun x => (Mark.closes_ifThen hμ hb rfl inside.blocks_le).symm
  | @ifElse site test yes no ls μ μ₁ μ₂ c v r kind _ block _ _ _ branches inside joins otherwise
      joins' ih₁ ih₂ =>
    have hblocks : ((Piece.many yes.children).draft ⟨μ.blocks, μ.blocks + 3, false⟩).cursor.blocks =
        μ₁.blocks := congrArg Cursor.blocks inside.drafted
    rw [Piece.draft_ifElse _ kind block]
    show Draft.Wires (Draft.resume (Draft.append _ (no.arm.draft ⟨_, ((Piece.many
      yes.children).draft ⟨μ.blocks, μ.blocks + 3, false⟩).cursor.blocks, false⟩)) _) _ _ _ _ _ _
    rw [hblocks]
    have hle : μ.blocks + 3 ≤ μ₁.blocks := inside.blocks_le
    have hle₁ : μ₁.blocks ≤ μ₂.blocks := otherwise.blocks_le
    have hbelow : ∀ l ∈ ls, l.onContinue < μ.blocks + 3 ∧ l.onBreak < μ.blocks + 3 := fun l hl => by
      have := hls l hl
      omega
    have hyes := (ih₁ rfl (by simp) hbelow).arm hle joins (by simp)
    have hbelow₁ : ∀ l ∈ ls, l.onContinue < μ₁.blocks ∧ l.onBreak < μ₁.blocks := fun l hl => by
      have := hls l hl
      omega
    have hno := (ih₂ rfl (show μ.blocks + 2 < μ₁.blocks by omega) hbelow₁).arm hle₁ joins'
      (show μ.blocks + 1 < μ₁.blocks by omega)
    exact ((hyes.append hno hbelow (by simp) hle hle₁).branch (Nat.le_trans hle hle₁) (by simp)
      (by simp) branches.successors (by simp) (by simp) (μ.blocks + 1)).congr fun x =>
        (Mark.closes_ifElse hμ hb rfl hle rfl otherwise.blocks_le).symm
  | leave kind named ends =>
    rw [Piece.draft_leave _ kind named]
    exact .leave hμ ends.successors
  | again kind named ends =>
    rw [Piece.draft_again _ kind named]
    exact .repeats hμ ends.successors
  | call kind =>
    rw [Piece.draft_call _ kind]
    exact .quiet rfl
  | block kind _ ih =>
    rw [Piece.draft_block _ kind]
    exact ih hμ hb hls
  | nil => exact .quiet rfl
  | skip ended =>
    rw [hμ] at ended
    cases ended
  | @cons t ts ls μ μ₁ μ₂ unended first rest ih₁ ih₂ =>
    have hfirst := ih₁ hμ hb hls
    have hle := first.blocks_le
    have hcursor := first.cursor
    rw [Piece.draft_cons _ unended, first.drafted]
    cases hμ₁ : μ₁.ended with
    | true =>
      obtain rfl := rest.stopped hμ₁
      rw [Piece.draft_ended _ hμ₁]
      exact (hfirst.append (.quiet rfl) hls nofun hle (Nat.le_refl _)).congr fun x =>
        or_iff_left (Mark.not_closes rfl)
    | false =>
      have hrest := ih₂ hμ₁ (by omega) fun l hl => ?_
      · exact (hfirst.append hrest hls nofun hle rest.blocks_le).congr fun x =>
          (Mark.closes_trans hμ hμ₁ hb hcursor rest.cursor hle rest.blocks_le).symm
      · have := hls l hl
        omega

/-! ## Whole functions -/

theorem Function.Linked.mem_predecessors {m : Module} {g : Function} (h : g.Linked m) {x y : Nat} :
    x ∈ g.predecessors y ↔ y ∈ g.successors x := by
  refine Function.mem_predecessors fun b k hk => ?_
  obtain ⟨l, hl, rfl⟩ := Function.block?_eq_some.mp hk
  exact (h b l hl).1

theorem Module.Compiles.wired {m : Module} {constants : List (String × Int)} {f : Tree} {id : Nat}
    {g : Function} (h : m.Compiles constants f id g) :
    g.bodies.length = f.flow.cursor.blocks ∧
      ∀ l ∈ f.flow.loops, l.Wired g (fun _ => True) 1 g.bodies.length := by
  obtain ⟨_, _, body, hchildren, μ, hlays, hends, hblocks, -⟩ := h.body
  have hflow : f.flow = (Piece.many body.children).draft
      (Mark.entry constants g.toSignature).cursor := by
    simp only [Tree.flow, Tree.statements, hchildren]
    rfl
  rw [hflow, hlays.drafted, hblocks]
  refine ⟨rfl, fun l hl => ?_⟩
  refine ((hlays.wired rfl Nat.one_pos nofun).loops l hl).widen (Nat.le_refl _) (Nat.le_refl _)
    (fun _ _ => trivial) fun x _ hclosed y hy => ?_
  -- A block that the body does not close ends in the default return or does not exist.
  by_cases hopen : x ∈ μ.cursor.open?
  · obtain ⟨hended, rfl⟩ := Mark.mem_open.mp hopen
    rw [(hends hended).successors] at hy
    cases hy
  · have hge : g.bodies.length ≤ x := Nat.le_of_not_lt fun hlt => hclosed ⟨⟨rfl, ?_⟩, hopen⟩
    · have hnone : g.block? x = none := List.getElem?_eq_none (by rwa [Function.blocks_length])
      simp [Function.successors, hnone] at hy
    · show x = 0 ∨ 1 ≤ x ∧ x < μ.blocks
      omega

/-- Lowering a statement moves the cursor as its draft says. -/
def Tree.Drafted (c : Tree) : Prop :=
  ∀ {s u : LowerState} {id b : Nat} {e : Function} {k : Block} {x : Unit}, s.At id e b k →
    k.terminator = none → Lower.statement c s = .ok x u → ∃ e' b' k', u.At id e' b' k' ∧
      (c.draft ⟨b, e.bodies.length, false⟩).cursor = ⟨b', e'.bodies.length, k'.terminated⟩

theorem Tree.drafted (c : Tree) : c.Drafted := by
  intro s u id b e k x hat hopen hrun
  obtain ⟨e', b', k', hat', -, hlays⟩ := (Lower.statement_lays c).1 hat hopen hrun
  refine ⟨e', b', k', hat', ?_⟩
  have hdraft := (hlays u.module e' (.refl _) (.refl _)).drafted
  rwa [show (Mark.of s.scope e b k).cursor = ⟨b, e.bodies.length, false⟩ by
    simp [Mark.cursor, Mark.of, Block.terminated, hopen]] at hdraft

/-- The loops of a lowered function are wired exactly. The test of a loop
branches to its body and its end. The body is entered from the test only, and
the end from the test and the blocks that leave the loop. The test is entered
from where the loop was reached, from the blocks that start the next round, and
from where the body ends, if control gets there. -/
theorem Tree.lower_loops_wired {singlePass : Bool} {t : Tree} {m : Module}
    (h : (t.lower singlePass).result = .ok m) {constants : List (String × Int)} {f : Tree}
    (hf : (constants, f) ∈ t.declarations) :
    (∀ c : Tree, c.Drafted) ∧
    ∃ id g, m.find? f.name = some id ∧ m.function? id = some g ∧
      g.bodies.length = f.flow.cursor.blocks ∧
      ∀ l ∈ f.flow.loops,
        (∃ k v, g.block? l.test = some k ∧ k.terminator = some (.condBr v l.body l.stop)) ∧
        (∀ x, x ∈ g.predecessors l.body ↔ x = l.test) ∧
        (∀ x, x ∈ g.predecessors l.stop ↔ x = l.test ∨ x ∈ l.leaves) ∧
        (∀ x, x ∈ g.predecessors l.test ↔ x = l.reached ∨ x ∈ l.again ∨ x ∈ l.last) := by
  obtain ⟨-, ids, has, -⟩ := Tree.lower_assembles h
  obtain ⟨id, g, hcomp⟩ := has.declared hf
  obtain ⟨_, _, _, -, -, -, -, hname, -⟩ := Lower.signature_ok hcomp.signature
  have hfind := (Tree.lower_distinct h).find? (Tree.lower_numbered h) hcomp.function
  rw [show g.name = f.name from hname] at hfind
  obtain ⟨hblocks, hloops⟩ := hcomp.wired
  have hlinked := Tree.lower_linked h id g hcomp.function
  refine ⟨Tree.drafted, id, g, hfind, hcomp.function, hblocks, fun l hl => ?_⟩
  obtain ⟨-, branch, -, toBody, toStop, toTest⟩ := hloops l hl
  simp only [hlinked.mem_predecessors]
  exact ⟨branch, fun x => toBody x trivial, fun x => toStop x trivial, fun x => toTest x trivial⟩

/-- A loop in a loop, with `while (x) { if (x) { break; } }` inside and
`if (x) { continue; } else { break; }` behind it. -/
def Tree.nestedLoops : Tree :=
  bare .functionDeclaration "f"
    [bare .identifier "int" [],
      bare .parameters "" [bare .variableDeclaration "x" [bare .identifier "int" []]],
      bare .block "" [bare .whileStatement "" [bare .identifier "x" [], bare .block ""
        [bare .whileStatement "" [bare .identifier "x" [], bare .block ""
          [bare .statement "if" [bare .identifier "x" [],
            bare .block "" [bare .statement "break" []]]]],
          bare .statement "if" [bare .identifier "x" [],
            bare .block "" [bare .statement "continue" []],
            bare .block "" [bare .statement "break" []]]]]]]

theorem Tree.nestedLoops_wired :
    ∃ m, ((bare .program "" [nestedLoops]).lower false).result = .ok m ∧
      ([], nestedLoops) ∈ (bare .program "" [nestedLoops]).declarations ∧
      nestedLoops.flow.loops =
        [⟨0, 1, 2, 3, [11], [9], some 10⟩, ⟨2, 4, 5, 6, [7], [], some 8⟩] ∧
      ∃ id g, m.find? "f" = some id ∧ m.function? id = some g ∧
        (∀ x, x ∈ g.predecessors 3 ↔ x = 1 ∨ x = 11) ∧
        (∀ x, x ∈ g.predecessors 1 ↔ x = 0 ∨ x = 9 ∨ x = 10) ∧
        (∀ x, x ∈ g.predecessors 4 ↔ x = 2 ∨ x = 8) := by
  obtain ⟨m, hm⟩ : ∃ m, ((bare .program "" [nestedLoops]).lower false).result = .ok m :=
    Lower.except_of_isOk (by decide +kernel)
  have hmem : ([], nestedLoops) ∈ (bare .program "" [nestedLoops]).declarations :=
    List.mem_singleton_self _
  have hloops : nestedLoops.flow.loops =
      [⟨0, 1, 2, 3, [11], [9], some 10⟩, ⟨2, 4, 5, 6, [7], [], some 8⟩] := by decide +kernel
  obtain ⟨-, id, g, hfind, hg, -, hwired⟩ := Tree.lower_loops_wired hm hmem
  obtain ⟨-, -, hstop, htest⟩ := hwired ⟨0, 1, 2, 3, [11], [9], some 10⟩ (by simp [hloops])
  obtain ⟨-, -, -, hinner⟩ := hwired ⟨2, 4, 5, 6, [7], [], some 8⟩ (by simp [hloops])
  refine ⟨m, hm, hmem, hloops, id, g, hfind, hg, fun x => ?_, fun x => ?_, fun x => ?_⟩
  · simpa using hstop x
  · simpa [eq_comm] using htest x
  · simpa [eq_comm] using hinner x

end TreeFlow
