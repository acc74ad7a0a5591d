import TreeFlow.Proofs.Loops
import TreeFlow.Proofs.Visits

/-!
# The joins of conditionals

The arms of a conditional are entered from the block where it is reached and from
nowhere else. The block behind it is entered from where its arms end, if control
gets there, and from the block where it is reached if there is no second arm.
Whatever stands in the arms, around the conditional or behind it does not change
that. The proof goes along a layout, as the one for loops does.
-/

set_option autoImplicit false

namespace TreeFlow

variable {g : Function}

/-- A conditional with the blocks where its arms start and the block behind it. It
is reached from one block, and control may be in a block after each arm. -/
structure Conditional where
  reached : Nat
  yes : Nat
  stop : Nat
  no : Option Nat
  afterYes : Option Nat
  afterNo : Option Nat
  deriving DecidableEq, Repr

/-- The conditional of an `if` statement that is reached at the cursor. -/
def Tree.conditional? (c : Tree) (κ : Cursor) : Option Conditional :=
  match c.children with
  | [_, yes] =>
    some ⟨κ.block, κ.blocks, κ.blocks + 1, none,
      (yes.draft ⟨κ.blocks, κ.blocks + 2, false⟩).cursor.open?, none⟩
  | [_, yes, no] =>
    let first := (yes.draft ⟨κ.blocks, κ.blocks + 3, false⟩).cursor
    some ⟨κ.block, κ.blocks, κ.blocks + 1, some (κ.blocks + 2), first.open?,
      (no.draft ⟨κ.blocks + 2, first.blocks, false⟩).cursor.open?⟩
  | _ => none

/-! ## Entered blocks -/

/-- Among the blocks of a set, block `b` is entered by those of `P` and by no
others. -/
structure Function.EnteredBy (g : Function) (S : Nat → Prop) (lo hi b : Nat) (P : Nat → Prop) :
    Prop where
  range : lo ≤ b ∧ b < hi
  member : ∀ x, P x → S x
  edges : ∀ x, S x → (b ∈ g.successors x ↔ P x)

theorem Function.EnteredBy.widen {S T P : Nat → Prop} {lo hi lo' hi' b : Nat}
    (h : g.EnteredBy S lo hi b P) (hlo : lo' ≤ lo) (hhi : hi ≤ hi') (hST : ∀ x, S x → T x)
    (hrest : ∀ x, T x → ¬ S x → ∀ y ∈ g.successors x, y < lo ∨ hi ≤ y) :
    g.EnteredBy T lo' hi' b P := by
  obtain ⟨hrange, hmember, hedges⟩ := h
  refine ⟨by omega, fun x hx => hST x (hmember x hx), fun x hx => ?_⟩
  by_cases hS : S x
  · exact hedges x hS
  · refine iff_of_false (fun hb => ?_) fun hP => hS (hmember x hP)
    have := hrest x hx hS b hb
    omega

/-- Among the blocks of a set, the conditional is entered by the blocks that it
names and by no others. -/
structure Conditional.Wired (j : Conditional) (g : Function) (S : Nat → Prop) (lo hi : Nat) :
    Prop where
  branch : ∃ k v, g.block? j.reached = some k ∧
    k.terminator = some (.condBr v j.yes (j.no.getD j.stop))
  toYes : g.EnteredBy S lo hi j.yes (· = j.reached)
  toNo : ∀ z ∈ j.no, g.EnteredBy S lo hi z (· = j.reached)
  toStop : g.EnteredBy S lo hi j.stop fun x =>
    x ∈ j.afterYes ∨ x ∈ j.afterNo ∨ j.no = none ∧ x = j.reached

def Function.Joins (g : Function) (S : Nat → Prop) (lo hi : Nat) (v : Tree × Cursor) : Prop :=
  v.1.kind = .statement → v.1.name = "if" →
    ∃ j, v.1.conditional? v.2 = some j ∧ j.Wired g S lo hi

theorem Function.Joins.widen {S T : Nat → Prop} {lo hi lo' hi' : Nat} {v : Tree × Cursor}
    (h : g.Joins S lo hi v) (hlo : lo' ≤ lo) (hhi : hi ≤ hi') (hST : ∀ x, S x → T x)
    (hrest : ∀ x, T x → ¬ S x → ∀ y ∈ g.successors x, y < lo ∨ hi ≤ y) :
    g.Joins T lo' hi' v := by
  intro hkind hname
  obtain ⟨j, hj, hbranch, hyes, hno, hstop⟩ := h hkind hname
  exact ⟨j, hj, hbranch, hyes.widen hlo hhi hST hrest,
    fun z hz => (hno z hz).widen hlo hhi hST hrest, hstop.widen hlo hhi hST hrest⟩

/-! ## Arms -/

/-- The blocks that an arm closes lead to its own blocks and to blocks below `n`,
and its last block leads to `e`. -/
structure Function.Arm (g : Function) (ν ν' : Mark) (n e : Nat) : Prop where
  closed : ∀ x, ν.Closes ν' x → ∀ y ∈ g.successors x, ν.blocks ≤ y ∧ y < ν'.blocks ∨ y < n
  last : ∀ x ∈ ν'.cursor.open?, g.successors x = [e]

theorem Lays.isArm {m : Module} {p : Piece} {ls : List LoopTargets} {ν ν' : Mark} {n e : Nat}
    (h : Lays m g p ls ν ν') (hν : ν.ended = false) (hb : ν.block < ν.blocks)
    (hls : ∀ l ∈ ls, l.onContinue < n ∧ l.onBreak < n) (hn : n ≤ ν.blocks) (hfalls : g.Falls ν' e) :
    g.Arm ν ν' n e := by
  have hwired := h.wired hν hb fun l hl => by
    have := hls l hl
    omega
  refine ⟨fun x hx y hy => hwired.targets_below hls nofun hx hy, fun x hx => ?_⟩
  obtain ⟨hended, rfl⟩ := Mark.mem_open.mp hx
  exact (hfalls hended).successors

namespace Function.Arm

variable {ν ν' : Mark} {n e x y : Nat}

theorem targets (h : g.Arm ν ν' n e) (hx : ν.Fills ν' x) (hy : y ∈ g.successors x) :
    ν.blocks ≤ y ∧ y < ν'.blocks ∨ y < n ∨ y = e := by
  by_cases hopen : x ∈ ν'.cursor.open?
  · rw [h.last x hopen, List.mem_singleton] at hy
    exact .inr (.inr hy)
  · exact (h.closed x ⟨hx, hopen⟩ y hy).imp_right .inl

theorem enters (h : g.Arm ν ν' n e) (hx : ν.Fills ν' x) (hn : n ≤ y) (hy : y < ν.blocks) :
    y ∈ g.successors x ↔ x ∈ ν'.cursor.open? ∧ y = e := by
  by_cases hopen : x ∈ ν'.cursor.open?
  · rw [h.last x hopen, List.mem_singleton, and_iff_right hopen]
  · refine iff_of_false (fun hmem => ?_) fun hx => hopen hx.1
    have := h.closed x ⟨hx, hopen⟩ y hmem
    omega

theorem outside (h : g.Arm ν ν' n e) (hx : ν.Fills ν' x) (hclosed : ¬ ν.Closes ν' x)
    (hy : y ∈ g.successors x) : y = e := by
  have hopen : x ∈ ν'.cursor.open? := Classical.not_not.mp fun hopen => hclosed ⟨hx, hopen⟩
  rwa [h.last x hopen, List.mem_singleton] at hy

end Function.Arm

theorem Function.Ends.block? {μ : Mark} {x : Terminator} (h : g.Ends μ x) :
    ∃ k, g.block? μ.block = some k ∧ k.terminator = some x := by
  obtain ⟨k, hk, -, hx⟩ := h
  exact ⟨_, Function.block?_eq_some.mpr ⟨k, hk, rfl⟩, hx⟩

/-! ## Constructs -/

section Constructs

variable {μ ν ν₁ μ₁ μ₂ : Mark} {v : Value} {c r : Nat} (hμ : μ.ended = false)
  (hb : μ.block < μ.blocks)

theorem Mark.fills_open {x : Nat} (hν : ν.ended = false)
    (hcursor : μ₁.block = ν.block ∨ ν.blocks ≤ μ₁.block ∧ μ₁.block < μ₁.blocks)
    (hx : x ∈ μ₁.cursor.open?) : ν.Fills μ₁ x := by
  obtain ⟨-, rfl⟩ := Mark.mem_open.mp hx
  exact ⟨hν, hcursor⟩

include hμ hb

theorem Conditional.wired_ifThen (hν : ν.cursor = ⟨μ.blocks, μ.blocks + 2, false⟩)
    (hle : ν.blocks ≤ μ₁.blocks)
    (hcursor : μ₁.block = ν.block ∨ ν.blocks ≤ μ₁.block ∧ μ₁.block < μ₁.blocks)
    (arm : g.Arm ν μ₁ μ.blocks (μ.blocks + 1))
    (branches : g.Ends (μ.after c r) (.condBr v μ.blocks (μ.blocks + 1))) :
    Conditional.Wired ⟨μ.block, μ.blocks, μ.blocks + 1, none, μ₁.cursor.open?, none⟩ g
      (μ.Closes (μ₁.head (μ.blocks + 1))) μ.blocks μ₁.blocks := by
  obtain ⟨hblock, hblocks, hended⟩ : ν.block = μ.blocks ∧ ν.blocks = μ.blocks + 2 ∧
      ν.ended = false := by simpa [Mark.cursor] using hν
  have hcloses : ∀ x, μ.Closes (μ₁.head (μ.blocks + 1)) x ↔ ν.Fills μ₁ x ∨ x = μ.block :=
    fun x => Mark.closes_ifThen hμ hb hν hle
  have hreached : g.successors μ.block = [μ.blocks, μ.blocks + 1] := branches.successors
  have hfills : ∀ x, ν.Fills μ₁ x → x ≠ μ.block := by
    rintro x ⟨-, hx⟩
    omega
  obtain ⟨k, hk, hterm⟩ := branches.block?
  refine ⟨⟨k, v, hk, hterm⟩, ⟨by simp only; omega, fun x hx => (hcloses x).mpr (.inr hx), ?_⟩,
    fun z hz => absurd hz (Option.not_mem_none z), ⟨by simp only; omega, ?_, ?_⟩⟩
  · intro x hx
    rcases (hcloses x).mp hx with hx | rfl
    · rw [arm.enters hx (Nat.le_refl _) (by omega)]
      simp [hfills x hx]
    · simp [hreached]
  · rintro x (hx | hx | ⟨-, hx⟩)
    · exact (hcloses x).mpr (.inl (Mark.fills_open hended hcursor hx))
    · cases hx
    · exact (hcloses x).mpr (.inr hx)
  · intro x hx
    rcases (hcloses x).mp hx with hx | rfl
    · rw [arm.enters hx (by simp) (by simp only; omega)]
      simp [hfills x hx]
    · simp [hreached]

theorem Conditional.wired_ifElse (hν : ν.cursor = ⟨μ.blocks, μ.blocks + 3, false⟩)
    (hle : ν.blocks ≤ μ₁.blocks)
    (hcursor : μ₁.block = ν.block ∨ ν.blocks ≤ μ₁.block ∧ μ₁.block < μ₁.blocks)
    (arm : g.Arm ν μ₁ μ.blocks (μ.blocks + 1))
    (hν₁ : ν₁.cursor = ⟨μ.blocks + 2, μ₁.blocks, false⟩) (hle₁ : ν₁.blocks ≤ μ₂.blocks)
    (hcursor₁ : μ₂.block = ν₁.block ∨ ν₁.blocks ≤ μ₂.block ∧ μ₂.block < μ₂.blocks)
    (arm₁ : g.Arm ν₁ μ₂ μ.blocks (μ.blocks + 1))
    (branches : g.Ends (μ.after c r) (.condBr v μ.blocks (μ.blocks + 2))) :
    Conditional.Wired ⟨μ.block, μ.blocks, μ.blocks + 1, some (μ.blocks + 2), μ₁.cursor.open?,
      μ₂.cursor.open?⟩ g (μ.Closes (μ₂.head (μ.blocks + 1))) μ.blocks μ₂.blocks := by
  obtain ⟨hblock, hblocks, hended⟩ : ν.block = μ.blocks ∧ ν.blocks = μ.blocks + 3 ∧
      ν.ended = false := by simpa [Mark.cursor] using hν
  obtain ⟨hblock₁, hblocks₁, hended₁⟩ : ν₁.block = μ.blocks + 2 ∧ ν₁.blocks = μ₁.blocks ∧
      ν₁.ended = false := by simpa [Mark.cursor] using hν₁
  have hcloses : ∀ x, μ.Closes (μ₂.head (μ.blocks + 1)) x ↔
      (ν.Fills μ₁ x ∨ ν₁.Fills μ₂ x) ∨ x = μ.block :=
    fun x => Mark.closes_ifElse hμ hb hν hle hν₁ hle₁
  have hreached : g.successors μ.block = [μ.blocks, μ.blocks + 2] := branches.successors
  -- No block is filled by both arms, and neither fills the block in front of them.
  have hfills : ∀ x, ν.Fills μ₁ x → x ≠ μ.block ∧ x ∉ μ₂.cursor.open? := by
    rintro x ⟨-, hx⟩
    refine ⟨by omega, fun hopen => ?_⟩
    obtain ⟨-, hx₁⟩ := Mark.fills_open hended₁ hcursor₁ hopen
    omega
  have hfills₁ : ∀ x, ν₁.Fills μ₂ x → x ≠ μ.block ∧ x ∉ μ₁.cursor.open? := by
    rintro x ⟨-, hx⟩
    refine ⟨by omega, fun hopen => ?_⟩
    obtain ⟨-, hx₁⟩ := Mark.fills_open hended hcursor hopen
    omega
  have hnot : μ.block ∉ μ₁.cursor.open? ∧ μ.block ∉ μ₂.cursor.open? :=
    ⟨fun hx => (hfills _ (Mark.fills_open hended hcursor hx)).1 rfl,
      fun hx => (hfills₁ _ (Mark.fills_open hended₁ hcursor₁ hx)).1 rfl⟩
  have hentered : ∀ b, μ.blocks ≤ b → b < μ.blocks + 3 → ∀ x,
      μ.Closes (μ₂.head (μ.blocks + 1)) x → (b ∈ g.successors x ↔
        (x ∈ μ₁.cursor.open? ∨ x ∈ μ₂.cursor.open?) ∧ b = μ.blocks + 1 ∨
          x = μ.block ∧ (b = μ.blocks ∨ b = μ.blocks + 2)) := by
    intro b hlo hhi x hx
    rcases (hcloses x).mp hx with (hx | hx) | rfl
    · rw [arm.enters hx hlo (by omega)]
      simp [hfills x hx]
    · rw [arm₁.enters hx hlo (by omega)]
      simp [hfills₁ x hx]
    · simp [hreached, hnot]
  obtain ⟨k, hk, hterm⟩ := branches.block?
  refine ⟨⟨k, v, hk, hterm⟩, ⟨by simp only; omega, fun x hx => (hcloses x).mpr (.inr hx), ?_⟩, ?_,
    ⟨by simp only; omega, ?_, ?_⟩⟩
  · intro x hx
    simp [hentered μ.blocks (Nat.le_refl _) (by omega) x hx]
  · intro z hz
    obtain rfl : μ.blocks + 2 = z := Option.some.inj hz
    refine ⟨by omega, fun x hx => (hcloses x).mpr (.inr hx), fun x hx => ?_⟩
    simp [hentered (μ.blocks + 2) (by omega) (by omega) x hx]
  · rintro x (hx | hx | ⟨hx, -⟩)
    · exact (hcloses x).mpr (.inl (.inl (Mark.fills_open hended hcursor hx)))
    · exact (hcloses x).mpr (.inl (.inr (Mark.fills_open hended₁ hcursor₁ hx)))
    · cases hx
  · intro x hx
    simp [hentered (μ.blocks + 1) (by omega) (by omega) x hx]

/-! A conditional stays wired when a construct is put around it. The blocks that
the construct adds do not lead into the range of the inner one. -/

variable {w : Tree × Cursor}

theorem Function.Joins.ifThen (h : g.Joins (ν.Closes μ₁) ν.blocks μ₁.blocks w)
    (hν : ν.cursor = ⟨μ.blocks, μ.blocks + 2, false⟩) (hle : ν.blocks ≤ μ₁.blocks)
    (arm : g.Arm ν μ₁ μ.blocks (μ.blocks + 1))
    (branches : g.Ends (μ.after c r) (.condBr v μ.blocks (μ.blocks + 1))) :
    g.Joins (μ.Closes (μ₁.head (μ.blocks + 1))) μ.blocks μ₁.blocks w := by
  have hblocks : ν.blocks = μ.blocks + 2 := congrArg Cursor.blocks hν
  have hcloses : ∀ x, μ.Closes (μ₁.head (μ.blocks + 1)) x ↔ ν.Fills μ₁ x ∨ x = μ.block :=
    fun x => Mark.closes_ifThen hμ hb hν hle
  have hreached : g.successors μ.block = [μ.blocks, μ.blocks + 1] := branches.successors
  refine h.widen (by omega) (Nat.le_refl _) (fun x hx => (hcloses x).mpr (.inl hx.1))
    fun x hx hS y hy => .inl ?_
  rcases (hcloses x).mp hx with hx | rfl
  · have := arm.outside hx hS hy
    omega
  · simp only [hreached, List.mem_cons, List.not_mem_nil, or_false] at hy
    omega

section Both

variable (hν : ν.cursor = ⟨μ.blocks, μ.blocks + 3, false⟩) (hle : ν.blocks ≤ μ₁.blocks)
  (arm : g.Arm ν μ₁ μ.blocks (μ.blocks + 1))
  (hν₁ : ν₁.cursor = ⟨μ.blocks + 2, μ₁.blocks, false⟩) (hle₁ : ν₁.blocks ≤ μ₂.blocks)
  (arm₁ : g.Arm ν₁ μ₂ μ.blocks (μ.blocks + 1))
  (branches : g.Ends (μ.after c r) (.condBr v μ.blocks (μ.blocks + 2)))

include hν hle arm hν₁ hle₁ arm₁ branches

theorem Function.Joins.ifElse_yes (h : g.Joins (ν.Closes μ₁) ν.blocks μ₁.blocks w) :
    g.Joins (μ.Closes (μ₂.head (μ.blocks + 1))) μ.blocks μ₂.blocks w := by
  have hblocks : ν.blocks = μ.blocks + 3 := congrArg Cursor.blocks hν
  have hblocks₁ : ν₁.blocks = μ₁.blocks := congrArg Cursor.blocks hν₁
  have hcloses : ∀ x, _ ↔ _ := fun x => Mark.closes_ifElse hμ hb hν hle hν₁ hle₁ (x := x)
  have hreached : g.successors μ.block = [μ.blocks, μ.blocks + 2] := branches.successors
  refine h.widen (by omega) (by omega) (fun x hx => (hcloses x).mpr (.inl (.inl hx.1)))
    fun x hx hS y hy => ?_
  rcases (hcloses x).mp hx with (hx | hx) | rfl
  · have := arm.outside hx hS hy
    omega
  · have := arm₁.targets hx hy
    omega
  · simp only [hreached, List.mem_cons, List.not_mem_nil, or_false] at hy
    omega

theorem Function.Joins.ifElse_no (h : g.Joins (ν₁.Closes μ₂) ν₁.blocks μ₂.blocks w) :
    g.Joins (μ.Closes (μ₂.head (μ.blocks + 1))) μ.blocks μ₂.blocks w := by
  have hblocks : ν.blocks = μ.blocks + 3 := congrArg Cursor.blocks hν
  have hblocks₁ : ν₁.blocks = μ₁.blocks := congrArg Cursor.blocks hν₁
  have hcloses : ∀ x, _ ↔ _ := fun x => Mark.closes_ifElse hμ hb hν hle hν₁ hle₁ (x := x)
  have hreached : g.successors μ.block = [μ.blocks, μ.blocks + 2] := branches.successors
  refine h.widen (by omega) (Nat.le_refl _) (fun x hx => (hcloses x).mpr (.inl (.inr hx.1)))
    fun x hx hS y hy => .inl ?_
  rcases (hcloses x).mp hx with (hx | hx) | rfl
  · have := arm.targets hx hy
    omega
  · have := arm₁.outside hx hS hy
    omega
  · simp only [hreached, List.mem_cons, List.not_mem_nil, or_false] at hy
    omega

end Both

end Constructs

/-! ## Layouts -/

section Forms

variable {site : Site} {test yes no : Tree} {κ κ₁ κ₂ : Cursor}

theorem Tree.conditional_ifThen (block : yes.kind = .block)
    (hyes : ((Piece.many yes.children).draft ⟨κ.blocks, κ.blocks + 2, false⟩).cursor = κ₁) :
    (Tree.node site [test, yes]).conditional? κ =
      some ⟨κ.block, κ.blocks, κ.blocks + 1, none, κ₁.open?, none⟩ := by
  rw [← hyes, Piece.draft, ← Tree.draft_of_block _ block]
  rfl

theorem Tree.conditional_ifElse (block : yes.kind = .block)
    (hyes : ((Piece.many yes.children).draft ⟨κ.blocks, κ.blocks + 3, false⟩).cursor = κ₁)
    (hno : (no.arm.draft ⟨κ.blocks + 2, κ₁.blocks, false⟩).cursor = κ₂) :
    (Tree.node site [test, yes, no]).conditional? κ =
      some ⟨κ.block, κ.blocks, κ.blocks + 1, some (κ.blocks + 2), κ₁.open?, κ₂.open?⟩ := by
  rw [← hno, ← hyes, Tree.draft_arm, Piece.draft, ← Tree.draft_of_block _ block]
  rfl

end Forms

theorem Function.not_joins {S : Nat → Prop} {lo hi : Nat} {site : Site} {ts : List Tree}
    {κ : Cursor} (h : site.kind ≠ .statement ∨ site.name ≠ "if") :
    g.Joins S lo hi (.node site ts, κ) :=
  fun hkind hname => (h.elim (· hkind) (· hname)).elim

/-- A piece wires the conditionals visited in it, in the blocks that it closes. -/
theorem Lays.joined {m : Module} {p : Piece} {ls : List LoopTargets} {μ μ' : Mark}
    (h : Lays m g p ls μ μ') (hμ : μ.ended = false) (hb : μ.block < μ.blocks)
    (hls : ∀ l ∈ ls, l.onContinue < μ.blocks ∧ l.onBreak < μ.blocks) :
    ∀ v ∈ p.visits μ.cursor, g.Joins (μ.Closes μ') μ.blocks μ'.blocks v := by
  induction h with
  | declare kind | initialise kind | assign kind | returnNone kind | returnValue kind | call kind =>
    rw [Piece.visits_leaf _ (by simp [kind])]
    exact List.forall_mem_singleton.mpr (Function.not_joins (by simp [kind]))
  | leave kind named | again kind named =>
    rw [Piece.visits_jump _ kind]
    exact List.forall_mem_singleton.mpr (Function.not_joins (by simp [named]))
  | @loop site test body ls μ μ₁ c v r kind block enters _ _ branches inside back ih =>
    have hbelow : ∀ l ∈ LoopTargets.mk μ.blocks (μ.blocks + 2) :: ls,
        l.onContinue < μ.blocks + 3 ∧ l.onBreak < μ.blocks + 3 := by
      intro l hl
      rcases List.mem_cons.mp hl with rfl | hl
      · exact ⟨by simp, by simp⟩
      · have := hls l hl
        omega
    have hle : μ.blocks + 3 ≤ μ₁.blocks := inside.blocks_le
    have hwired := inside.wired rfl (by simp) hbelow
    have hcloses : ∀ x, _ ↔ _ := fun x => Mark.closes_loop hμ hb rfl inside.cursor hle (x := x)
    rw [Piece.visits_loop _ kind block]
    refine List.forall_mem_cons.mpr ⟨Function.not_joins (by simp [kind]), fun w hw => ?_⟩
    refine (ih rfl (by simp) hbelow w hw).widen (by simp) (Nat.le_refl _)
      (fun x hx => (hcloses x).mpr (.inr (.inr (.inl hx)))) fun x hx hS y hy => .inl ?_
    exact (Draft.Wires.loop_targets rfl inside.cursor hwired enters.successors branches.successors
      back hle ((hcloses x).mp hx) hy).2 hS
  | @ifThen site test yes ls μ μ₁ c v r kind _ block _ _ branches inside joins ih =>
    have hle : μ.blocks + 2 ≤ μ₁.blocks := inside.blocks_le
    have hbelow : ∀ l ∈ ls, l.onContinue < μ.blocks + 2 ∧ l.onBreak < μ.blocks + 2 := fun l hl => by
      have := hls l hl
      omega
    have harm := inside.isArm rfl (by simp) hls (by simp) joins
    rw [Piece.visits_ifThen _ kind block, List.forall_mem_cons]
    exact ⟨fun _ _ => ⟨_, Tree.conditional_ifThen block inside.drafted,
      Conditional.wired_ifThen hμ hb rfl hle inside.cursor harm branches⟩, fun w hw =>
        (ih rfl (by simp) hbelow w hw).ifThen hμ hb rfl hle harm branches⟩
  | @ifElse site test yes no ls μ μ₁ μ₂ c v r kind _ block _ _ _ branches inside joins otherwise
      joins' ih₁ ih₂ =>
    have hle : μ.blocks + 3 ≤ μ₁.blocks := inside.blocks_le
    have hbelow : ∀ n, μ.blocks ≤ n → ∀ l ∈ ls, l.onContinue < n ∧ l.onBreak < n :=
      fun n hn l hl => by
        have := hls l hl
        omega
    have hstart : μ.blocks + 2 < μ₁.blocks := by omega
    have harm := inside.isArm rfl (by simp) hls (by simp) joins
    have harm₁ := otherwise.isArm rfl hstart hls (by simp; omega) joins'
    rw [Piece.visits_ifElse μ.cursor kind block inside.drafted, List.forall_mem_cons,
      List.forall_mem_append]
    exact ⟨fun _ _ => ⟨_, Tree.conditional_ifElse block inside.drafted otherwise.drafted,
      Conditional.wired_ifElse hμ hb rfl hle inside.cursor harm rfl otherwise.blocks_le
        otherwise.cursor harm₁ branches⟩, fun w hw =>
          Function.Joins.ifElse_yes hμ hb rfl hle harm rfl otherwise.blocks_le harm₁ branches
            (ih₁ rfl (by simp) (hbelow _ (by simp)) w hw), fun w hw =>
          Function.Joins.ifElse_no hμ hb rfl hle harm rfl otherwise.blocks_le harm₁ branches
            (ih₂ rfl hstart (hbelow _ (by simp; omega)) w hw)⟩
  | block kind _ ih =>
    rw [Piece.visits_block _ kind]
    exact List.forall_mem_cons.mpr ⟨Function.not_joins (by simp [kind]), ih hμ hb hls⟩
  | nil => nofun
  | skip ended =>
    rw [hμ] at ended
    cases ended
  | @cons t ts ls μ μ₁ μ₂ unended first rest ih₁ ih₂ =>
    have hle := first.blocks_le
    have hcursor := first.cursor
    rw [Piece.visits_cons _ unended, first.drafted]
    cases hμ₁ : μ₁.ended with
    | true =>
      obtain rfl := rest.stopped hμ₁
      rw [Piece.visits_ended _ hμ₁, List.append_nil]
      exact ih₁ hμ hb hls
    | false =>
      have hbelow : ∀ l ∈ ls, l.onContinue < μ₁.blocks ∧ l.onBreak < μ₁.blocks := fun l hl => by
        have := hls l hl
        omega
      have hle₁ := rest.blocks_le
      have hcloses : ∀ x, _ ↔ _ := fun x =>
        Mark.closes_trans hμ hμ₁ hb hcursor rest.cursor hle hle₁ (x := x)
      have hb₁ : μ₁.block < μ₁.blocks := by omega
      refine List.forall_mem_append.mpr ⟨fun w hw => ?_, fun w hw => ?_⟩
      · refine (ih₁ hμ hb hls w hw).widen (Nat.le_refl _) hle₁
          (fun x hx => (hcloses x).mpr (.inl hx)) fun x hx hS y hy => ?_
        have := (rest.wired hμ₁ hb₁ hbelow).targets_below hls nofun
          (((hcloses x).mp hx).resolve_left hS) hy
        omega
      · refine (ih₂ hμ₁ hb₁ hbelow w hw).widen hle (Nat.le_refl _)
          (fun x hx => (hcloses x).mpr (.inr hx)) fun x hx hS y hy => .inl ?_
        have := (first.wired hμ hb hls).targets_below hls nofun
          (((hcloses x).mp hx).resolve_right hS) hy
        omega

/-! ## Runs -/

def LowerState.open? (s : LowerState) : Option Nat := do
  let id ← s.function
  let f ← s.module.function? id
  let b ← s.block
  let k ← f.bodies[b]?
  if k.terminated then none else some b

theorem LowerState.At.open?_eq {s : LowerState} {id b : Nat} {f : Function} {k : Block}
    (h : s.At id f b k) : s.open? = if k.terminated then none else some b := by
  simp only [LowerState.open?, h.function, h.found, h.cursor, h.block, Option.bind_eq_bind,
    Option.bind_some]

namespace Lower

variable {s u : LowerState} {id b : Nat} {f : Function} {k : Block}

theorem LaidOut.open?_eq {p : Piece} (h : LaidOut p id f b k s u) (hopen : k.terminator = none) :
    u.open? = (p.draft ⟨b, f.bodies.length, false⟩).cursor.open? := by
  obtain ⟨f', b', k', hat, -, hlays⟩ := h
  have hdraft := (hlays u.module f' (.refl _) (.refl _)).drafted
  rw [show (Mark.of s.scope f b k).cursor = ⟨b, f.bodies.length, false⟩ by
    simp [Mark.cursor, Mark.of, Block.terminated, hopen]] at hdraft
  rw [hat.open?_eq, hdraft]
  rfl

theorem block_open? {y : Nat} {c : Tree} {x : Unit} (hin : s.In id f) (hy : Fresh f y)
    (hr : block y c s = .ok x u) :
    u.open? = (c.draft ⟨y, f.bodies.length, false⟩).cursor.open? := by
  obtain ⟨hkind, t, ht, hstmts⟩ := block_ok hr
  obtain ⟨l, hl, -, hopen⟩ := hy
  obtain ⟨hat, -⟩ := setBlock_at hin hl ht
  rw [Tree.draft_of_block _ hkind]
  exact ((statement_lays c).2 hat hstmts).open?_eq hopen

theorem elseArm_open? {z : Nat} {no : Tree} {x : Unit} (hin : s.In id f) (hz : Fresh f z)
    (hr : elseArm no z s = .ok x u) :
    u.open? = (no.draft ⟨z, f.bodies.length, false⟩).cursor.open? := by
  unfold elseArm at hr
  split at hr
  · exact block_open? hin hz hr
  · split at hr
    · obtain ⟨⟨⟩, t, ht, hr₁⟩ := bind_ok.mp hr
      obtain ⟨l, hl, -, hopen⟩ := hz
      obtain ⟨hat, -⟩ := setBlock_at hin hl ht
      exact ((statement_lays no).1 hat hopen hr₁).open?_eq hopen
    · cases hr

end Lower

/-- A run from `s` to `u` lowers the arms of a conditional, each from its first
block. Control is afterwards where the conditional says. -/
inductive Conditional.Arms (j : Conditional) (s u : LowerState) : List Tree → Prop
  | one {test yes : Tree} {t w : LowerState} (single : j.no = none ∧ j.afterNo = none)
      (before : Lower.Steps 0 s t) (first : Lower.block j.yes yes t = .ok () w)
      (left : w.open? = j.afterYes) (behind : Lower.Steps 0 w u) : Arms j s u [test, yes]
  | two {test yes no : Tree} {t w t' w' : LowerState} {z : Nat} (other : j.no = some z)
      (before : Lower.Steps 0 s t) (first : Lower.block j.yes yes t = .ok () w)
      (left : w.open? = j.afterYes) (between : Lower.Steps 0 w t')
      (second : Lower.elseArm no z t' = .ok () w') (left' : w'.open? = j.afterNo)
      (behind : Lower.Steps 0 w' u) : Arms j s u [test, yes, no]

/-- The conditional was lowered from the block where it is reached, and the
function under way has become `g`. -/
def Conditional.Traced (j : Conditional) (c : Tree) (id : Nat) (g : Function) : Prop :=
  ∃ s u f f', s.In id f ∧ s.open? = some j.reached ∧ f.bodies.length = j.yes ∧
    Lower.statement c s = .ok () u ∧ j.Arms s u c.children ∧ u.open? = some j.stop ∧ u.In id f' ∧
      f'.Extends g

theorem Tree.LoweredAt.traced {c : Tree} {κ : Cursor} {id : Nat} {j : Conditional}
    (h : c.LoweredAt κ id g) (hkind : c.kind = .statement) (hj : c.conditional? κ = some j) :
    j.Traced c id g := by
  obtain ⟨s, u, f, f', k, hat, hopen, hlength, hrun, hin, hgrows⟩ := h
  have hreached : s.open? = some κ.block := by
    rw [hat.open?_eq]
    simp [Block.terminated, hopen]
  have hstop := ((Lower.statement_lays c).1 hat hopen hrun).open?_eq hopen
  rw [hlength] at hstop
  cases Lower.statement_runs hat hrun with
  | leaf kind => exact absurd (List.mem_cons_of_mem _ (List.mem_cons.mpr (.inl hkind))) kind
  | jump => cases hj
  | block kind | loop kind => cases kind.symm.trans hkind
  | @ifThen site test yes t w f₁ kind prepared run behind =>
    obtain rfl := Option.some.inj hj
    have hleft := Lower.block_open? prepared.inside prepared.fresh run
    rw [prepared.length, hlength] at hleft
    refine ⟨s, u, f, f', hat.toIn, hreached, hlength, hrun, ?_, ?_, hin, hgrows⟩
    · rw [hlength] at run
      exact .one ⟨rfl, rfl⟩ prepared.steps run hleft behind
    · rw [hstop, Site.eq_of_kind kind]
      rfl
  | @ifElse site test yes no t w t' w' f₁ f₂ kind prepared run between inside fresh length run'
      behind =>
    obtain rfl := Option.some.inj hj
    have hyes := (Lower.block_ok run).1
    have hleft := Lower.block_open? prepared.inside prepared.fresh run
    have hleft' := Lower.elseArm_open? inside fresh run'
    rw [prepared.length, hlength] at hleft
    rw [length, hlength, Piece.draft, ← Tree.draft_of_block _ hyes] at hleft'
    refine ⟨s, u, f, f', hat.toIn, hreached, hlength, hrun, ?_, ?_, hin, hgrows⟩
    · rw [hlength] at run run'
      exact .two rfl prepared.steps run hleft between run' hleft' behind
    · rw [hstop, Site.eq_of_kind kind]
      rfl

/-! ## Whole functions -/

theorem Module.Compiles.laid {m : Module} {constants : List (String × Int)} {f : Tree} {id : Nat}
    (h : m.Compiles constants f id g) :
    ∃ μ, Lays m g (.many f.statements) [] (Mark.entry constants g.toSignature) μ ∧
      g.bodies.length = μ.blocks ∧
        ∀ x, ¬ (Mark.entry constants g.toSignature).Closes μ x → g.successors x = [] := by
  obtain ⟨_, _, body, hchildren, μ, hlays, hends, hblocks, -⟩ := h.body
  have hstatements : f.statements = body.children := by simp only [Tree.statements, hchildren]
  refine ⟨μ, hstatements ▸ hlays, hblocks, fun x hclosed => ?_⟩
  by_cases hopen : x ∈ μ.cursor.open?
  · obtain ⟨hended, rfl⟩ := Mark.mem_open.mp hopen
    exact (hends hended).successors
  · have hge : g.bodies.length ≤ x := Nat.le_of_not_lt fun hlt => hclosed ⟨⟨rfl, ?_⟩, hopen⟩
    · have hnone : g.block? x = none := List.getElem?_eq_none (by rwa [Function.blocks_length])
      simp [Function.successors, hnone]
    · show x = 0 ∨ 1 ≤ x ∧ x < μ.blocks
      omega

theorem Module.Compiles.joined {m : Module} {constants : List (String × Int)} {f : Tree} {id : Nat}
    (h : m.Compiles constants f id g) :
    ∀ v ∈ f.visits, g.Joins (fun _ => True) 1 g.bodies.length v := by
  obtain ⟨μ, hlays, hblocks, hrest⟩ := h.laid
  intro v hv
  rw [hblocks]
  refine (hlays.joined rfl Nat.one_pos nofun v hv).widen (Nat.le_refl _) (Nat.le_refl _)
    (fun _ _ => trivial) fun x _ hclosed y hy => ?_
  rw [hrest x hclosed] at hy
  cases hy

/-- The conditionals of a lowered function are joined exactly. The block where an
`if` is reached branches to its arm and to its second arm, or to the block behind
it if there is none. An arm is entered from there only. The block behind is
entered from the blocks that are open after the arms, and from where the `if` is
reached if there is no second arm. -/
theorem Tree.lower_joins_wired {singlePass : Bool} {t : Tree} {m : Module}
    (h : (t.lower singlePass).result = .ok m) {constants : List (String × Int)} {f : Tree}
    (hf : (constants, f) ∈ t.declarations) :
    ∃ id g, m.find? f.name = some id ∧ m.function? id = some g ∧
      g.bodies.length = 1 + (f.visits.flatMap fun v => v.1.makes).length ∧
      ∀ v ∈ f.visits, v.1.LoweredAt v.2 id g ∧ g.Named v.2.blocks v.1.makes ∧
        (v.1.kind = .statement → v.1.name = "if" →
          ∃ j, v.1.conditional? v.2 = some j ∧ j.Traced v.1 id g ∧
            (∃ k c, g.block? j.reached = some k ∧
              k.terminator = some (.condBr c j.yes (j.no.getD j.stop))) ∧
            (∀ x, x ∈ g.predecessors j.yes ↔ x = j.reached) ∧
            (∀ z ∈ j.no, ∀ x, x ∈ g.predecessors z ↔ x = j.reached) ∧
            (∀ x, x ∈ g.predecessors j.stop ↔
              x ∈ j.afterYes ∨ x ∈ j.afterNo ∨ j.no = none ∧ x = j.reached)) := by
  obtain ⟨-, ids, has, -⟩ := Tree.lower_assembles h
  obtain ⟨id, g, hcomp⟩ := has.declared hf
  have hlinked := Tree.lower_linked h id g hcomp.function
  have hlowered := (Tree.lower_ran h (Tree.mem_of_declarationsFrom hf) hcomp).lowered
  refine ⟨id, g, Tree.lower_find h hcomp, hcomp.function, hcomp.made, fun v hv => ?_⟩
  refine ⟨hlowered v hv, (hlowered v hv).named, fun hkind hname => ?_⟩
  obtain ⟨j, hj, branch, toYes, toNo, toStop⟩ := hcomp.joined v hv hkind hname
  simp only [hlinked.mem_predecessors]
  exact ⟨j, hj, (hlowered v hv).traced hkind hj, branch, fun x => toYes.edges x trivial,
    fun z hz x => (toNo z hz).edges x trivial, fun x => toStop.edges x trivial⟩

def Tree.ifX (arms : List Tree) : Tree := bare .statement "if" (bare .identifier "x" [] :: arms)

/-- The function `f` with
`if (x) { if (x) { return x; } } else if (x) { return x; } else { if (x) { } }`. -/
def Tree.nestedIfs : Tree :=
  let leaves := bare .block "" [bare .returnStatement "" [bare .identifier "x" []]]
  bare .functionDeclaration "f"
    [bare .identifier "int" [],
      bare .parameters "" [bare .variableDeclaration "x" [bare .identifier "int" []]],
      bare .block "" [ifX [bare .block "" [ifX [leaves]],
        ifX [leaves, bare .block "" [ifX [bare .block "" []]]]]]]

theorem Tree.nestedIfs_joined :
    ∃ m, ((bare .program "" [nestedIfs]).lower false).result = .ok m ∧
      ([], nestedIfs) ∈ (bare .program "" [nestedIfs]).declarations ∧
      ((nestedIfs.visits.filter fun v => v.1.kind = .statement ∧ v.1.name = "if").map
        fun v => v.1.conditional? v.2) =
          [some ⟨0, 1, 2, some 3, some 5, some 7⟩, some ⟨1, 4, 5, none, none, none⟩,
            some ⟨3, 6, 7, some 8, none, some 10⟩, some ⟨8, 9, 10, none, some 9, none⟩] ∧
      ∃ id g, m.find? "f" = some id ∧ m.function? id = some g ∧ g.bodies.length = 11 ∧
        (∀ x, x ∈ g.predecessors 3 ↔ x = 0) ∧ (∀ x, x ∈ g.predecessors 2 ↔ x = 5 ∨ x = 7) ∧
        (∀ x, x ∈ g.predecessors 5 ↔ x = 1) ∧ (∀ x, x ∈ g.predecessors 7 ↔ x = 10) ∧
        (∀ x, x ∈ g.predecessors 10 ↔ x = 9 ∨ x = 8) := by
  obtain ⟨m, hm⟩ : ∃ m, ((bare .program "" [nestedIfs]).lower false).result = .ok m :=
    Lower.except_of_isOk (by decide +kernel)
  have hmem : ([], nestedIfs) ∈ (bare .program "" [nestedIfs]).declarations :=
    List.mem_singleton_self _
  have hlist : ((nestedIfs.visits.filter fun v => v.1.kind = .statement ∧ v.1.name = "if").map
      fun v => v.1.conditional? v.2) =
        [some ⟨0, 1, 2, some 3, some 5, some 7⟩, some ⟨1, 4, 5, none, none, none⟩,
          some ⟨3, 6, 7, some 8, none, some 10⟩, some ⟨8, 9, 10, none, some 9, none⟩] := by
    decide +kernel
  obtain ⟨id, g, hfind, hg, hlength, hjoined⟩ := Tree.lower_joins_wired hm hmem
  have hwired : ∀ j, some j ∈ ((nestedIfs.visits.filter fun v => v.1.kind = .statement ∧
      v.1.name = "if").map fun v => v.1.conditional? v.2) →
        (∀ z ∈ j.no, ∀ x, x ∈ g.predecessors z ↔ x = j.reached) ∧
          ∀ x, x ∈ g.predecessors j.stop ↔
            x ∈ j.afterYes ∨ x ∈ j.afterNo ∨ j.no = none ∧ x = j.reached := by
    intro j hj
    obtain ⟨v, hv, hvj⟩ := List.mem_map.mp hj
    obtain ⟨hv, hif⟩ := List.mem_filter.mp hv
    obtain ⟨hkind, hname⟩ := of_decide_eq_true hif
    obtain ⟨j', hj', -, -, -, hno, hstop⟩ := (hjoined v hv).2.2 hkind hname
    obtain rfl : j' = j := Option.some.inj (hj'.symm.trans hvj)
    exact ⟨hno, hstop⟩
  rw [hlist] at hwired
  refine ⟨m, hm, hmem, hlist, id, g, hfind, hg, hlength.trans (by decide +kernel), ?_, fun x => ?_,
    fun x => ?_, fun x => ?_, fun x => ?_⟩
  · exact (hwired ⟨0, 1, 2, some 3, some 5, some 7⟩ (by simp)).1 3 rfl
  · simpa [eq_comm] using (hwired ⟨0, 1, 2, some 3, some 5, some 7⟩ (by simp)).2 x
  · simpa [eq_comm] using (hwired ⟨1, 4, 5, none, none, none⟩ (by simp)).2 x
  · simpa [eq_comm] using (hwired ⟨3, 6, 7, some 8, none, some 10⟩ (by simp)).2 x
  · simpa [eq_comm] using (hwired ⟨8, 9, 10, none, some 9, none⟩ (by simp)).2 x

end TreeFlow
