import TreeFlow.Proofs.Staleness
import TreeFlow.Proofs.Visits
import TreeFlow.Proofs.History

/-!
# Promoted parameters

The prologue of a function holds a slot for each variable that is declared, and
for each parameter that is promoted a slot and a store. A parameter is promoted
once: whatever happens to its name afterwards, the name does not go back to the
register. Each promotion makes a slot of its own, so the slots count the
declarations and the promotions together.
-/

set_option autoImplicit false

namespace TreeFlow

/-! ## Promotions -/

/-- A parameter is put into a slot on entry. -/
structure Promotion where
  index : Nat
  slot : Slot

def Promotion.seed (p : Promotion) : Seed := ⟨.param p.index p.slot.ty, p.slot.pointer⟩

/-- The entry block of a function starts with its slots and goes on with the
promotions, each of another parameter and into another slot. -/
structure Function.Promotes (g : Function) (entry : Block) (ps : List Promotion) : Prop where
  slots : entry.instrs.take g.slotCount = g.slots.map Slot.instr
  stores : (entry.instrs.take g.prologueLength).drop g.slotCount =
    ps.map fun p => .store (.param p.index p.slot.ty) p.slot.pointer
  parameters : (ps.map Promotion.index).Nodup
  targets : (ps.map fun p => p.slot.register).Nodup
  fits : ∀ p ∈ ps, p.slot ∈ g.slots ∧ ∃ q, g.params[p.index]? = some q ∧ q.ty = p.slot.ty

/-! ## What comes up between two marks -/

/-- The number of variables that are declared by the statements visited in a
piece. -/
def Piece.variableCount (p : Piece) (κ : Cursor) : Nat :=
  (p.visits κ).countP fun v => v.1.kind = .variableDeclaration

/-- Between two marks there are `n` declarations. Each other slot is seeded, and
the slots that are seeded come in order. -/
structure Function.Tallies (g : Function) (n : Nat) (μ μ' : Mark) : Prop where
  registers : μ.registers ≤ μ'.registers
  seeds : μ.seeds ≤ μ'.seeds
  slots : μ'.slots + μ.seeds = μ.slots + n + μ'.seeds
  within : ∀ j s, μ.seeds ≤ j → j < μ'.seeds → g.seeds[j]? = some s →
    s.pointer.Newer μ.registers ∧ s.pointer.Older μ'.registers
  order : ∀ i j s s', μ.seeds ≤ i → i < j → j < μ'.seeds → g.seeds[i]? = some s →
    g.seeds[j]? = some s' → ∃ r, s.pointer.Older r ∧ s'.pointer.Newer r

namespace Function.Tallies

variable {g : Function} {n n' : Nat} {μ μ₁ μ₂ μ' : Mark}

theorem quiet (hr : μ.registers ≤ μ'.registers) (hseeds : μ'.seeds = μ.seeds)
    (hslots : μ'.slots = μ.slots) : g.Tallies 0 μ μ' where
  registers := hr
  seeds := Nat.le_of_eq hseeds.symm
  slots := by rw [hseeds, hslots]; rfl
  within _ _ hle hlt := absurd (hseeds ▸ hlt) (Nat.not_lt.mpr hle)
  order _ _ _ _ hle hij hlt := absurd (Nat.lt_trans hij (hseeds ▸ hlt)) (Nat.not_lt.mpr hle)

theorem mono (h : g.Tallies n μ₁ μ₂) (hr : μ.registers ≤ μ₁.registers)
    (hr' : μ₂.registers ≤ μ'.registers) (hseeds : μ.seeds = μ₁.seeds) (hslots : μ.slots = μ₁.slots)
    (hseeds' : μ'.seeds = μ₂.seeds) (hslots' : μ'.slots = μ₂.slots) : g.Tallies n μ μ' where
  registers := Nat.le_trans hr (Nat.le_trans h.registers hr')
  seeds := by rw [hseeds, hseeds']; exact h.seeds
  slots := by rw [hseeds, hslots, hseeds', hslots']; exact h.slots
  within j s hle hlt hs := by
    rw [hseeds] at hle
    rw [hseeds'] at hlt
    exact ⟨(h.within j s hle hlt hs).1.mono hr, (h.within j s hle hlt hs).2.mono hr'⟩
  order := by rw [hseeds, hseeds']; exact h.order

theorem trans (h : g.Tallies n μ μ₁) (h' : g.Tallies n' μ₁ μ') : g.Tallies (n + n') μ μ' where
  registers := Nat.le_trans h.registers h'.registers
  seeds := Nat.le_trans h.seeds h'.seeds
  slots := by
    have h₁ := h.slots
    have h₂ := h'.slots
    omega
  within j s hle hlt hs := by
    by_cases hj : j < μ₁.seeds
    · exact ⟨(h.within j s hle hj hs).1, (h.within j s hle hj hs).2.mono h'.registers⟩
    · have hnot := Nat.not_lt.mp hj
      exact ⟨(h'.within j s hnot hlt hs).1.mono h.registers, (h'.within j s hnot hlt hs).2⟩
  order i j s s' hle hij hlt hs hs' := by
    by_cases hj : j < μ₁.seeds
    · exact h.order i j s s' hle hij hj hs hs'
    · have hnot := Nat.not_lt.mp hj
      by_cases hi : i < μ₁.seeds
      · exact ⟨μ₁.registers, (h.within i s hle hi hs).2, (h'.within j s' hnot hlt hs').1⟩
      · exact h'.order i j s s' (Nat.not_lt.mp hi) hij hlt hs hs'

theorem slot (g : Function) (μ : Mark) (name : String) (ty : Ty) :
    g.Tallies 1 μ (μ.slot name ty) where
  registers := Nat.le_succ _
  seeds := Nat.le_refl _
  slots := rfl
  within _ _ hle hlt := absurd hlt (Nat.not_lt.mpr hle)
  order _ _ _ _ hle hij hlt := absurd (Nat.lt_trans hij hlt) (Nat.not_lt.mpr hle)

theorem assigns {name : String} {p : Value} {ty : Ty} (h : Assigns g name μ p ty μ₁) :
    g.Tallies 0 μ μ₁ := by
  cases h with
  | slot => exact quiet (Nat.le_refl _) rfl rfl
  | promote _ _ seed =>
    refine ⟨Nat.le_succ _, Nat.le_succ _, ?_, fun j s hle hlt hs => ?_,
      fun i j _ _ hle hij hlt => ?_⟩
    · exact Nat.add_right_comm μ.slots 1 μ.seeds
    · obtain rfl := Nat.le_antisymm hle (Nat.le_of_lt_succ hlt)
      obtain rfl := Option.some.inj (seed.symm.trans hs)
      exact ⟨μ.pointer_newer _, μ.pointer_older _⟩
    · exact absurd (Nat.lt_of_le_of_lt hle hij) (Nat.not_lt.mpr (Nat.le_of_lt_succ hlt))

end Function.Tallies

section Counting

variable {p : Piece} {site : Site} {ts : List Tree} {κ : Cursor}

theorem Piece.variableCount_declare (kind : site.kind = .variableDeclaration) :
    (one (.node site ts)).variableCount κ = 1 := by
  rw [variableCount, visits_leaf κ (by simp [kind])]
  exact List.countP_singleton.trans (if_pos (decide_eq_true kind))

theorem Piece.variableCount_inside {inside : List (Tree × Cursor)}
    (hvisits : p.visits κ = (.node site ts, κ) :: inside)
    (kind : site.kind ≠ .variableDeclaration) :
    p.variableCount κ = inside.countP fun v => v.1.kind = .variableDeclaration := by
  rw [variableCount, hvisits]
  exact List.countP_cons_of_neg fun h => kind (of_decide_eq_true h)

theorem Piece.variableCount_leaf
    (h : site.kind ∉ [.whileStatement, .statement, .block, .variableDeclaration]) :
    (one (.node site ts)).variableCount κ = 0 :=
  variableCount_inside (visits_leaf κ (by simp_all)) (by simp_all)

theorem Piece.variableCount_jump (kind : site.kind = .statement) :
    (one (.node site [])).variableCount κ = 0 :=
  variableCount_inside (visits_jump κ kind) (by simp [kind])

end Counting

/-- The slots of a piece are those of the declarations visited in it and those
that are seeded. -/
theorem Lays.tallied {m : Module} {g : Function} {p : Piece} {ls : List LoopTargets}
    {μ μ' : Mark} (h : Lays m g p ls μ μ') : g.Tallies (p.variableCount μ.cursor) μ μ' := by
  induction h with
  | declare kind =>
    rw [Piece.variableCount_declare kind]
    exact .slot g _ _ _
  | @initialise site _ _ _ μ ty _ _ _ kind _ _ _ _ code =>
    rw [Piece.variableCount_declare kind]
    have hslot := Function.Tallies.slot g μ site.name ty
    exact hslot.mono (Nat.le_refl _) code.registers_le rfl rfl rfl rfl
  | @assign _ _ _ _ _ _ update _ _ _ _ r kind _ _ target code =>
    rw [Piece.variableCount_leaf (by simp [kind])]
    have hle := Nat.le_trans (Nat.le_succ _) (Nat.le_trans code.registers_le (update.le_next r))
    exact (Function.Tallies.assigns target).mono (Nat.le_refl _) hle rfl rfl rfl rfl
  | returnNone kind =>
    rw [Piece.variableCount_leaf (by simp [kind])]
    exact .quiet (Nat.le_refl _) rfl rfl
  | returnValue kind code =>
    rw [Piece.variableCount_leaf (by simp [kind])]
    exact .quiet code.registers_le rfl rfl
  | call kind code =>
    rw [Piece.variableCount_leaf (by simp [kind])]
    exact .quiet code.registers_le rfl rfl
  | leave kind =>
    rw [Piece.variableCount_jump kind]
    exact .quiet (Nat.le_refl _) rfl rfl
  | again kind =>
    rw [Piece.variableCount_jump kind]
    exact .quiet (Nat.le_refl _) rfl rfl
  | loop kind block _ code _ _ _ _ ih =>
    rw [Piece.variableCount_inside (Piece.visits_loop _ kind block) (by simp [kind])]
    exact ih.mono code.registers_le (Nat.le_refl _) rfl rfl rfl rfl
  | ifThen kind _ block code _ _ _ _ ih =>
    rw [Piece.variableCount_inside (Piece.visits_ifThen _ kind block) (by simp [kind])]
    exact ih.mono code.registers_le (Nat.le_refl _) rfl rfl rfl rfl
  | @ifElse _ _ _ _ _ μ _ _ _ _ _ kind _ block _ code _ _ inside _ _ _ ih₁ ih₂ =>
    rw [Piece.variableCount_inside (Piece.visits_ifElse μ.cursor kind block inside.drafted)
      (by simp [kind]), List.countP_append]
    have hyes := ih₁.mono code.registers_le (Nat.le_refl _) rfl rfl rfl rfl
    exact hyes.trans (ih₂.mono (Nat.le_refl _) (Nat.le_refl _) rfl rfl rfl rfl)
  | block kind _ ih =>
    rw [Piece.variableCount_inside (Piece.visits_block _ kind) (by simp [kind])]
    exact ih
  | nil => exact .quiet (Nat.le_refl _) rfl rfl
  | skip ended =>
    rw [Piece.variableCount, Piece.visits_ended _ ended]
    exact .quiet (Nat.le_refl _) rfl rfl
  | cons unended first _ ih₁ ih₂ =>
    rw [Piece.variableCount, Piece.visits_cons _ unended, first.drafted, List.countP_append]
    exact ih₁.trans ih₂

/-! ## Compiled functions -/

section Compiled

variable {m : Module} {constants : List (String × Int)} {t : Tree} {id : Nat} {g : Function}

theorem Module.Compiles.tallied (h : m.Compiles constants t id g) :
    g.slotCount = (t.visits.countP fun v => v.1.kind = .variableDeclaration) + g.seeds.length ∧
      ∀ (i j : Nat) (s s' : Seed), i < j → g.seeds[i]? = some s → g.seeds[j]? = some s' →
        ∃ r, s.pointer.Older r ∧ s'.pointer.Newer r := by
  obtain ⟨_, _, body, hchildren, μ, hlays, -, -, -, hslots, hseeds⟩ := h.body
  have htally := hlays.tallied
  refine ⟨?_, fun i j s s' hij hs hs' => ?_⟩
  · have hcount : μ.slots = 0 + (Piece.many body.children).variableCount ⟨0, 1, false⟩ + μ.seeds :=
      htally.slots
    simp only [Tree.visits, Tree.statements, hchildren]
    rw [Function.slotCount, hslots, hseeds, hcount, Nat.zero_add]
    rfl
  · have hlt : j < μ.seeds := hseeds ▸ (List.getElem?_eq_some_iff.mp hs').1
    exact htally.order i j s s' (Nat.zero_le i) hij hlt hs hs'

theorem Function.exists_promotions (h : ∀ s ∈ g.seeds, g.Seeds s) :
    ∃ ps : List Promotion, g.seeds = ps.map Promotion.seed ∧
      ∀ p ∈ ps, p.slot ∈ g.slots ∧ ∃ q, g.params[p.index]? = some q ∧ q.ty = p.slot.ty := by
  generalize g.seeds = seeds at h
  induction seeds with
  | nil => exact ⟨[], rfl, nofun⟩
  | cons s seeds ih =>
    obtain ⟨ps, rfl, hps⟩ := ih fun s hs => h s (List.mem_cons_of_mem _ hs)
    obtain ⟨⟨i, q, hq, hv⟩, slot, hslot, hp, hty⟩ := h s List.mem_cons_self
    have hqty : q.ty = slot.ty := by rw [hty, hv]; rfl
    refine ⟨⟨i, slot⟩ :: ps, ?_, List.forall_mem_cons.mpr ⟨⟨hslot, q, hq, hqty⟩, hps⟩⟩
    rw [List.map_cons, Promotion.seed, ← hqty, ← hv, ← hp]

theorem Module.Compiles.promotes (h : m.Compiles constants t id g)
    (hseeds : ∀ s ∈ g.seeds, g.Seeds s) {k : Block} (hk : g.block? 0 = some k) :
    ∃ ps, g.Promotes k ps ∧ g.seeds.length = ps.length := by
  obtain ⟨ps, hps, hfits⟩ := Function.exists_promotions hseeds
  have hget : ∀ {j : Nat} {p : Promotion}, ps[j]? = some p → g.seeds[j]? = some p.seed := by
    intro j p hp
    rw [hps, List.getElem?_map, hp]
    rfl
  obtain ⟨hslots, hstores, -⟩ := Function.entry_parts hk
  refine ⟨ps, ⟨hslots, ?_, ?_, ?_, hfits⟩, by rw [hps, List.length_map]⟩
  · rw [hstores, hps, List.map_map]
    rfl
  · -- The parameter at an index has one type, so that a value stands for the index.
    rw [List.Nodup, List.pairwise_map, List.pairwise_iff_getElem]
    intro i j hi hj hij he
    obtain ⟨-, q, hq, hty⟩ := hfits _ (List.getElem_mem hi)
    obtain ⟨-, q', hq', hty'⟩ := hfits _ (List.getElem_mem hj)
    obtain rfl : q = q' := Option.some.inj (hq.symm.trans (he ▸ hq'))
    have hv : ps[j].seed.value = ps[i].seed.value := by
      rw [Promotion.seed, Promotion.seed, ← he, ← hty, ← hty']
    have hsame := h.seed_once (hget (List.getElem?_eq_getElem hi))
      (hget (List.getElem?_eq_getElem hj)) hv
    exact Nat.ne_of_gt hij hsame
  · rw [List.Nodup, List.pairwise_map, List.pairwise_iff_getElem]
    intro i j hi hj hij he
    obtain ⟨r, ⟨d, ty, hd, hlt⟩, ⟨d', ty', hd', hle⟩⟩ := h.tallied.2 i j _ _ hij
      (hget (List.getElem?_eq_getElem hi)) (hget (List.getElem?_eq_getElem hj))
    cases hd
    cases hd'
    omega

end Compiled

/-- In a lowered function each parameter is promoted at most once. The entry block
starts with the slots, and behind them are only stores of parameters, no two of the
same one or to the same slot, each to a slot of the parameter's type. There are as
many slots as declarations of variables were lowered in the body and parameters
promoted. The one function that need not come from a declaration has no blocks. -/
theorem Tree.lower_promotes_once {singlePass : Bool} {t : Tree} {m : Module} {id : Nat}
    {g : Function} (h : (t.lower singlePass).result = .ok m) (hg : m.function? id = some g) :
    g = .declare id Intrinsic.signature ∨
      ∃ d ∈ t.declarations, m.find? d.2.name = some id ∧
        ∃ k ps, g.block? 0 = some k ∧ g.Promotes k ps ∧
          (∀ v ∈ d.2.visits, v.1.LoweredAt v.2 id g) ∧
          g.slotCount =
            (d.2.visits.countP fun v => v.1.kind = .variableDeclaration) + ps.length := by
  rcases Tree.lower_compiles h hg with ⟨constants, f, hf, hcomp⟩ | rfl
  · have hpos : 0 < g.blocks.length := by
      rw [Function.blocks_length, hcomp.made]
      omega
    have hk : g.block? 0 = some g.blocks[0] := List.getElem?_eq_getElem hpos
    obtain ⟨ps, hpromotes, hlength⟩ := hcomp.promotes (Tree.lower_fits h hg).2.2 hk
    refine .inr ⟨(constants, f), hf, Tree.lower_find h hcomp, _, ps, hk, hpromotes, ?_, ?_⟩
    · exact (Tree.lower_ran h (Tree.mem_of_declarationsFrom hf) hcomp).lowered
    · rw [← hlength]
      exact hcomp.tallied.1
  · exact .inl rfl

/-- The function `int f(int a, int a, int b)` with
`if (b) { a = b; } while (b) { b += a; int a = b; a = b; } return a; int z;`. -/
def Tree.reassigned : Tree :=
  let int := bare .identifier "int" []
  let use (x : String) := bare .identifier x []
  let assign (x op y : String) := bare .assignment x [use op, use y]
  bare .functionDeclaration "f"
    [int,
      bare .parameters "" (["a", "a", "b"].map fun x => bare .variableDeclaration x [int]),
      bare .block ""
        [bare .statement "if" [use "b", bare .block "" [assign "a" "=" "b"]],
          bare .whileStatement "" [use "b", bare .block ""
            [assign "b" "+=" "a", bare .variableDeclaration "a" [int, use "b"],
              assign "a" "=" "b"]],
          bare .returnStatement "" [use "a"], bare .variableDeclaration "z" [int]]]

/-- The second of two parameters with the same name is promoted, and the slot of
the variable that takes over the name is not seeded. -/
theorem Tree.reassigned_promotes :
    ∃ m g, ((bare .program "" [reassigned]).lower true).result = .ok m ∧
      m.function? 0 = some g ∧ g.slotCount = 3 ∧
      g.seeds = [⟨.param 1 .i32, .reg 1 (.ptr .i32)⟩, ⟨.param 2 .i32, .reg 4 (.ptr .i32)⟩] ∧
      (reassigned.visits.countP fun v => v.1.kind = .variableDeclaration) = 1 ∧
      ∃ k ps, g.block? 0 = some k ∧ g.Promotes k ps ∧ ps.length = 2 := by
  have hrun : (((bare .program "" [reassigned]).lower true).result.toOption.bind fun m =>
      (m.function? 0).map fun g => (g.slotCount, g.seeds)) = some
        (3, [⟨.param 1 .i32, .reg 1 (.ptr .i32)⟩, ⟨.param 2 .i32, .reg 4 (.ptr .i32)⟩]) := by
    decide +kernel
  have hcount : (reassigned.visits.countP fun v => v.1.kind = .variableDeclaration) = 1 := by
    decide +kernel
  obtain ⟨m, hm⟩ : ∃ m, ((bare .program "" [reassigned]).lower true).result = .ok m :=
    Lower.except_of_isOk (by decide +kernel)
  rw [hm] at hrun
  obtain ⟨g, hg, he⟩ := Option.map_eq_some_iff.mp hrun
  obtain ⟨hslots, hseeds⟩ := Prod.mk.inj he
  refine ⟨m, g, hm, hg, hslots, hseeds, hcount, ?_⟩
  rcases lower_promotes_once hm hg with rfl | ⟨d, hd, -, k, ps, hk, hpromotes, -, hlength⟩
  · cases hslots
  · obtain rfl : d = ([], reassigned) := List.mem_singleton.mp hd
    rw [hslots, hcount] at hlength
    exact ⟨k, ps, hk, hpromotes, by omega⟩

end TreeFlow
