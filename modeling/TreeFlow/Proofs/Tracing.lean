import TreeFlow.Proofs.Operands
import TreeFlow.Proofs.Skeleton

/-!
# A parameter along a layout

The phases that the text goes through are those of the scopes that lowering
goes through. While a name is fresh it is bound to the incoming value, from the
first assignment on it is bound to the slot that is seeded with the value, and a
declaration binds it to another slot. Slots get their registers in the order in
which they are made, so that a slot made early is not the one of a later seed.
-/

set_option autoImplicit false

namespace TreeFlow

/-! ## Older and newer registers -/

namespace Value

def Older (n : Nat) (w : Value) : Prop := ∃ d ty, w = .reg d ty ∧ d < n

def Newer (n : Nat) (w : Value) : Prop := ∃ d ty, w = .reg d ty ∧ n ≤ d

theorem Older.mono {n n' : Nat} {w : Value} (h : w.Older n) (hn : n ≤ n') : w.Older n' := by
  obtain ⟨d, ty, rfl, hd⟩ := h
  exact ⟨d, ty, rfl, Nat.lt_of_lt_of_le hd hn⟩

theorem Newer.mono {n n' : Nat} {w : Value} (h : w.Newer n') (hn : n ≤ n') : w.Newer n := by
  obtain ⟨d, ty, rfl, hd⟩ := h
  exact ⟨d, ty, rfl, Nat.le_trans hn hd⟩

theorem Older.ne {n : Nat} {w w' : Value} (h : w.Older n) (h' : w'.Newer n) : w ≠ w' := by
  rintro rfl
  obtain ⟨d, ty, rfl, hd⟩ := h
  obtain ⟨d', ty', he, hd'⟩ := h'
  cases he
  omega

end Value

theorem Mark.pointer_newer (μ : Mark) (ty : Ty) : (μ.pointer ty).Newer μ.registers :=
  ⟨_, _, rfl, Nat.le_refl _⟩

theorem Mark.pointer_older (μ : Mark) (ty : Ty) : (μ.pointer ty).Older (μ.registers + 1) :=
  ⟨_, _, rfl, Nat.lt_succ_self _⟩

theorem Mark.local?_slot (μ : Mark) (name : String) (ty : Ty) (y : String) :
    (μ.slot name ty).scope.local? y =
      if y = name then some (.slot (μ.pointer ty) ty) else μ.scope.local? y :=
  Scope.local?_bind _ _ _ _

theorem Storage.slot_ne_register {p v : Value} {ty : Ty} :
    some (Storage.slot p ty) ≠ some (.register v) := by
  intro h
  cases h

/-! ## The phase of a mark -/

/-- At the mark the name `x`, under which `v` came in, is in the phase. Its
slots and its seed are those made so far. -/
structure Mark.Binds (g : Function) (x : String) (v : Value) (ph : Phase) (μ : Mark) : Prop where
  register : ∀ y, μ.scope.local? y = some (.register v) ↔ y = x ∧ ph.fresh = true
  seeded : ph.assigned = true ↔ ∃ j w, j < μ.seeds ∧ g.seeds[j]? = some ⟨v, w⟩
  once : ∀ j j' w w', j < μ.seeds → j' < μ.seeds → g.seeds[j]? = some ⟨v, w⟩ →
    g.seeds[j']? = some ⟨v, w'⟩ → j = j'
  slot : ∀ j w, j < μ.seeds → g.seeds[j]? = some ⟨v, w⟩ →
    ∀ y, (∃ ty, μ.scope.local? y = some (.slot w ty)) ↔ y = x ∧ ph.redeclared = false
  slots : ∀ y w ty, μ.scope.local? y = some (.slot w ty) → w.Older μ.registers
  seeds : ∀ j sd, j < μ.seeds → g.seeds[j]? = some sd → sd.pointer.Older μ.registers

namespace Mark.Binds

variable {g : Function} {x name : String} {v w : Value} {ph : Phase} {μ μ' : Mark}

theorem mono (h : μ.Binds g x v ph) (hs : ∀ y, μ'.scope.local? y = μ.scope.local? y)
    (hr : μ.registers ≤ μ'.registers) (hseeds : μ'.seeds = μ.seeds) : μ'.Binds g x v ph where
  register y := by rw [hs, h.register]
  seeded := by rw [hseeds, h.seeded]
  once := by rw [hseeds]; exact h.once
  slot := by
    intro j w hj hseed y
    rw [hs, h.slot j w (hseeds ▸ hj) hseed]
  slots y w ty hy := (h.slots y w ty (hs y ▸ hy)).mono hr
  seeds j sd hj hsd := (h.seeds j sd (hseeds ▸ hj) hsd).mono hr

theorem slots_slot (h : μ.Binds g x v ph) (name : String) (ty : Ty) {y : String} {u : Value}
    {ty' : Ty} (hy : (μ.slot name ty).scope.local? y = some (.slot u ty')) :
    u.Older (μ.registers + 1) := by
  rw [μ.local?_slot] at hy
  split at hy
  · cases hy
    exact μ.pointer_older ty
  · exact (h.slots y u ty' hy).mono (Nat.le_succ _)

theorem seeds_promote (h : μ.Binds g x v ph) (hseed : g.HasSeed μ w) {j : Nat} {sd : Seed}
    (hj : j < μ.seeds + 1) (hsd : g.seeds[j]? = some sd) :
    sd.pointer.Older (μ.registers + 1) := by
  by_cases hlt : j < μ.seeds
  · exact (h.seeds j sd hlt hsd).mono (Nat.le_succ _)
  · obtain rfl : j = μ.seeds := by omega
    obtain rfl := Option.some.inj (hseed.symm.trans hsd)
    exact μ.pointer_older w.ty

theorem declare (h : μ.Binds g x v ph) (name : String) (ty : Ty) :
    (μ.slot name ty).Binds g x v (if name = x then ph.redeclare else ph) := by
  have hlocal := μ.local?_slot name ty
  have hassigned : (if name = x then ph.redeclare else ph).assigned = ph.assigned := by
    split <;> rfl
  refine ⟨fun y => ?_, ?_, h.once, fun j w hj hseed y => ?_, fun _ _ _ => h.slots_slot name ty,
    fun j sd hj hsd => (h.seeds j sd hj hsd).mono (Nat.le_succ _)⟩
  · rw [hlocal]
    by_cases hy : y = name
    · rw [if_pos hy]
      by_cases hx : name = x
      · rw [if_pos hx, Phase.fresh_redeclare]
        exact ⟨fun h => absurd h Storage.slot_ne_register, fun h => absurd h.2 Bool.false_ne_true⟩
      · rw [if_neg hx]
        exact ⟨fun h => absurd h Storage.slot_ne_register, fun h => absurd (hy.symm.trans h.1) hx⟩
    · rw [if_neg hy, h.register]
      by_cases hx : name = x
      · rw [if_pos hx, Phase.fresh_redeclare]
        exact ⟨fun h => absurd (h.1.trans hx.symm) hy, fun h => absurd h.2 Bool.false_ne_true⟩
      · rw [if_neg hx]
  · rw [hassigned]
    exact h.seeded
  · have hold := h.slot j w hj hseed
    have hne : μ.pointer ty ≠ w := ((h.seeds j _ hj hseed).ne (μ.pointer_newer ty)).symm
    rw [hlocal]
    by_cases hy : y = name
    · rw [if_pos hy]
      refine ⟨fun ⟨ty', he⟩ => absurd (Storage.slot.inj (Option.some.inj he)).1 hne, ?_⟩
      rintro ⟨rfl, hr⟩
      rw [if_pos hy.symm] at hr
      cases hr
    · rw [if_neg hy, hold]
      by_cases hx : name = x
      · rw [if_pos hx]
        exact ⟨fun h => absurd (h.1.trans hx.symm) hy, fun h => by cases h.2⟩
      · rw [if_neg hx]

theorem promoted (h : μ.Binds g x v ph) (hbound : μ.scope.local? name = some (.register v))
    (hseed : g.HasSeed μ v) : name = x ∧ (μ.promote name v.ty).Binds g x v ph.assign := by
  obtain ⟨rfl, hfresh⟩ := (h.register name).mp hbound
  obtain ⟨hassigned, hredeclared⟩ := Phase.fresh_iff.mp hfresh
  have hlocal : ∀ y, (μ.promote name v.ty).scope.local? y = _ := μ.local?_slot name v.ty
  -- There is no seed of the value before this one.
  have hlast : ∀ j w, j < μ.seeds + 1 → g.seeds[j]? = some ⟨v, w⟩ → j = μ.seeds := by
    intro j w hj hw
    by_cases hlt : j < μ.seeds
    · have hseeded := h.seeded.mpr ⟨j, w, hlt, hw⟩
      rw [hassigned] at hseeded
      cases hseeded
    · omega
  refine ⟨rfl, fun y => ?_, ?_, fun j j' w w' hj hj' hw hw' => ?_, fun j w hj hw y => ?_,
    fun _ _ _ => h.slots_slot name v.ty, fun _ _ => h.seeds_promote hseed⟩
  · rw [hlocal, Phase.fresh_assign]
    split
    · exact ⟨fun h => absurd h Storage.slot_ne_register, fun h => absurd h.2 Bool.false_ne_true⟩
    · rw [h.register]
      exact ⟨fun h => absurd h.1 ‹_›, fun h => absurd h.2 Bool.false_ne_true⟩
  · refine ⟨fun _ => ⟨μ.seeds, _, Nat.lt_succ_self _, hseed⟩, fun _ => ?_⟩
    simp only [Phase.assign, hredeclared, Bool.not_false, Bool.or_true]
  · rw [hlast j w hj hw, hlast j' w' hj' hw']
  · obtain rfl := hlast j w hj hw
    obtain rfl : μ.pointer v.ty = w := by
      have hsame := Option.some.inj (hseed.symm.trans hw)
      exact congrArg Seed.pointer hsame
    have hr : ph.assign.redeclared = false := hredeclared
    rw [hlocal]
    split
    · exact ⟨fun _ => ⟨‹_›, hr⟩, fun _ => ⟨_, rfl⟩⟩
    · refine ⟨fun ⟨ty, hy⟩ => ?_, fun h => absurd h.1 ‹_›⟩
      exact absurd rfl ((h.slots y _ ty hy).ne (μ.pointer_newer v.ty))

theorem unpromoted (h : μ.Binds g x v ph) (hbound : μ.scope.local? name = some (.register w))
    (hseed : g.HasSeed μ w) (hne : w ≠ v) :
    (μ.promote name w.ty).Binds g x v (if name = x then ph.assign else ph) := by
  have hphase : (if name = x then ph.assign else ph) = ph := by
    split
    · refine Phase.assign_of_not_fresh (Bool.eq_false_iff.mpr fun hfresh => hne ?_)
      have hv := (h.register name).mpr ⟨‹_›, hfresh⟩
      exact Storage.register.inj (Option.some.inj (hbound.symm.trans hv))
    · rfl
  have hlocal : ∀ y, (μ.promote name w.ty).scope.local? y = _ := μ.local?_slot name w.ty
  have hearlier : ∀ j u, j < μ.seeds + 1 → g.seeds[j]? = some ⟨v, u⟩ → j < μ.seeds := by
    intro j u hj hu
    by_cases hj' : j = μ.seeds
    · rw [hj'] at hu
      have hsame := Option.some.inj (hseed.symm.trans hu)
      exact absurd (congrArg Seed.value hsame) hne
    · omega
  rw [hphase]
  refine ⟨fun y => ?_, ?_, fun j j' u u' hj hj' hu hu' => ?_, fun j u hj hu y => ?_,
    fun _ _ _ => h.slots_slot name w.ty, fun _ _ => h.seeds_promote hseed⟩
  · rw [hlocal, ← h.register]
    split
    · rename_i hy
      rw [hy, hbound]
      refine ⟨fun h => absurd h Storage.slot_ne_register, fun h => ?_⟩
      exact absurd (Storage.register.inj (Option.some.inj h)) hne
    · rfl
  · rw [h.seeded]
    constructor
    · rintro ⟨j, u, hj, hu⟩
      exact ⟨j, u, Nat.lt_succ_of_lt hj, hu⟩
    · rintro ⟨j, u, hj, hu⟩
      exact ⟨j, u, hearlier j u hj hu, hu⟩
  · exact h.once j j' u u' (hearlier j u hj hu) (hearlier j' u' hj' hu') hu hu'
  · have hj' := hearlier j u hj hu
    have hold := h.slot j u hj' hu y
    rw [hlocal]
    split
    · rename_i hy
      rw [hy, hbound] at hold
      have hpointer := (h.seeds j _ hj' hu).ne (μ.pointer_newer w.ty)
      refine ⟨fun ⟨ty, he⟩ => ?_, fun hx => ?_⟩
      · exact absurd (Storage.slot.inj (Option.some.inj he)).1.symm hpointer
      · obtain ⟨ty, he⟩ := hold.mpr (hy ▸ hx)
        cases he
    · exact hold

end Mark.Binds

section Layout

variable {m : Module} {g : Function} {x : String} {v : Value} {p : Piece} {ls : List LoopTargets}
  {μ μ' μ₁ : Mark} {ph : Phase}

theorem Assigns.binds {name : String} {q : Value} {ty : Ty} (h : Assigns g name μ q ty μ₁)
    (hb : μ.Binds g x v ph) : μ₁.Binds g x v (if name = x then ph.assign else ph) := by
  cases h with
  | slot bound =>
    have hphase : (if name = x then ph.assign else ph) = ph := by
      split
      · refine Phase.assign_of_not_fresh (Bool.eq_false_iff.mpr fun hfresh => ?_)
        have hv := (hb.register name).mpr ⟨‹_›, hfresh⟩
        exact Storage.slot_ne_register ((Scope.local?_of_lookup bound).symm.trans hv)
      · rfl
    rw [hphase]
    exact hb
  | @promote w bound slot seed =>
    have hbound := Scope.local?_of_lookup bound
    by_cases hw : w = v
    · subst hw
      obtain ⟨hname, hb'⟩ := hb.promoted hbound seed
      rw [if_pos hname]
      exact hb'
    · exact hb.unpromoted hbound seed hw

/-- Lowering goes through the phases of the text, and ends blocks where the
text does not go on. -/
theorem Lays.traced (h : Lays m g p ls μ μ') (hμ : μ.ended = false) (hb : μ.Binds g x v ph) :
    μ'.Binds g x v (p.trace x ph).2 ∧ μ'.ended = (p.trace x ph).1.ends := by
  induction h generalizing ph with
  | declare kind =>
    rw [Piece.trace_declare kind]
    exact ⟨hb.declare _ _, hμ⟩
  | initialise kind _ _ _ _ code =>
    rw [Piece.trace_initialise kind]
    exact ⟨(hb.declare _ _).mono (fun _ => rfl) code.registers_le rfl, hμ⟩
  | @assign site op rhs ls μ μ₁ update q ty c u r kind _ _ target code =>
    have hr := Nat.le_trans code.registers_le (update.le_next r)
    rw [Piece.phase_assign kind, Piece.ends_assign kind]
    refine ⟨?_, target.blocks.2.2.1.trans hμ⟩
    exact (target.binds hb).mono (target.rebound _ _) (Nat.le_trans (Nat.le_succ _) hr) rfl
  | returnNone kind =>
    rw [Piece.trace_returnNone kind]
    exact ⟨hb.mono (fun _ => rfl) (Nat.le_refl _) rfl, rfl⟩
  | returnValue kind code =>
    rw [Piece.trace_returnValue kind]
    exact ⟨hb.mono (fun _ => rfl) code.registers_le rfl, rfl⟩
  | loop kind blockBody _ code _ _ _ _ ih =>
    rw [Piece.trace_loop kind blockBody]
    have hb' := (ih rfl (hb.mono (fun _ => rfl) code.registers_le rfl)).1
    exact ⟨hb'.mono (fun _ => rfl) (Nat.le_refl _) rfl, rfl⟩
  | ifThen kind _ blockYes code _ _ _ _ ih =>
    rw [Piece.trace_ifThen kind blockYes]
    have hb' := (ih rfl (hb.mono (fun _ => rfl) code.registers_le rfl)).1
    exact ⟨hb'.mono (fun _ => rfl) (Nat.le_refl _) rfl, rfl⟩
  | ifElse kind _ blockYes _ code _ _ _ _ _ _ ih₁ ih₂ =>
    rw [Piece.trace_ifElse kind blockYes]
    have hb₁ := (ih₁ rfl (hb.mono (fun _ => rfl) code.registers_le rfl)).1
    have hb₂ := (ih₂ rfl (hb₁.mono (fun _ => rfl) (Nat.le_refl _) rfl)).1
    exact ⟨hb₂.mono (fun _ => rfl) (Nat.le_refl _) rfl, rfl⟩
  | leave kind named =>
    rw [Piece.trace_leave kind named]
    exact ⟨hb.mono (fun _ => rfl) (Nat.le_refl _) rfl, rfl⟩
  | again kind named =>
    rw [Piece.trace_again kind named]
    exact ⟨hb.mono (fun _ => rfl) (Nat.le_refl _) rfl, rfl⟩
  | call kind code =>
    rw [Piece.trace_call kind]
    exact ⟨hb.mono (fun _ => rfl) code.registers_le rfl, hμ⟩
  | block kind _ ih =>
    rw [Piece.trace_block kind]
    exact ih hμ hb
  | nil =>
    rw [Piece.trace_nil]
    exact ⟨hb, hμ⟩
  | skip ended =>
    rw [hμ] at ended
    cases ended
  | @cons t ts ls μ μ₁ μ₂ _ first rest ih₁ ih₂ =>
    obtain ⟨hb₁, hended⟩ := ih₁ hμ hb
    cases he : μ₁.ended with
    | true =>
      obtain rfl := rest.stopped he
      rw [Piece.trace_ended (hended.symm.trans he)]
      exact ⟨hb₁, hended⟩
    | false =>
      rw [Piece.trace_cons (hended.symm.trans he)]
      exact ih₂ he hb₁

/-! ## Seeds to come -/

def Mark.Awaited (g : Function) (μ : Mark) : Prop :=
  ∀ j sd, μ.seeds ≤ j → g.seeds[j]? = some sd → sd.pointer.Newer μ.registers

theorem Mark.Awaited.mono (h : μ'.Awaited g) (hr : μ.registers ≤ μ'.registers)
    (hseeds : μ'.seeds = μ.seeds) : μ.Awaited g :=
  fun j sd hj hsd => (h j sd (hseeds ▸ hj) hsd).mono hr

theorem Assigns.awaited {name : String} {q : Value} {ty : Ty} (h : Assigns g name μ q ty μ₁)
    (ha : μ₁.Awaited g) : μ.Awaited g := by
  cases h with
  | slot => exact ha
  | @promote w bound slot seed =>
    intro j sd hj hsd
    by_cases hlast : j = μ.seeds
    · rw [hlast] at hsd
      obtain rfl := Option.some.inj (seed.symm.trans hsd)
      exact μ.pointer_newer w.ty
    · exact (ha j sd (by simp only [Mark.promote_seeds]; omega) hsd).mono (Nat.le_succ _)

theorem Lays.awaited (h : Lays m g p ls μ μ') (ha : μ'.Awaited g) : μ.Awaited g := by
  induction h with
  | declare => exact ha.mono (Nat.le_succ _) rfl
  | initialise _ _ _ _ _ code =>
    exact ha.mono (Nat.le_trans (Nat.le_succ _) code.registers_le) rfl
  | @assign _ _ _ _ _ μ₁ update _ _ _ _ r _ _ _ target code =>
    have hr := Nat.le_trans code.registers_le (update.le_next r)
    exact target.awaited (ha.mono (Nat.le_trans (Nat.le_succ _) hr) rfl)
  | returnValue _ code => exact ha.mono code.registers_le rfl
  | loop _ _ _ code _ _ _ _ ih =>
    exact (ih (ha.mono (Nat.le_refl _) rfl)).mono code.registers_le rfl
  | ifThen _ _ _ code _ _ _ _ ih =>
    exact (ih (ha.mono (Nat.le_refl _) rfl)).mono code.registers_le rfl
  | ifElse _ _ _ _ code _ _ _ _ _ _ ih₁ ih₂ =>
    have hno := ih₂ (ha.mono (Nat.le_refl _) rfl)
    exact (ih₁ (hno.mono (Nat.le_refl _) rfl)).mono code.registers_le rfl
  | call _ code => exact ha.mono code.registers_le rfl
  | block _ _ ih => exact ih ha
  | cons _ _ _ ih₁ ih₂ => exact ih₁ (ih₂ ha)
  | returnNone => exact ha.mono (Nat.le_refl _) rfl
  | leave => exact ha.mono (Nat.le_refl _) rfl
  | again => exact ha.mono (Nat.le_refl _) rfl
  | nil => exact ha
  | skip => exact ha

end Layout

end TreeFlow
