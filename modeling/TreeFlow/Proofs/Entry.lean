import TreeFlow.Proofs.Control

/-!
# The start of a function

A function starts with its prologue: every slot is made, then the slots of
parameters that are ever assigned receive the arguments. After that each slot
has what its variable starts with, and a parameter without a slot is still
the argument.
-/

set_option autoImplicit false

namespace TreeFlow

/-! ## The prologue -/

section Prologue

variable {I : Interpretation} {target : CallRel Nat} {args : List Datum} {fr fr' : Frame}
  {t : Trace}

theorem slots_run (I : Interpretation) (target : CallRel Nat) (args : List Datum)
    (slots : List Slot) (fr : Frame) :
    ∃ fr', CodeRuns I target args (slots.map Slot.instr) fr [] fr' := by
  induction slots generalizing fr with
  | nil => exact ⟨fr, rfl, rfl⟩
  | cons s slots ih =>
    obtain ⟨fr', hrun⟩ :=
      ih ((fr.set s.register (.cell s.register)).write s.register (.int I.blank))
    exact ⟨fr', [], _, [], ⟨rfl, rfl⟩, hrun, rfl⟩

def Frame.Blank (fr : Frame) (I : Interpretation) (d : Nat) : Prop :=
  fr.registers d = some (.cell d) ∧ fr.memory d = some (.int I.blank)

theorem CodeRuns.of_slots {slots : List Slot}
    (h : CodeRuns I target args (slots.map Slot.instr) fr t fr') :
    t = [] ∧ ∀ d, fr.Blank I d ∨ (∃ s ∈ slots, s.register = d) → fr'.Blank I d := by
  induction slots generalizing fr t with
  | nil =>
    obtain ⟨rfl, rfl⟩ := h
    exact ⟨rfl, fun d hd => hd.resolve_right (by simp)⟩
  | cons s slots ih =>
    obtain ⟨t₁, fr₁, t₂, ⟨rfl, rfl⟩, hrest, rfl⟩ := h
    obtain ⟨rfl, hblank⟩ := ih hrest
    refine ⟨rfl, fun d hd => hblank d ?_⟩
    by_cases hs : s.register = d
    · exact .inl ⟨by simp [hs], by simp [hs]⟩
    · rcases hd with ⟨hreg, hmem⟩ | ⟨s', hs', rfl⟩
      · exact .inl ⟨by simp [hreg, Ne.symm hs], by simp [hmem, Ne.symm hs]⟩
      · rcases List.mem_cons.mp hs' with rfl | hs'
        · exact absurd rfl hs
        · exact .inr ⟨s', hs', rfl⟩

def Seed.Starts (args : List Datum) (Γ : Scope) (σ : Locals) (sd : Seed) : Prop :=
  ∃ x i ty, Γ.local? x = some (.slot sd.pointer ty) ∧ sd.value = .param i .i32 ∧
    args[i]? = some (.int (σ x))

variable {m : Module} {g : Function} {Γ : Scope} {source : CallRel String} {σ : Locals}

def Addressed (Γ : Scope) (fr : Frame) : Prop :=
  ∀ x p ty, Γ.local? x = some (.slot p ty) →
    ∃ c, p = .reg c (.ptr ty) ∧ fr.registers c = some (.cell c)

theorem Addressed.write (h : Addressed Γ fr) (c : Nat) (x : Datum) : Addressed Γ (fr.write c x) := h

theorem seeds_run (I : Interpretation) (target : CallRel Nat) {seeds : List Seed}
    (hsd : ∀ sd ∈ seeds, sd.Starts args Γ σ)
    (hfr : Addressed Γ fr) : ∃ fr', CodeRuns I target args (seeds.map Seed.instr) fr [] fr' := by
  induction seeds generalizing fr with
  | nil => exact ⟨fr, rfl, rfl⟩
  | cons sd seeds ih =>
    obtain ⟨x, i, ty, hx, hv, hi⟩ := hsd sd (by simp)
    obtain ⟨c, hc, hreg⟩ := hfr x _ ty hx
    obtain ⟨fr', hrun⟩ := ih (fun sd hsd' => hsd sd (by simp [hsd'])) (hfr.write c (.int (σ x)))
    refine ⟨fr', [], _, [], ⟨rfl, c, _, ?_, ?_, rfl⟩, hrun, rfl⟩
    · rw [hc]
      exact hreg
    · rw [hv]
      exact hi

theorem CodeRuns.of_seeds (G : Ground m g Γ source target) {seeds : List Seed}
    (hsd : ∀ sd ∈ seeds, sd.Starts args Γ σ) (hfr : Addressed Γ fr)
    (h : CodeRuns I target args (seeds.map Seed.instr) fr t fr') :
    t = [] ∧ fr'.registers = fr.registers ∧ ∀ x c ty,
      Γ.local? x = some (.slot (.reg c (.ptr ty)) ty) →
        fr.memory c = some (.int (σ x)) ∨ (∃ sd ∈ seeds, sd.pointer = .reg c (.ptr ty)) →
          fr'.memory c = some (.int (σ x)) := by
  induction seeds generalizing fr t with
  | nil =>
    obtain ⟨rfl, rfl⟩ := h
    exact ⟨rfl, rfl, fun x c ty _ hc => hc.resolve_right (by simp)⟩
  | cons sd seeds ih =>
    obtain ⟨y, i, ty', hy, hv, hi⟩ := hsd sd (by simp)
    obtain ⟨e, he, hreg⟩ := hfr y _ ty' hy
    obtain ⟨t₁, fr₁, t₂, ⟨rfl, e', z, he', hz, rfl⟩, hrest, rfl⟩ := h
    rw [he] at he'
    obtain rfl : e = e' := by simpa [Value.read, hreg] using he'
    rw [hv] at hz
    obtain rfl : .int (σ y) = z := by simpa [Value.read, hi] using hz
    obtain ⟨rfl, hregs, hmem⟩ := ih (fun sd hsd' => hsd sd (by simp [hsd'])) (hfr.write e _) hrest
    refine ⟨rfl, hregs, fun x c ty hx hc => hmem x c ty hx ?_⟩
    by_cases hce : c = e
    · -- Only the seed of the variable itself writes to its slot.
      subst hce
      obtain rfl : ty = ty' := (G.allInt x _ hx).trans (G.allInt y _ hy).symm
      obtain rfl := G.distinct x y _ _ _ hx (he ▸ hy)
      exact .inl (by simp)
    · rcases hc with hc | ⟨sd', hsd', hp⟩
      · exact .inl (by simp [hce, hc])
      · rcases List.mem_cons.mp hsd' with rfl | hsd'
        · rw [he] at hp
          exact absurd (Value.reg.inj hp).1.symm hce
        · exact .inr ⟨sd', hsd', hp⟩

/-- What the variables of a function start with, given what its parameters are
bound to. -/
structure Starts (I : Interpretation) (args : List Datum) (entry : Scope) (σ : Locals) : Prop where
  unmoved : Unmoved entry args σ
  only : ∀ x storage, entry.local? x = some storage → ∃ v, storage = .register v
  blank : ∀ x, entry.local? x = none → σ x = I.blank

variable {entry : Scope} {μ : Mark}

theorem Mark.Backed.starts (hb : μ.Backed entry g) (hall : g.seeds.length = μ.seeds)
    (hσ : Starts I args entry σ) {sd : Seed} (hsd : sd ∈ g.seeds) : sd.Starts args μ.scope σ := by
  obtain ⟨i, hi, rfl⟩ := List.getElem_of_mem hsd
  obtain ⟨x, ty, hx, hentry⟩ := hb.seeds i _ (hall ▸ hi) (List.getElem?_eq_getElem hi)
  obtain ⟨j, hv, hj⟩ := hσ.unmoved x _ hentry
  exact ⟨x, j, ty, hx, hv, hj⟩

theorem Ground.addressed (G : Ground m g Γ source target)
    (hfr : ∀ s ∈ g.slots, fr.registers s.register = some (.cell s.register)) :
    Addressed Γ fr := by
  intro x p ty hx
  obtain ⟨s, hs, rfl, rfl⟩ := G.slots x p ty hx
  exact ⟨s.register, rfl, hfr s hs⟩

theorem Ground.prologue_runs (G : Ground m g μ.scope source target) (hb : μ.Backed entry g)
    (hall : g.seeds.length = μ.seeds) (hσ : Starts I args entry σ) :
    ∃ fr, CodeRuns I target args g.prologue .empty [] fr := by
  obtain ⟨fr₁, hslots⟩ := slots_run I target args g.slots .empty
  have hblank := hslots.of_slots.2
  obtain ⟨fr, hseeds⟩ := seeds_run I target (fun sd hsd => hb.starts hall hσ hsd)
    (G.addressed fun s hs => (hblank s.register (.inr ⟨s, hs, rfl⟩)).1)
  exact ⟨fr, codeRuns_append.mpr ⟨[], fr₁, [], hslots, hseeds, rfl⟩⟩

/-- After the prologue every slot has what its variable starts with. -/
theorem Ground.of_prologue (G : Ground m g μ.scope source target) (hb : μ.Backed entry g)
    (hall : g.seeds.length = μ.seeds) (hσ : Starts I args entry σ)
    (h : CodeRuns I target args g.prologue .empty t fr) :
    t = [] ∧ Cells μ.scope σ fr := by
  obtain ⟨t₁, fr₁, t₂, hslots, hseeds, rfl⟩ := codeRuns_append.mp h
  obtain ⟨rfl, hblank⟩ := hslots.of_slots
  have haddr : Addressed μ.scope fr₁ :=
    G.addressed fun s hs => (hblank s.register (.inr ⟨s, hs, rfl⟩)).1
  obtain ⟨rfl, hregs, hmem⟩ := hseeds.of_seeds G (fun sd hsd => hb.starts hall hσ hsd) haddr
  refine ⟨rfl, fun x p ty hx => ?_⟩
  obtain ⟨c, rfl, hc⟩ := haddr x p ty hx
  refine ⟨c, rfl, hregs ▸ hc, hmem x c ty hx ?_⟩
  cases hentry : entry.local? x with
  | none =>
    obtain ⟨s, hs, hp, -⟩ := G.slots x _ ty hx
    rw [hσ.blank x hentry]
    exact .inl (hblank c (.inr ⟨s, hs, (Value.reg.inj hp).1.symm⟩)).2
  | some storage =>
    obtain ⟨v, rfl⟩ := hσ.only x storage hentry
    rcases hb.promoted x v hentry with hreg | ⟨p, ty', hslot, hsd⟩
    · rw [hx] at hreg
      cases hreg
    · rw [hx] at hslot
      cases hslot
      exact .inr ⟨_, hsd, rfl⟩

end Prologue

/-! ## Parameters in scope -/

namespace Lower

variable {scope : Scope} {args : List (String × Value)} {x : String}

theorem mem_of_parameterScope {storage : Storage}
    (h : (parameterScope scope args).local? x = some storage) :
    ∃ v, (x, v) ∈ args ∧ storage = .register v := by
  suffices hfold : ∀ s : Scope,
      (args.foldl (fun s a => s.bind a.1 (.register a.2)) s).local? x = some storage →
        s.local? x = some storage ∨ ∃ v, (x, v) ∈ args ∧ storage = .register v by
    rcases hfold _ h with h | h
    · cases h
    · exact h
  clear h
  induction args with
  | nil => exact fun s h => .inl h
  | cons a args ih =>
    intro s h
    rcases ih _ h with h | ⟨v, hv, rfl⟩
    · rw [Scope.local?_bind] at h
      split at h
      · cases h
        exact .inr ⟨a.2, by simp [‹x = a.1›], rfl⟩
      · exact .inl h
    · exact .inr ⟨v, by simp [hv], rfl⟩

theorem bound_parameterScope (scope : Scope) {v : Value} (h : (x, v) ∈ args) :
    ∃ storage, (parameterScope scope args).local? x = some storage := by
  suffices hfold : ∀ s : Scope, (∃ storage, s.local? x = some storage) ∨ (∃ v, (x, v) ∈ args) →
      ∃ storage, (args.foldl (fun s a => s.bind a.1 (.register a.2)) s).local? x = some storage from
    hfold _ (.inr ⟨v, h⟩)
  clear h
  induction args with
  | nil => exact fun s h => h.resolve_right (by simp)
  | cons a args ih =>
    intro s h
    refine ih _ ?_
    rw [Scope.local?_bind]
    by_cases hx : x = a.1
    · exact .inl ⟨_, if_pos hx⟩
    · rw [if_neg hx]
      refine h.imp_right ?_
      rintro ⟨v, hv⟩
      rcases List.mem_cons.mp hv with rfl | hv
      · exact absurd rfl hx
      · exact ⟨v, hv⟩

end Lower

theorem Function.mem_arguments {f : Function} {x : String} {v : Value} :
    (x, v) ∈ f.arguments ↔ ∃ i p, f.params[i]? = some p ∧ p.name = x ∧ v = .param i p.ty := by
  simp only [Function.arguments, List.mem_map, Prod.exists, List.mem_zipIdx_iff_getElem?,
    Prod.mk.injEq]
  constructor
  · rintro ⟨p, i, hp, rfl, rfl⟩
    exact ⟨i, p, hp, rfl, rfl⟩
  · rintro ⟨i, p, hp, rfl, rfl⟩
    exact ⟨p, i, hp, rfl, rfl⟩

namespace Locals

variable {I : Interpretation} {names : List String} {args : List Int} {x : String}

theorem initial_argument {i : Nat} {n : Int} (hn : names.Nodup) (hi : names[i]? = some x)
    (ha : args[i]? = some n) : initial I names args x = n := by
  unfold initial
  induction names generalizing i args with
  | nil => cases hi
  | cons y names ih =>
    cases args with
    | nil => cases ha
    | cons k args =>
      obtain ⟨hy, hn⟩ := List.nodup_cons.mp hn
      cases i with
      | zero =>
        cases hi
        cases ha
        simp
      | succ i =>
        have hne : x ≠ y := by
          rintro rfl
          exact hy (List.mem_of_getElem? hi)
        simp only [List.zip_cons_cons, List.lookup_cons, beq_eq_false_iff_ne.mpr hne]
        exact ih hn hi ha

theorem initial_blank (hx : x ∉ names) : initial I names args x = I.blank := by
  have hnone : (names.zip args).lookup x = none :=
    List.lookup_eq_none_iff.mpr fun p hp => bne_iff_ne.mpr fun hxp =>
      hx (hxp ▸ (List.of_mem_zip hp).1)
  rw [initial, hnone]
  rfl

end Locals

section Entering

variable {constants : List (String × Int)} {sig : Signature}

theorem Mark.entry_bound {x : String} :
    (∃ storage, (Mark.entry constants sig).scope.local? x = some storage) ↔
      x ∈ sig.params.map Param.name := by
  constructor
  · rintro ⟨storage, h⟩
    obtain ⟨v, hv, -⟩ := Lower.mem_of_parameterScope h
    obtain ⟨i, p, hp, rfl, -⟩ := Function.mem_arguments.mp hv
    exact List.mem_map_of_mem (List.mem_of_getElem? hp)
  · intro h
    obtain ⟨p, hp, rfl⟩ := List.mem_map.mp h
    obtain ⟨i, hi⟩ := List.getElem?_of_mem hp
    exact Lower.bound_parameterScope ⟨[], constants⟩
      (Function.mem_arguments (f := .declare 0 sig).mpr ⟨i, p, hi, rfl, rfl⟩)

theorem Mark.entry_register {x : String} {storage : Storage}
    (h : (Mark.entry constants sig).scope.local? x = some storage) :
    ∃ v, storage = .register v := by
  obtain ⟨v, -, rfl⟩ := Lower.mem_of_parameterScope h
  exact ⟨v, rfl⟩

theorem Mark.entry_backed (g : Function) :
    (Mark.entry constants sig).Backed (Mark.entry constants sig).scope g where
  slots x p ty hx := by
    obtain ⟨v, hv⟩ := Mark.entry_register hx
    cases hv
  apart x y p ty ty' hx := by
    obtain ⟨v, hv⟩ := Mark.entry_register hx
    cases hv
  registers _ _ hx := hx
  promoted _ _ hx := .inl hx
  seeds := nofun

theorem Mark.entry_starts {I : Interpretation} {args : List Int}
    (hint : ∀ p ∈ sig.params, p.ty = .i32) (hn : (sig.params.map Param.name).Nodup)
    (hlen : args.length = sig.params.length) :
    Starts I (args.map .int) (Mark.entry constants sig).scope
      (.initial I (sig.params.map Param.name) args) where
  unmoved x v hx := by
    obtain ⟨w, hw, hv⟩ := Lower.mem_of_parameterScope hx
    cases hv
    obtain ⟨i, p, hp, rfl, rfl⟩ := Function.mem_arguments.mp hw
    obtain ⟨hi, -⟩ := List.getElem?_eq_some_iff.mp hp
    have harg := List.getElem?_eq_getElem (hlen ▸ hi)
    refine ⟨i, by rw [hint p (List.mem_of_getElem? hp)], ?_⟩
    rw [Locals.initial_argument hn (by simp [show sig.params[i]? = some p from hp]) harg]
    simp [harg]
  only _ _ hx := Mark.entry_register hx
  blank x hx := by
    refine Locals.initial_blank fun hmem => ?_
    obtain ⟨storage, hst⟩ := Mark.entry_bound.mpr hmem
    exact absurd (hx.symm.trans hst) nofun

end Entering

end TreeFlow
