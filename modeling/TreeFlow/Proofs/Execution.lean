import TreeFlow.Proofs.Simulation

/-!
# Statements and their code

A statement and the code that is laid out for it do the same: whatever the
statement means, a run of the function can do from there, and whenever a run
returns, the statement has a meaning that explains the first part of the run.
The second direction counts jumps, since every round of a loop jumps.
-/

set_option autoImplicit false

namespace TreeFlow

/-! ## Runs from inside a function -/

section Halting

variable {I : Interpretation} {target : CallRel Nat} {args : List Datum} {g : Function} {μ : Mark}
  {n : Nat} {fr : Frame} {t : Trace} {res : Option Datum}

def Function.HaltsIn (g : Function) (I : Interpretation) (target : CallRel Nat) (args : List Datum)
    (b offset n : Nat) (fr : Frame) (t : Trace) (res : Option Datum) : Prop :=
  ∃ k x, g.bodies[b]? = some k ∧ k.terminator = some x ∧
    g.Halts I target args n (k.instrs.drop offset) x fr t res

theorem Function.block?_of_pos (g : Function) {j : Nat} (hj : 0 < j) :
    g.block? j = g.bodies[j]? := by
  unfold Function.block? Function.blocks
  cases hb : g.bodies with
  | nil => rfl
  | cons b bs =>
    obtain ⟨i, rfl⟩ := Nat.exists_eq_succ_of_ne_zero (Nat.ne_of_gt hj)
    rfl

theorem haltsIn_holds {c : List Instr} (h : g.Holds μ c) :
    g.HaltsIn I target args μ.block μ.offset n fr t res ↔
      ∃ t₁ fr₁ t₂, CodeRuns I target args c fr t₁ fr₁ ∧
        g.HaltsIn I target args μ.block (μ.offset + c.length) n fr₁ t₂ res ∧ t = t₁ ++ t₂ := by
  obtain ⟨k, hk, rest, hrest⟩ := h
  have hdrop : k.instrs.drop (μ.offset + c.length) = rest := by
    rw [← List.drop_drop, ← hrest, List.drop_left]
  unfold Function.HaltsIn
  constructor
  · rintro ⟨k', x, hk', hx, hhalts⟩
    obtain rfl := Option.some.inj (hk.symm.trans hk')
    rw [← hrest, Function.halts_append] at hhalts
    obtain ⟨t₁, fr₁, t₂, hcode, hhalts, rfl⟩ := hhalts
    exact ⟨t₁, fr₁, t₂, hcode, ⟨k, x, hk, hx, hdrop ▸ hhalts⟩, rfl⟩
  · rintro ⟨t₁, fr₁, t₂, hcode, ⟨k', x, hk', hx, hhalts⟩, rfl⟩
    obtain rfl := Option.some.inj (hk.symm.trans hk')
    refine ⟨k, x, hk, hx, ?_⟩
    rw [← hrest, Function.halts_append]
    exact ⟨t₁, fr₁, t₂, hcode, hdrop ▸ hhalts, rfl⟩

theorem haltsIn_ends {x : Terminator} (h : g.Ends μ x) :
    g.HaltsIn I target args μ.block μ.offset n fr t res ↔
      g.Halts I target args n [] x fr t res := by
  obtain ⟨k, hk, hlen, hx⟩ := h
  have hdrop : k.instrs.drop μ.offset = [] := List.drop_eq_nil_of_le (Nat.le_of_eq hlen)
  unfold Function.HaltsIn
  constructor
  · rintro ⟨k', x', hk', hx', hhalts⟩
    obtain rfl := Option.some.inj (hk.symm.trans hk')
    obtain rfl := Option.some.inj (hx.symm.trans hx')
    rwa [hdrop] at hhalts
  · intro hhalts
    exact ⟨k, x, hk, hx, hdrop ▸ hhalts⟩

theorem Function.halts_goes (x : Terminator) (hx : ∀ v, x ≠ .ret v)
    (hpos : ∀ j ∈ x.successors, 0 < j) :
    g.Halts I target args n [] x fr t res ↔
      ∃ n' j, n = n' + 1 ∧ x.Goes args fr j ∧ g.HaltsIn I target args j 0 n' fr t res := by
  have hgoes : ∀ j, x.Goes args fr j → 0 < j := by
    intro j hj
    cases x with
    | br i => exact hpos j (by simp [Terminator.successors, show j = i from hj])
    | condBr v y z =>
      obtain ⟨b, -, rfl⟩ := hj
      cases b <;> exact hpos _ (by simp [Terminator.successors])
    | ret v => exact absurd rfl (hx v)
  cases n with
  | zero =>
    constructor
    · rintro ⟨fr', -, hr⟩
      cases x with
      | ret v => exact absurd rfl (hx v)
      | _ => cases hr
    · rintro ⟨n', j, hn, -⟩
      cases hn
  | succ n =>
    constructor
    · rintro ⟨_, _, t₂, ⟨rfl, rfl⟩, rfl, j, k, y, hj, hk, hy, hhalts⟩
      rw [Function.block?_of_pos _ (hgoes j hj)] at hk
      exact ⟨n, j, rfl, hj, k, y, hk, hy, hhalts⟩
    · rintro ⟨n', j, hn, hj, k, y, hk, hy, hhalts⟩
      cases hn
      rw [← Function.block?_of_pos _ (hgoes j hj)] at hk
      exact ⟨[], fr, t, ⟨rfl, rfl⟩, rfl, j, k, y, hj, hk, hy, hhalts⟩

theorem haltsIn_br {j : Nat} (h : g.Ends μ (.br j)) (hj : 0 < j) :
    g.HaltsIn I target args μ.block μ.offset n fr t res ↔
      ∃ n', n = n' + 1 ∧ g.HaltsIn I target args j 0 n' fr t res := by
  rw [haltsIn_ends h, Function.halts_goes (.br j) nofun (by simpa [Terminator.successors] using hj)]
  constructor
  · rintro ⟨n', _, hn, rfl, hhalts⟩
    exact ⟨n', hn, hhalts⟩
  · rintro ⟨n', hn, hhalts⟩
    exact ⟨n', j, hn, rfl, hhalts⟩

theorem haltsIn_condBr {v : Value} {y z : Nat} (h : g.Ends μ (.condBr v y z)) (hy : 0 < y)
    (hz : 0 < z) :
    g.HaltsIn I target args μ.block μ.offset n fr t res ↔
      ∃ n' b, n = n' + 1 ∧ v.read args fr = some (.truth b) ∧
        g.HaltsIn I target args (if b then y else z) 0 n' fr t res := by
  rw [haltsIn_ends h,
    Function.halts_goes (.condBr v y z) nofun (by simp [Terminator.successors, hy, hz])]
  constructor
  · rintro ⟨n', _, hn, ⟨b, hb, rfl⟩, hhalts⟩
    exact ⟨n', b, hn, hb, hhalts⟩
  · rintro ⟨n', b, hn, hb, hhalts⟩
    exact ⟨n', _, hn, ⟨b, hb, rfl⟩, hhalts⟩

theorem haltsIn_ret {v : Option Value} (h : g.Ends μ (.ret v)) :
    g.HaltsIn I target args μ.block μ.offset n fr t res ↔
      n = 0 ∧ t = [] ∧ (Terminator.ret v).Returns args fr res := by
  rw [haltsIn_ends h]
  cases n with
  | zero =>
    constructor
    · rintro ⟨_, ⟨rfl, rfl⟩, hr⟩
      exact ⟨rfl, rfl, hr⟩
    · rintro ⟨-, rfl, hr⟩
      exact ⟨fr, ⟨rfl, rfl⟩, hr⟩
  | succ n =>
    constructor
    · rintro ⟨_, _, _, -, -, j, k, y, hj, -⟩
      cases hj
    · rintro ⟨hn, -⟩
      cases hn

end Halting

/-! ## Frames of a function -/

/-- Each slot that the function binds has the content of its variable, also
before the slot is bound. -/
def Cells (Γ : Scope) (σ : Locals) (fr : Frame) : Prop :=
  ∀ x p ty, Γ.local? x = some (.slot p ty) → ∃ c, p = .reg c (.ptr ty) ∧
    fr.registers c = some (.cell c) ∧ fr.memory c = some (.int (σ x))

theorem Cells.runs_load {I : Interpretation} {target : CallRel Nat} {args : List Datum} {Γ : Scope}
    {σ : Locals} {fr fr' : Frame} {t : Trace} (h : Cells Γ σ fr) {x : String} {v : Value} {ty : Ty}
    (hx : Γ.local? x = some (.slot v ty)) (d : Nat) :
    (Instr.load d ty v).Runs I target args fr t fr' ↔ t = [] ∧ fr' = fr.set d (.int (σ x)) := by
  obtain ⟨e, rfl, hreg, hmem⟩ := h x v ty hx
  constructor
  · rintro ⟨rfl, e', y, he, hy, rfl⟩
    obtain rfl : e = e' := by simpa [Value.read, hreg] using he
    obtain rfl := Option.some.inj (hmem.symm.trans hy)
    exact ⟨rfl, rfl⟩
  · rintro ⟨rfl, rfl⟩
    exact ⟨rfl, e, _, hreg, hmem, rfl⟩

/-- A parameter that is still in its register has not been assigned. -/
def Unmoved (scope : Scope) (args : List Datum) (σ : Locals) : Prop :=
  ∀ x v, scope.local? x = some (.register v) →
    ∃ i, v = .param i .i32 ∧ args[i]? = some (.int (σ x))

theorem Unmoved.leads {s s' : Scope} {args : List Datum} {σ : Locals} (h : Unmoved s args σ)
    (hs : s.Leads s') : Unmoved s' args σ :=
  fun x v hx => h x v (hs.register x v hx)

/-- What holds of a compiled function whose body ends in the scope `Γ`. -/
structure Ground (m : Module) (g : Function) (Γ : Scope) (source : CallRel String)
    (target : CallRel Nat) : Prop where
  calls : CallsAgree m source target
  apart : g.Apart
  distinct : ∀ x y p ty ty', Γ.local? x = some (.slot p ty) → Γ.local? y = some (.slot p ty') →
    x = y
  slots : ∀ x p ty, Γ.local? x = some (.slot p ty) → ∃ s ∈ g.slots, p = s.pointer ∧ s.ty = ty
  allInt : Γ.AllInt
  plain : ∀ x storage, Γ.local? x = some storage → Γ.constants.lookup x = none
  returns : ∀ k ∈ g.bodies, ∀ x, k.terminator = some x → x.returns g.ret = true

namespace Ground

variable {I : Interpretation} {m : Module} {g : Function} {Γ entry : Scope}
  {source : CallRel String} {target : CallRel Nat} {args : List Datum} {σ : Locals} {μ : Mark}
  {c : List Instr} {fr fr' : Frame} {t : Trace}

theorem cells_code (G : Ground m g Γ source target) (h : Cells Γ σ fr) (hin : g.Holds μ c)
    {c' : List Instr} (hc : c' <+: c) (hpure : ∀ i ∈ c', i.isPure = true)
    (hrun : CodeRuns I target args c' fr t fr') : Cells Γ σ fr' := by
  intro x p ty hx
  obtain ⟨d, rfl, hreg, hmem⟩ := h x p ty hx
  refine ⟨d, rfl, ?_, hrun.memory hpure ▸ hmem⟩
  obtain ⟨s, hs, hp, -⟩ := G.slots x _ ty hx
  obtain ⟨rfl, -⟩ := Value.reg.inj hp
  obtain ⟨k, hk, hstands⟩ := hin
  rw [← hreg]
  refine hrun.registers fun i hi hd => ?_
  have hmem := List.mem_of_mem_drop (hstands.subset (hc.subset hi))
  exact (G.apart.code _ k hk i hmem _ hd).2 s hs rfl

theorem cells_write (G : Ground m g Γ source target) (h : Cells Γ σ fr) {x : String} {d : Nat}
    {ty : Ty} (hx : Γ.local? x = some (.slot (.reg d (.ptr ty)) ty)) (n : Int) :
    Cells Γ (σ.set x n) (fr.write d (.int n)) := by
  intro y p ty' hy
  obtain ⟨e, rfl, hreg, hmem⟩ := h y p ty' hy
  refine ⟨e, rfl, hreg, ?_⟩
  by_cases hyx : y = x
  · subst hyx
    obtain ⟨rfl, -⟩ : d = e ∧ ty = ty' := by simpa [hx] using hy
    rw [Frame.memory_write, if_pos rfl, Locals.set_self]
  · have hne : e ≠ d := by
      rintro rfl
      obtain rfl : ty = ty' := (G.allInt x _ hx).trans (G.allInt y _ hy).symm
      exact hyx (G.distinct y x _ _ _ hy hx)
    rw [Frame.memory_write, if_neg hne, Locals.set_other _ _ hyx, hmem]

theorem agrees (G : Ground m g Γ source target) (h : Cells Γ σ fr)
    (hun : Unmoved μ.scope args σ) (hb : μ.Backed entry g) (hl : μ.scope.Leads Γ) :
    Agrees μ.scope args σ μ.registers fr where
  register x v hx := by
    obtain ⟨i, rfl, hi⟩ := hun x v hx
    exact ⟨⟨i, rfl⟩, hi⟩
  slot x p ty hx := by
    have hΓ := hl.slot x p ty hx
    obtain ⟨d, rfl, hreg, hmem⟩ := h x p ty hΓ
    obtain ⟨s, -, hlt, hp, -⟩ := hb.slots x _ ty hx
    obtain ⟨rfl, -⟩ := Value.reg.inj hp
    exact ⟨G.allInt x _ hΓ, _, rfl, hlt, hreg, hmem⟩
  plain x storage hx := by
    obtain ⟨storage', hx'⟩ := hl.bound x storage hx
    rw [← hl.constants]
    exact G.plain x storage' hx'

end Ground

theorem Frame.keeps_set (fr : Frame) (r : Nat) (x : Datum) : fr.Keeps r (fr.set r x) where
  registers i hi := by simp [Nat.ne_of_lt hi]
  memory := rfl

/-! ## Simulation of a piece -/

section Simulating

variable (I : Interpretation) (g : Function) (Γ : Scope) (args : List Datum)
  (source : CallRel String) (target : CallRel Nat)

/-- How a run goes on after a piece has ended. -/
def Continues (ls : List LoopTargets) (μ : Mark) :
    Ending → Nat → Frame → Trace → Option Datum → Prop
  | .normal, n, fr, t, r => g.HaltsIn I target args μ.block μ.offset n fr t r
  | .broke, n, fr, t, r => ∃ l, ls.head? = some l ∧ g.HaltsIn I target args l.onBreak 0 n fr t r
  | .continued, n, fr, t, r =>
    ∃ l, ls.head? = some l ∧ g.HaltsIn I target args l.onContinue 0 n fr t r
  | .returned x, n, _, t, r => n = 0 ∧ t = [] ∧ r = x

structure Arrives (μ : Mark) (o : Ending) (σ : Locals) (fr : Frame) : Prop where
  cells : Cells Γ σ fr
  goesOn : o = .normal → μ.ended = false ∧ Unmoved μ.scope args σ

structure Simulates (p : Piece) (ls : List LoopTargets) (μ μ' : Mark) : Prop where
  forward : ∀ {σ fr t o σ'}, Cells Γ σ fr → Unmoved μ.scope args σ →
    Exec I Γ.constants source p σ t o σ' →
      ∃ fr', Arrives Γ args μ' o σ' fr' ∧ (∀ r, o = .returned r → ResultFits g.ret r) ∧
        ∀ n t' r, Continues I g args target ls μ' o n fr' t' r →
          ∃ n', g.HaltsIn I target args μ.block μ.offset n' fr (t ++ t') r
  backward : ∀ {σ fr n t r}, Cells Γ σ fr → Unmoved μ.scope args σ →
    g.HaltsIn I target args μ.block μ.offset n fr t r →
      ∃ t₁ o σ' fr' n' t₂, Exec I Γ.constants source p σ t₁ o σ' ∧ Arrives Γ args μ' o σ' fr' ∧
        n' ≤ n ∧ Continues I g args target ls μ' o n' fr' t₂ r ∧ t = t₁ ++ t₂

end Simulating

section Pieces

variable {I : Interpretation} {m : Module} {g : Function} {Γ entry : Scope} {args : List Datum}
  {source : CallRel String} {target : CallRel Nat} {p : Piece} {ls : List LoopTargets}
  {μ μ' μ₁ : Mark} {c : List Instr}

theorem simulates_code (hin : g.Holds μ c) (hblock : μ'.block = μ.block)
    (hoffset : μ'.offset = μ.offset + c.length) (hended : μ'.ended = false)
    (forward : ∀ {σ fr t o σ'}, Cells Γ σ fr → Unmoved μ.scope args σ →
      Exec I Γ.constants source p σ t o σ' → o = .normal ∧ ∃ fr',
        CodeRuns I target args c fr t fr' ∧ Cells Γ σ' fr' ∧ Unmoved μ'.scope args σ')
    (backward : ∀ {σ fr t fr'}, Cells Γ σ fr → Unmoved μ.scope args σ →
      CodeRuns I target args c fr t fr' → ∃ σ',
        Exec I Γ.constants source p σ t .normal σ' ∧ Cells Γ σ' fr' ∧ Unmoved μ'.scope args σ') :
    Simulates I g Γ args source target p ls μ μ' where
  forward hcells hun hexec := by
    obtain ⟨rfl, fr', hrun, hcells', hun'⟩ := forward hcells hun hexec
    refine ⟨fr', ⟨hcells', fun _ => ⟨hended, hun'⟩⟩, nofun, fun n t' r hcont => ⟨n, ?_⟩⟩
    change g.HaltsIn I target args μ'.block μ'.offset n fr' t' r at hcont
    rw [hblock, hoffset] at hcont
    exact (haltsIn_holds hin).mpr ⟨_, fr', t', hrun, hcont, rfl⟩
  backward hcells hun hhalts := by
    obtain ⟨t₁, fr', t₂, hrun, hcont, rfl⟩ := (haltsIn_holds hin).mp hhalts
    obtain ⟨σ', hexec, hcells', hun'⟩ := backward hcells hun hrun
    rw [← hblock, ← hoffset] at hcont
    exact ⟨t₁, .normal, σ', fr', _, t₂, hexec, ⟨hcells', fun _ => ⟨hended, hun'⟩⟩, Nat.le_refl _,
      hcont, rfl⟩

theorem Unmoved.set {s : Scope} {σ : Locals} (h : Unmoved s args σ) {x : String} {v : Value}
    {ty : Ty} (hx : s.local? x = some (.slot v ty)) (n : Int) : Unmoved s args (σ.set x n) := by
  intro y u hy
  obtain ⟨i, rfl, hi⟩ := h y u hy
  have hne : y ≠ x := by
    rintro rfl
    simp [hx] at hy
  exact ⟨i, rfl, by rw [Locals.set_other _ _ hne, hi]⟩

theorem simulates_store {c₁ : List Instr} {w v : Value} {ty : Ty} {x : String}
    (G : Ground m g Γ source target) (hin : g.Holds μ (c₁ ++ [.store w v]))
    (hpure : ∀ i ∈ c₁, i.isPure = true) (hx : μ'.scope.local? x = some (.slot v ty))
    (hleads : μ.scope.Leads μ'.scope) (hfinal : μ'.scope.Leads Γ) (hblock : μ'.block = μ.block)
    (hoffset : μ'.offset = μ.offset + (c₁.length + 1)) (hended : μ'.ended = false)
    (forward : ∀ {σ fr t o σ'}, Cells Γ σ fr → Unmoved μ.scope args σ →
      Exec I Γ.constants source p σ t o σ' → o = .normal ∧ ∃ n fr₁, σ' = σ.set x n ∧
        CodeRuns I target args c₁ fr t fr₁ ∧ w.read args fr₁ = some (.int n))
    (backward : ∀ {σ fr t fr₁ y}, Cells Γ σ fr → Unmoved μ.scope args σ →
      CodeRuns I target args c₁ fr t fr₁ → w.read args fr₁ = some y → ∃ n, y = .int n ∧
        Exec I Γ.constants source p σ t .normal (σ.set x n)) :
    Simulates I g Γ args source target p ls μ μ' := by
  have hΓ := hfinal.slot x v ty hx
  refine simulates_code hin hblock (by simpa using hoffset) hended ?_ ?_
  · intro σ fr t o σ' hcells hun hexec
    obtain ⟨rfl, n, fr₁, rfl, hrun, hread⟩ := forward hcells hun hexec
    have hcells₁ := G.cells_code hcells hin (List.prefix_append _ _) hpure hrun
    obtain ⟨d, rfl, hreg, -⟩ := hcells₁ x v ty hΓ
    refine ⟨rfl, fr₁.write d (.int n), codeRuns_append.mpr ⟨t, fr₁, [], hrun, codeRuns_one.mpr
      ⟨rfl, d, _, hreg, hread, rfl⟩, by simp⟩, G.cells_write hcells₁ hΓ n, ?_⟩
    exact (hun.leads hleads).set hx n
  · intro σ fr t fr' hcells hun hrun
    obtain ⟨t₁, fr₁, t₂, hrun₁, hstore, rfl⟩ := codeRuns_append.mp hrun
    have hcells₁ := G.cells_code hcells hin (List.prefix_append _ _) hpure hrun₁
    obtain ⟨d, rfl, hreg, -⟩ := hcells₁ x v ty hΓ
    obtain ⟨rfl, e, y, he, hy, rfl⟩ := codeRuns_one.mp hstore
    obtain rfl : d = e := by simpa [Value.read, hreg] using he
    obtain ⟨n, rfl, hexec⟩ := backward hcells hun hrun₁ hy
    refine ⟨σ.set x n, by simpa using hexec, G.cells_write hcells₁ hΓ n, ?_⟩
    exact (hun.leads hleads).set hx n

/-! ## Variables -/

theorem simulates_nothing (hblock : μ'.block = μ.block) (hoffset : μ'.offset = μ.offset)
    (hended : μ'.ended = false) (hleads : μ.scope.Leads μ'.scope)
    (forward : ∀ {σ t o σ'}, Exec I Γ.constants source p σ t o σ' → t = [] ∧ o = .normal ∧ σ' = σ)
    (backward : ∀ σ, Exec I Γ.constants source p σ [] .normal σ) :
    Simulates I g Γ args source target p ls μ μ' where
  forward hcells hun hexec := by
    obtain ⟨rfl, rfl, rfl⟩ := forward hexec
    refine ⟨_, ⟨hcells, fun _ => ⟨hended, hun.leads hleads⟩⟩, nofun, fun n t' r hcont => ⟨n, ?_⟩⟩
    rw [← hblock, ← hoffset]
    exact hcont
  backward hcells hun hhalts := by
    rw [← hblock, ← hoffset] at hhalts
    exact ⟨[], .normal, _, _, _, _, backward _, ⟨hcells, fun _ => ⟨hended, hun.leads hleads⟩⟩,
      Nat.le_refl _, hhalts, rfl⟩

theorem simulates_initialise {site : Site} {type init : Tree} {ty : Ty} {v : Value} {r : Nat}
    (G : Ground m g Γ source target) (kind : site.kind = .variableDeclaration)
    (hopen : μ.ended = false)
    (hb : (μ.slot site.name ty).Backed entry g) (hleads : μ.scope.Leads (μ.slot site.name ty).scope)
    (hfinal : (μ.slot site.name ty).scope.Leads Γ)
    (code : Emits m (μ.slot site.name ty).scope (.one init) (μ.registers + 1) c [v] r)
    (fits : v.ty = ty) (hin : g.Holds μ (c ++ [.store v (μ.pointer ty)])) :
    Simulates I g Γ args source target (.one (.node site [type, init])) ls μ
      ((μ.slot site.name ty).after (c.length + 1) r) := by
  have hslot : (μ.slot site.name ty).scope.local? site.name = some (.slot (μ.pointer ty) ty) := by
    simp [Scope.local?_bind]
  have hconst := hfinal.constants
  refine simulates_store (x := site.name) G hin (fun i hi => code.isPure hi) hslot hleads hfinal rfl
    (by simp) hopen ?_ ?_
  · intro σ fr t o σ' hcells hun hexec
    obtain ⟨n, heval, rfl, rfl⟩ := hexec.of_initialise kind
    have ha := G.agrees hcells (hun.leads hleads) hb hfinal
    rw [hconst] at heval
    obtain ⟨fr₁, hrun, hreads⟩ := code.computes G.calls ha heval
    obtain ⟨_, ⟨⟩, hread, -⟩ := hreads.one
    exact ⟨rfl, n, fr₁, rfl, hrun, hread⟩
  · intro σ fr t fr₁ y hcells hun hrun hy
    have ha := G.agrees hcells (hun.leads hleads) hb hfinal
    obtain ⟨xs, heval, hreads⟩ := code.means G.calls ha hrun
    obtain ⟨x, rfl, hread, hfits⟩ := hreads.one
    rw [fits, show ty = .i32 from G.allInt _ _ (hfinal.slot _ _ _ hslot)] at hfits
    obtain ⟨n, rfl⟩ := hfits.int
    obtain rfl := Option.some.inj (hread.symm.trans hy)
    exact ⟨n, rfl, .initialise kind (hconst ▸ heval)⟩

def Update.body (u : Update) (old new : Value) (r : Nat) : List Instr :=
  match u with
  | .replace => []
  | .combine op => [.binary r op old new]

def Update.value (u : Update) (old new : Value) (r : Nat) : Value :=
  match u with
  | .replace => new
  | .combine _ => .reg r old.ty

theorem Update.code_eq (u : Update) (old new v : Value) (r : Nat) :
    u.code old new v r = u.body old new r ++ [.store (u.value old new r) v] := by
  cases u <;> rfl

theorem Update.isPure_body {u : Update} {old new : Value} {r : Nat} {i : Instr}
    (hi : i ∈ u.body old new r) : i.isPure = true := by
  cases u with
  | replace => cases hi
  | combine op =>
    obtain rfl := List.mem_singleton.mp hi
    rfl

section Updating

variable {u : Update} {old new : Value} {r : Nat} {fr fr' : Frame} {a b k : Int} {t : Trace}

theorem Update.computes (hold : old.read args fr = some (.int a))
    (hnew : new.read args fr = some (.int b)) (h : u.apply I a b = some k) :
    ∃ fr', CodeRuns I target args (u.body old new r) fr [] fr' ∧
      (u.value old new r).read args fr' = some (.int k) := by
  cases u with
  | replace =>
    cases h
    exact ⟨fr, ⟨rfl, rfl⟩, hnew⟩
  | combine op =>
    have hop : I.apply (.arith op) (.int a) (.int b) = some (.int k) :=
      Option.map_eq_some_iff.mpr ⟨k, h, rfl⟩
    refine ⟨fr.set r (.int k), codeRuns_one.mpr ⟨rfl, _, _, _, hold, hnew, hop, rfl⟩, ?_⟩
    simp [Update.value, Value.read]

theorem Update.means (hold : old.read args fr = some (.int a))
    (hnew : new.read args fr = some (.int b))
    (h : CodeRuns I target args (u.body old new r) fr t fr') :
    t = [] ∧ ∃ k, u.apply I a b = some k ∧ (u.value old new r).read args fr' = some (.int k) := by
  cases u with
  | replace =>
    obtain ⟨rfl, rfl⟩ := h
    exact ⟨rfl, b, rfl, hnew⟩
  | combine op =>
    obtain ⟨rfl, x, y, z, hx, hy, hz, rfl⟩ := codeRuns_one.mp h
    obtain rfl := Option.some.inj (hold.symm.trans hx)
    obtain rfl := Option.some.inj (hnew.symm.trans hy)
    obtain ⟨k, hk, rfl⟩ := Option.map_eq_some_iff.mp hz
    exact ⟨rfl, k, hk, by simp [Update.value, Value.read]⟩

end Updating

theorem simulates_assign {site : Site} {op rhs : Tree} {update : Update} {v w : Value} {ty : Ty}
    {r : Nat} (G : Ground m g Γ source target) (kind : site.kind = .assignment)
    (updates : Update.ofSite op.site = .ok update) (hopen : μ.ended = false)
    (htarget : Assigns g site.name μ v ty μ₁) (hb : μ.Backed entry g)
    (hfinal : (μ₁.rebind site.name v ty).scope.Leads Γ)
    (code : Emits m μ₁.scope (.one rhs) (μ₁.registers + 1) c [w] r) (fits : w.ty = ty)
    (hin : g.Holds μ (.load μ₁.registers ty v :: c ++
      update.code (.reg μ₁.registers ty) w v r)) :
    Simulates I g Γ args source target (.one (.node site [op, rhs])) ls μ
      ((μ₁.after (.load μ₁.registers ty v :: c ++
        update.code (.reg μ₁.registers ty) w v r).length (update.next r)).rebind
          site.name v ty) := by
  have hx : μ₁.scope.local? site.name = some (.slot v ty) := by simp [htarget.local?]
  have hrebind : μ₁.scope.Leads (μ₁.rebind site.name v ty).scope :=
    .bind fun p ty' hp => by simpa [hx, eq_comm] using hp
  have hleads := htarget.leads
  have hl := hrebind.trans hfinal
  have hΓ := hl.slot _ _ _ hx
  have hconst := hl.constants
  obtain ⟨hblocks, hblock, hended, hoffset⟩ := htarget.blocks
  -- The code loads the old value, computes the new one and stores what the update makes of them.
  have hcode : .load μ₁.registers ty v :: c ++ update.code (.reg μ₁.registers ty) w v r =
      ([.load μ₁.registers ty v] ++ (c ++ update.body (.reg μ₁.registers ty) w r)) ++
        [.store (update.value (.reg μ₁.registers ty) w r) v] := by
    simp [Update.code_eq]
  rw [hcode] at hin ⊢
  have hagrees : ∀ {σ : Locals} {fr : Frame}, Cells Γ σ fr → Unmoved μ.scope args σ →
      Agrees μ₁.scope args σ (μ₁.registers + 1) (fr.set μ₁.registers (.int (σ site.name))) :=
    fun hcells hun => (G.agrees hcells (hun.leads hleads) (htarget.backed hb) hl).keeps
      (Frame.keeps_set _ _ _) (Nat.le_succ _)
  have hread : ∀ {σ : Locals} {fr fr₁ : Frame} {t : Trace}, CodeRuns I target args c
      (fr.set μ₁.registers (.int (σ site.name))) t fr₁ →
        (Value.reg μ₁.registers ty).read args fr₁ = some (.int (σ site.name)) := by
    intro σ fr fr₁ t hrun
    rw [Value.read_keeps (code.keeps hrun) (Nat.lt_succ_self _)]
    simp [Value.read]
  have hx' : (μ₁.rebind site.name v ty).scope.local? site.name = some (.slot v ty) := by
    simp [Scope.local?_bind]
  refine simulates_store (x := site.name) G hin ?_ hx' (hleads.trans hrebind) hfinal hblock ?_
    (hended.trans hopen) ?_ ?_
  · intro i hi
    rcases List.mem_append.mp hi with hi | hi
    · obtain rfl := List.mem_singleton.mp hi
      rfl
    · exact (List.mem_append.mp hi).elim (fun hi => code.isPure hi) Update.isPure_body
  · simp [hoffset]
    omega
  · intro σ fr t o σ' hcells hun hexec
    obtain ⟨update', n, k, hupdate', heval, hk, rfl, rfl⟩ := hexec.of_assign kind
    obtain rfl := Except.ok.inj (updates.symm.trans hupdate')
    rw [hconst] at heval
    obtain ⟨fr₁, hrun, hreads⟩ := code.computes G.calls (hagrees hcells hun) heval
    obtain ⟨_, ⟨⟩, hnew, -⟩ := hreads.one
    obtain ⟨fr₂, hbody, hvalue⟩ := Update.computes (hread hrun) hnew hk
    refine ⟨rfl, k, fr₂, rfl, codeRuns_append.mpr ⟨[], _, t, codeRuns_one.mpr
      ((hcells.runs_load hΓ _).mpr ⟨rfl, rfl⟩), codeRuns_append.mpr
        ⟨t, fr₁, [], hrun, hbody, by simp⟩, rfl⟩, hvalue⟩
  · intro σ fr t fr₂ y hcells hun hrun hy
    obtain ⟨_, _, t₁, hload, hrest, rfl⟩ := codeRuns_append.mp hrun
    obtain ⟨rfl, rfl⟩ := (hcells.runs_load hΓ _).mp (codeRuns_one.mp hload)
    obtain ⟨t₂, fr₁, t₃, hcode, hbody, rfl⟩ := codeRuns_append.mp hrest
    obtain ⟨xs, heval, hreads⟩ := code.means G.calls (hagrees hcells hun) hcode
    obtain ⟨x, rfl, hnew, hfits⟩ := hreads.one
    rw [fits, show ty = .i32 from G.allInt _ _ hΓ] at hfits
    obtain ⟨n, rfl⟩ := hfits.int
    obtain ⟨rfl, k, hk, hvalue⟩ := Update.means (hread hcode) hnew hbody
    obtain rfl := Option.some.inj (hvalue.symm.trans hy)
    refine ⟨k, rfl, ?_⟩
    simpa using Exec.assign kind updates (hconst ▸ heval) hk

end Pieces

end TreeFlow
