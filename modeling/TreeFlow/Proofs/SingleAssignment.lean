import Mathlib.Data.List.Nodup
import TreeFlow.Flow.Graph
import TreeFlow.Proofs.Filling

/-!
# Single assignment

Every register of a lowered function is defined once, and the registers are
numbered without gaps. Slots are made at the head of the entry block and serve
as addresses only; every other register stays inside its block. No jump leads
back to the entry, and every definition dominates the uses of its register.
-/

set_option autoImplicit false

namespace TreeFlow

def Instr.pointer? : Instr → Option Value
  | .load _ _ p | .store _ p => some p
  | _ => none

def Instr.inputs : Instr → List Value
  | .alloca _ _ | .load _ _ _ => []
  | .store v _ => [v]
  | .binary _ _ l r | .icmp _ _ l r => [l, r]
  | .call _ _ args => args

theorem Instr.mem_operands {i : Instr} {v : Value} :
    v ∈ i.operands ↔ i.pointer? = some v ∨ v ∈ i.inputs := by
  cases i with
  | store w p => simp [operands, pointer?, inputs, or_comm, eq_comm]
  | _ => simp [operands, pointer?, inputs, eq_comm]

theorem Instr.Follows.inputs_known {m : Module} {f : Function} {i : Instr} {before : List Instr}
    (h : i.Follows m f before) {v : Value} (hv : v ∈ i.inputs) :
    v.Known m f.toSignature before := by
  cases i with
  | alloca => cases hv
  | load => cases hv
  | store w p =>
    obtain rfl := List.mem_singleton.mp hv
    exact h.1
  | call d id args => exact h.1 v hv
  | _ =>
    rcases List.mem_pair.mp hv with rfl | rfl
    · exact h.1
    · exact h.2.1

theorem Terminator.Follows.operands_known {m : Module} {f : Function} {x : Terminator}
    {before : List Instr} (h : x.Follows m f before) {v : Value} (hv : v ∈ x.operands) :
    v.Known m f.toSignature before := by
  cases x with
  | br => cases hv
  | condBr c =>
    obtain rfl := List.mem_singleton.mp hv
    exact h.1
  | ret w => exact h v (Option.mem_toList.mp hv)

namespace Function

def code (f : Function) : List Instr := f.blocks.flatMap Block.instrs

def defined (f : Function) : List Nat := f.code.filterMap Instr.dest?

def InstrAt (f : Function) (q : Point) (i : Instr) : Prop :=
  ∃ l, f.block? q.block = some l ∧ l.instrs[q.offset]? = some i

def DefinesAt (f : Function) (r : Nat) (q : Point) : Prop := ∃ i, f.InstrAt q i ∧ i.dest? = some r

def SlotAt (f : Function) (r : Nat) (q : Point) : Prop := ∃ ty, f.InstrAt q (.alloca r ty)

/-- The instruction at the point loads from or stores to `v`. -/
def PointsAt (f : Function) (v : Value) (q : Point) : Prop :=
  ∃ i, f.InstrAt q i ∧ i.pointer? = some v

/-- The instruction or the terminator at the point uses `v`, and not as an
address. -/
def TakesAt (f : Function) (v : Value) (q : Point) : Prop :=
  (∃ i, f.InstrAt q i ∧ v ∈ i.inputs) ∨
    ∃ l x, f.block? q.block = some l ∧ q.offset = l.instrs.length ∧ l.terminator = some x ∧
      v ∈ x.operands

/-- The points that a path from the entry has visited, the latest first. -/
inductive Trail (f : Function) : List Point → Point → Prop
  | entry : Trail f [⟨0, 0⟩] ⟨0, 0⟩
  | move {path : List Point} {q q' : Point} (trail : Trail f path q) (move : f.Moves q q') :
      Trail f (q' :: path) q'

/-- Every path from the entry to `q'` has visited `q`. -/
def Dominates (f : Function) (q q' : Point) : Prop := ∀ path, f.Trail path q' → q ∈ path

structure SingleAssignment (f : Function) : Prop where
  numbered : ∃ n, f.defined.Perm (List.range n)
  defined : ∀ r ty q, f.ReadsAt (.reg r ty) q → ∃ q', f.DefinesAt r q'
  slots : ∀ r q, f.SlotAt r q → q.block = 0 ∧ ∀ ty q', f.ReadsAt (.reg r ty) q' →
    f.PointsAt (.reg r ty) q' ∧ ¬ f.TakesAt (.reg r ty) q' ∧
      (q'.block = 0 → q.offset < q'.offset)
  values : ∀ r q, f.DefinesAt r q → ¬ f.SlotAt r q → ∀ ty q', f.ReadsAt (.reg r ty) q' →
    q'.block = q.block ∧ q.offset < q'.offset
  entry : (∀ b, 0 ∉ f.successors b) ∧ f.predecessors 0 = []
  dominates : ∀ r ty q q', f.DefinesAt r q → f.ReadsAt (.reg r ty) q' → f.Dominates q q'

/-! ## Registers are taken once -/

def taken (f : Function) : List Nat :=
  f.slots.map Slot.register ++ (f.bodies.flatMap Block.instrs).filterMap Instr.dest?

structure Once (f : Function) : Prop where
  nodup : f.taken.Nodup
  below : ∀ d ∈ f.taken, d < f.registers

section Taking

variable {f g : Function}

theorem Once.keep (h : f.Once) (hp : g.taken = f.taken) (hr : f.registers ≤ g.registers) :
    g.Once := by
  refine ⟨hp ▸ h.nodup, fun d hd => ?_⟩
  rw [hp] at hd
  exact Nat.lt_of_lt_of_le (h.below d hd) hr

theorem Once.push (h : f.Once) (hp : g.taken.Perm (f.registers :: f.taken))
    (hr : g.registers = f.registers + 1) : g.Once := by
  refine ⟨hp.nodup_iff.mpr (List.nodup_cons.mpr ⟨?_, h.nodup⟩), fun d hd => ?_⟩
  · intro hmem
    exact Nat.lt_irrefl _ (h.below _ hmem)
  · rw [hr]
    rcases List.mem_cons.mp (hp.mem_iff.mp hd) with rfl | hd
    · exact Nat.lt_succ_self _
    · exact Nat.lt_succ_of_lt (h.below d hd)

theorem flatMap_append_instr {ks : List Block} {b : Nat} {k : Block} (hk : ks[b]? = some k)
    (i : Instr) :
    ((ks.modify b fun k => { k with instrs := k.instrs ++ [i] }).flatMap Block.instrs).Perm
      (i :: ks.flatMap Block.instrs) := by
  induction ks generalizing b with
  | nil => cases hk
  | cons l ks ih =>
    cases b with
    | zero =>
      simp only [List.modify_zero_cons, List.flatMap_cons, List.append_assoc]
      exact List.perm_middle
    | succ b =>
      simp only [List.modify_succ_cons, List.flatMap_cons]
      exact ((ih hk).append_left l.instrs).trans List.perm_middle

theorem flatMap_close {ks : List Block} {b : Nat} {x : Terminator} :
    (ks.modify b fun k => { k with terminator := some x }).flatMap Block.instrs =
      ks.flatMap Block.instrs := by
  induction ks generalizing b with
  | nil => cases b <;> rfl
  | cons l ks ih =>
    cases b with
    | zero => rfl
    | succ b => simp only [List.modify_succ_cons, List.flatMap_cons, ih]

theorem taken_append {b : Nat} {k : Block} (hk : f.bodies[b]? = some k) (i : Instr) :
    (f.append b i).taken.Perm (i.dest?.toList ++ f.taken) := by
  have hcode := (flatMap_append_instr hk i).filterMap Instr.dest?
  have hsplit : (i :: f.bodies.flatMap Block.instrs).filterMap Instr.dest? =
      i.dest?.toList ++ (f.bodies.flatMap Block.instrs).filterMap Instr.dest? := by
    cases hd : i.dest? <;> simp [hd]
  rw [hsplit] at hcode
  refine (hcode.append_left _).trans ?_
  rw [taken, ← List.append_assoc, ← List.append_assoc]
  exact List.perm_append_comm.append_right _

theorem Once.stable : Lower.Stable Once where
  declare _ _ := ⟨List.nodup_nil, nofun⟩
  define := by
    intro f b k i hk _ hd _ h
    refine h.push ?_ rfl
    have hperm := taken_append (f := f.takeRegister) hk i
    rwa [hd] at hperm
  perform := by
    intro f b k i hk _ hd h
    have hperm := taken_append hk i
    rw [hd] at hperm
    exact ⟨hperm.nodup_iff.mpr h.nodup, fun d hd => h.below d (hperm.mem_iff.mp hd)⟩
  block label h := h.keep (by simp [taken, addBlock]) (Nat.le_refl _)
  slot ty _ h := by
    refine h.push ?_ rfl
    simp only [taken, addSlot, takeRegister, List.map_append, List.map_cons, List.map_nil,
      List.append_assoc]
    exact List.perm_middle
  burn h := h.keep rfl (Nat.le_succ _)
  seed _ _ h := h.keep rfl (Nat.le_refl _)
  close _ _ _ h := h.keep (by simp only [taken, close, flatMap_close]) (Nat.le_refl _)

end Taking

/-! ## Points of blocks and bodies -/

section Points

variable {f : Function} {q q' : Point} {i i' : Instr} {r : Nat} {v : Value}

theorem instrAt_iff :
    f.InstrAt q i ↔ ∃ k, f.bodies[q.block]? = some k ∧
      ((f.lead q.block)[q.offset]? = some i ∨ (f.lead q.block).length ≤ q.offset ∧
        k.instrs[q.offset - (f.lead q.block).length]? = some i) := by
  constructor
  · rintro ⟨l, hl, hi⟩
    obtain ⟨k, hk, rfl⟩ := block?_eq_some.mp hl
    refine ⟨k, hk, ?_⟩
    by_cases hlt : q.offset < (f.lead q.block).length
    · rw [List.getElem?_append_left hlt] at hi
      exact .inl hi
    · rw [List.getElem?_append_right (Nat.not_lt.mp hlt)] at hi
      exact .inr ⟨Nat.not_lt.mp hlt, hi⟩
  · rintro ⟨k, hk, hi⟩
    refine ⟨_, block?_eq_some.mpr ⟨k, hk, rfl⟩, ?_⟩
    rcases hi with hi | ⟨hle, hi⟩
    · rw [List.getElem?_append_left (List.getElem?_eq_some_iff.mp hi).1]
      exact hi
    · rw [List.getElem?_append_right hle]
      exact hi

theorem readsAt_iff : f.ReadsAt v q ↔ f.PointsAt v q ∨ f.TakesAt v q := by
  constructor
  · rintro ⟨l, hl, ⟨i, hi, hv⟩ | ⟨hend, x, hx, hv⟩⟩
    · rcases Instr.mem_operands.mp hv with hp | hin
      · exact .inl ⟨i, ⟨l, hl, hi⟩, hp⟩
      · exact .inr (.inl ⟨i, ⟨l, hl, hi⟩, hin⟩)
    · exact .inr (.inr ⟨l, x, hl, hend, hx, hv⟩)
  · rintro (⟨i, ⟨l, hl, hi⟩, hp⟩ | ⟨i, ⟨l, hl, hi⟩, hin⟩ | ⟨l, x, hl, hend, hx, hv⟩)
    · exact ⟨l, hl, .inl ⟨i, hi, Instr.mem_operands.mpr (.inl hp)⟩⟩
    · exact ⟨l, hl, .inl ⟨i, hi, Instr.mem_operands.mpr (.inr hin)⟩⟩
    · exact ⟨l, hl, .inr ⟨hend, x, hx, hv⟩⟩

theorem code_eq (h : f.bodies ≠ []) : f.code = f.prologue ++ f.bodies.flatMap Block.instrs := by
  unfold code blocks
  split
  · exact absurd ‹_› h
  · simp [‹f.bodies = _›]

theorem defined_eq (h : f.bodies ≠ []) : f.defined = f.taken := by
  have hslots : (f.slots.map Slot.instr).filterMap Instr.dest? = f.slots.map Slot.register := by
    rw [List.filterMap_map]
    exact List.filterMap_eq_map_iff_forall_eq_some.mpr fun s _ => rfl
  have hseeds : (f.seeds.map Seed.instr).filterMap Instr.dest? = [] := by
    rw [List.filterMap_map]
    exact List.filterMap_eq_nil_iff.mpr fun s _ => rfl
  rw [defined, code_eq h, List.filterMap_append, prologue, List.filterMap_append, hslots, hseeds,
    List.append_nil, taken]

theorem filterMap_dest_unique {is : List Instr} (h : (is.filterMap Instr.dest?).Nodup) {o o' : Nat}
    (hi : is[o]? = some i) (hr : i.dest? = some r) (hi' : is[o']? = some i')
    (hr' : i'.dest? = some r) : o = o' := by
  have hpair := List.pairwise_iff_getElem.mp (List.pairwise_filterMap.mp h)
  obtain ⟨ho, rfl⟩ := List.getElem?_eq_some_iff.mp hi
  obtain ⟨ho', rfl⟩ := List.getElem?_eq_some_iff.mp hi'
  rcases Nat.lt_trichotomy o o' with hlt | heq | hlt
  · exact absurd rfl (hpair o o' ho ho' hlt r hr r hr')
  · exact heq
  · exact absurd rfl (hpair o' o ho' ho hlt r hr' r hr)

theorem definesAt_unique (h : f.defined.Nodup) (hq : f.DefinesAt r q) (hq' : f.DefinesAt r q') :
    q = q' := by
  obtain ⟨i, ⟨l, hl, hi⟩, hr⟩ := hq
  obtain ⟨i', ⟨l', hl', hi'⟩, hr'⟩ := hq'
  rw [defined, code, List.filterMap_flatMap, List.nodup_flatMap] at h
  obtain ⟨hinside, hacross⟩ := h
  have hpair := List.pairwise_iff_getElem.mp hacross
  have hmem : r ∈ l.instrs.filterMap Instr.dest? :=
    List.mem_filterMap.mpr ⟨i, List.mem_of_getElem? hi, hr⟩
  have hmem' : r ∈ l'.instrs.filterMap Instr.dest? :=
    List.mem_filterMap.mpr ⟨i', List.mem_of_getElem? hi', hr'⟩
  obtain ⟨hb, rfl⟩ := List.getElem?_eq_some_iff.mp hl
  obtain ⟨hb', rfl⟩ := List.getElem?_eq_some_iff.mp hl'
  have hblock : q.block = q'.block := by
    rcases Nat.lt_trichotomy q.block q'.block with hlt | heq | hlt
    · exact absurd hmem' (hpair _ _ hb hb' hlt hmem)
    · exact heq
    · exact absurd hmem (hpair _ _ hb' hb hlt hmem')
  obtain ⟨b, o⟩ := q
  obtain ⟨b', o'⟩ := q'
  obtain rfl : b = b' := hblock
  obtain rfl : o = o' := filterMap_dest_unique (hinside _ (List.getElem_mem _)) hi hr hi' hr'
  rfl

theorem instrAt_unique (h : f.defined.Nodup) (hq : f.InstrAt q i) (hr : i.dest? = some r)
    (hq' : f.InstrAt q' i') (hr' : i'.dest? = some r) : i = i' := by
  obtain rfl := definesAt_unique h ⟨i, hq, hr⟩ ⟨i', hq', hr'⟩
  obtain ⟨l, hl, hi⟩ := hq
  obtain ⟨l', hl', hi'⟩ := hq'
  obtain rfl := Option.some.inj (hl.symm.trans hl')
  exact Option.some.inj (hi.symm.trans hi')

theorem instrAt_slot {o : Nat} {s : Slot} (h : f.bodies ≠ []) (hs : f.slots[o]? = some s) :
    f.InstrAt ⟨0, o⟩ s.instr := by
  obtain ⟨k, ks, hk⟩ := List.exists_cons_of_ne_nil h
  refine instrAt_iff.mpr ⟨k, by rw [hk]; rfl, .inl ?_⟩
  have ho := (List.getElem?_eq_some_iff.mp hs).1
  show f.prologue[o]? = some s.instr
  rw [prologue, List.getElem?_append_left (by simpa using ho), List.getElem?_map, hs]
  rfl

end Points

/-! ## Where the operands of a function come from -/

section Provenance

variable {m : Module} {f : Function} {q : Point} {r : Nat} {ty : Ty}

/-- What a lowered function is made of. -/
structure Sound (m : Module) (f : Function) : Prop where
  fits : ∀ q, f.FitsAt m q
  defines : ∀ d, d < f.registers → f.Defines d
  seeded : ∀ s ∈ f.seeds, f.Seeds s
  once : f.Once

theorem ne_nil_of_readsAt {v : Value} (h : f.ReadsAt v q) : f.bodies ≠ [] := by
  obtain ⟨l, hl, -⟩ := h
  obtain ⟨k, hk, -⟩ := block?_eq_some.mp hl
  exact List.ne_nil_of_mem (List.mem_of_getElem? hk)

theorem Sound.instrAt (h : f.Sound m) {i : Instr} (hi : f.InstrAt q i) :
    (q.block = 0 ∧ ∃ s, f.slots[q.offset]? = some s ∧ i = s.instr) ∨
      (q.block = 0 ∧ f.slots.length ≤ q.offset ∧ ∃ s ∈ f.seeds, i = s.instr) ∨
        (f.lead q.block).length ≤ q.offset ∧ ∃ k, f.bodies[q.block]? = some k ∧
          i.Follows m f (k.instrs.take (q.offset - (f.lead q.block).length)) := by
  obtain ⟨k, hk, hi | ⟨hle, hi⟩⟩ := instrAt_iff.mp hi
  · have hb : q.block = 0 := by
      by_contra hb
      rw [lead, if_neg hb] at hi
      cases hi
    rw [lead, if_pos hb, prologue] at hi
    by_cases hlt : q.offset < f.slots.length
    · rw [List.getElem?_append_left (by simpa using hlt), List.getElem?_map] at hi
      obtain ⟨s, hs, rfl⟩ := Option.map_eq_some_iff.mp hi
      exact .inl ⟨hb, s, hs, rfl⟩
    · rw [List.getElem?_append_right (by simpa using hlt), List.getElem?_map] at hi
      obtain ⟨s, hs, rfl⟩ := Option.map_eq_some_iff.mp hi
      exact .inr (.inl ⟨hb, Nat.not_lt.mp hlt, s, List.mem_of_getElem? hs, rfl⟩)
  · exact .inr (.inr ⟨hle, k, hk, (h.fits ⟨q.block, q.offset - _⟩ k hk).1 i hi⟩)

theorem instrAt_of_take {k : Block} (hk : f.bodies[q.block]? = some k) {o : Nat} {i : Instr}
    (hi : i ∈ k.instrs.take o) :
    ∃ o', o' < (f.lead q.block).length + o ∧ f.InstrAt ⟨q.block, o'⟩ i := by
  obtain ⟨j, hj⟩ := List.getElem?_of_mem hi
  have hlt := (List.getElem?_eq_some_iff.mp hj).1
  rw [List.length_take] at hlt
  rw [List.getElem?_take_of_lt (by omega)] at hj
  refine ⟨(f.lead q.block).length + j, by omega, instrAt_iff.mpr ⟨k, hk, .inr ⟨by simp, ?_⟩⟩⟩
  simpa using hj

theorem length_slots_le_lead : f.slots.length ≤ (f.lead 0).length := by
  simp [lead, prologue]

theorem Sound.pointer (h : f.Sound m) {p : Value} (hp : f.PointsAt p q) :
    ∃ o s, f.slots[o]? = some s ∧ p = s.pointer ∧ (q.block = 0 → o < q.offset) := by
  obtain ⟨i, hi, hpi⟩ := hp
  suffices hs : (∃ ty, f.Addresses p ty) ∧ (q.block = 0 → f.slots.length ≤ q.offset) by
    obtain ⟨⟨ty, s, hs, rfl, -⟩, hle⟩ := hs
    obtain ⟨o, ho⟩ := List.getElem?_of_mem hs
    have hlt := (List.getElem?_eq_some_iff.mp ho).1
    exact ⟨o, s, ho, rfl, fun hb => Nat.lt_of_lt_of_le hlt (hle hb)⟩
  rcases h.instrAt hi with ⟨-, s, -, rfl⟩ | ⟨-, hle, s, hs, rfl⟩ | ⟨hle, k, -, hfollows⟩
  · cases hpi
  · cases hpi
    exact ⟨⟨_, (h.seeded s hs).2⟩, fun _ => hle⟩
  · refine ⟨?_, fun hb => Nat.le_trans length_slots_le_lead (hb ▸ hle)⟩
    cases i with
    | load d ty w =>
      cases hpi
      exact ⟨ty, hfollows⟩
    | store v w =>
      cases hpi
      exact ⟨v.ty, hfollows.2⟩
    | _ => cases hpi

def KnownAt (f : Function) (m : Module) (v : Value) (q : Point) : Prop :=
  v.Given m f.toSignature ∨ ∃ r ty, v = .reg r ty ∧ ∃ o i, o < q.offset ∧
    f.InstrAt ⟨q.block, o⟩ i ∧ i.isAlloca = false ∧ i.result? m = some (r, ty)

theorem knownAt_of_take {v : Value} {k : Block} (hk : f.bodies[q.block]? = some k) {o : Nat}
    (ho : (f.lead q.block).length + o ≤ q.offset)
    (hv : v.Known m f.toSignature (k.instrs.take o)) : f.KnownAt m v q := by
  refine hv.imp_right ?_
  rintro ⟨r, ty, hv, i, hi, hplain⟩
  obtain ⟨o', ho', hat⟩ := instrAt_of_take hk hi
  exact ⟨r, ty, hv, o', i, Nat.lt_of_lt_of_le ho' ho, hat, hplain⟩

theorem Sound.input (h : f.Sound m) {v : Value} (hv : f.TakesAt v q) : f.KnownAt m v q := by
  rcases hv with ⟨i, hi, hv⟩ | ⟨l, x, hl, hend, hx, hv⟩
  · rcases h.instrAt hi with ⟨-, s, -, rfl⟩ | ⟨-, -, s, hs, rfl⟩ | ⟨hle, k, hk, hfollows⟩
    · cases hv
    · obtain rfl := List.mem_singleton.mp hv
      obtain ⟨⟨j, p, hp, hparam⟩, -⟩ := h.seeded s hs
      rw [hparam]
      exact .inl ⟨p, hp, rfl⟩
    · exact knownAt_of_take hk (by omega) (hfollows.inputs_known hv)
  · obtain ⟨k, hk, rfl⟩ := block?_eq_some.mp hl
    have hfollows := (h.fits ⟨q.block, k.instrs.length⟩ k hk).2 rfl x hx
    refine knownAt_of_take hk (o := k.instrs.length) (by simp [hend]) ?_
    rw [List.take_length]
    exact hfollows.operands_known hv

theorem Sound.nodup (h : f.Sound m) : f.defined.Nodup := by
  by_cases hb : f.bodies = []
  · simp [defined, code, blocks, hb]
  · rw [defined_eq hb]
    exact h.once.nodup

theorem Sound.numbered (h : f.Sound m) : ∃ n, f.defined.Perm (List.range n) := by
  by_cases hb : f.bodies = []
  · exact ⟨0, by simp [defined, code, blocks, hb]⟩
  · refine ⟨f.registers, (List.perm_ext_iff_of_nodup h.nodup List.nodup_range).mpr fun d => ?_⟩
    rw [defined_eq hb, List.mem_range]
    refine ⟨h.once.below d, fun hd => ?_⟩
    rcases h.defines d hd with ⟨s, hs, rfl⟩ | ⟨k, hk, i, hi, hd⟩
    · exact List.mem_append_left _ (List.mem_map_of_mem hs)
    · exact List.mem_append_right _
        (List.mem_filterMap.mpr ⟨i, List.mem_flatMap.mpr ⟨k, hk, hi⟩, hd⟩)

theorem Sound.slotAt (h : f.Sound m) (hq : f.SlotAt r q) :
    q.block = 0 ∧ ∃ s, f.slots[q.offset]? = some s ∧ s.register = r := by
  obtain ⟨ty, hi⟩ := hq
  rcases h.instrAt hi with ⟨hb, s, hs, he⟩ | ⟨-, -, s, -, he⟩ | ⟨-, k, -, hfollows⟩
  · cases he
    exact ⟨hb, s, hs, rfl⟩
  · cases he
  · cases hfollows

end Provenance

/-! ## Paths -/

section Dominance

variable {f : Function} {path : List Point} {q : Point}

theorem Trail.above (h : f.Trail path q) {o : Nat} (ho : o ≤ q.offset) :
    ⟨q.block, o⟩ ∈ path := by
  induction h with
  | entry =>
    obtain rfl := Nat.le_zero.mp ho
    exact List.mem_singleton.mpr rfl
  | move _ hmove ih =>
    cases hmove with
    | @next b k =>
      by_cases hlast : o = k + 1
      · exact hlast ▸ List.mem_cons_self ..
      · exact List.mem_cons_of_mem _ (ih (Nat.le_of_lt_succ (Nat.lt_of_le_of_ne ho hlast)))
    | jump =>
      obtain rfl := Nat.le_zero.mp ho
      exact List.mem_cons_self ..

/-- A path that is outside the entry block has been through all of it. -/
theorem Trail.through (h : f.Trail path q) (hq : q.block ≠ 0) {l : Block}
    (hl : f.block? 0 = some l) {o : Nat} (ho : o ≤ l.instrs.length) : ⟨0, o⟩ ∈ path := by
  induction h with
  | entry => exact absurd rfl hq
  | move trail hmove ih =>
    refine List.mem_cons_of_mem _ ?_
    cases hmove with
    | next => exact ih hq
    | @jump b _ l' _ hl' =>
      by_cases hb : b = 0
      · subst hb
        obtain rfl := Option.some.inj (hl.symm.trans hl')
        exact trail.above ho
      · exact ih hb

end Dominance

end Function

/-! ## Lowered functions -/

section Lowered

variable {singlePass : Bool} {t : Tree} {m : Module} {id : Nat} {f : Function} {q : Point}
  {r : Nat} {ty : Ty}

theorem Tree.lower_functions_sound (h : (t.lower singlePass).result = .ok m)
    (hf : m.function? id = some f) : f.Sound m := by
  obtain ⟨hfits, hdefines, hseeded⟩ := Tree.lower_fits h hf
  exact ⟨hfits, hdefines, hseeded, (Tree.lower_changes h).stable Function.Once.stable nofun id f hf⟩

namespace Function.Sound

theorem definesAt_slot (hb : f.bodies ≠ []) {o : Nat} {s : Slot} (hs : f.slots[o]? = some s) :
    f.DefinesAt s.register ⟨0, o⟩ := ⟨_, instrAt_slot hb hs, rfl⟩

theorem not_takesAt (h : f.Sound m) (hq : f.SlotAt r q) (ty : Ty) (q' : Point) :
    ¬ f.TakesAt (.reg r ty) q' := by
  intro htakes
  obtain ⟨ty', hslot⟩ := hq
  rcases h.input htakes with hgiven | ⟨r', ty'', he, o, i, -, hi, hplain, hresult⟩
  · exact hgiven
  · cases he
    obtain rfl := instrAt_unique h.nodup hslot rfl hi (Instr.dest?_of_result? hresult)
    cases hplain

theorem slot_uses (h : f.Sound m) (hq : f.SlotAt r q) {q' : Point}
    (hr : f.ReadsAt (.reg r ty) q') :
    f.PointsAt (.reg r ty) q' ∧ ¬ f.TakesAt (.reg r ty) q' ∧
      (q'.block = 0 → q.offset < q'.offset) := by
  have hnot := h.not_takesAt hq ty q'
  have hp := (readsAt_iff.mp hr).resolve_right hnot
  refine ⟨hp, hnot, fun hb => ?_⟩
  obtain ⟨o, s, hs, he, hbefore⟩ := h.pointer hp
  cases he
  obtain ⟨ty', hslot⟩ := hq
  obtain rfl := definesAt_unique h.nodup ⟨_, hslot, rfl⟩
    (definesAt_slot (ne_nil_of_readsAt hr) hs)
  exact hbefore hb

theorem value_uses (h : f.Sound m) (hq : f.DefinesAt r q) (hnot : ¬ f.SlotAt r q) {q' : Point}
    (hr : f.ReadsAt (.reg r ty) q') : q'.block = q.block ∧ q.offset < q'.offset := by
  rcases readsAt_iff.mp hr with hp | htakes
  · obtain ⟨o, s, hs, he, -⟩ := h.pointer hp
    cases he
    have hslot := instrAt_slot (ne_nil_of_readsAt hr) hs
    obtain rfl := definesAt_unique h.nodup hq ⟨_, hslot, rfl⟩
    exact absurd ⟨s.ty, hslot⟩ hnot
  · rcases h.input htakes with hgiven | ⟨r', ty', he, o, i, ho, hi, -, hresult⟩
    · cases hgiven
    · cases he
      obtain rfl := definesAt_unique h.nodup hq ⟨i, hi, Instr.dest?_of_result? hresult⟩
      exact ⟨rfl, ho⟩

theorem dominates (h : f.Sound m) (hq : f.DefinesAt r q) {q' : Point}
    (hr : f.ReadsAt (.reg r ty) q') : f.Dominates q q' := by
  intro path htrail
  by_cases hslot : f.SlotAt r q
  · obtain ⟨hb, s, hs, -⟩ := h.slotAt hslot
    by_cases hb' : q'.block = 0
    · have hlt := (h.slot_uses hslot hr).2.2 hb'
      have hmem := htrail.above (Nat.le_of_lt hlt)
      rwa [hb', ← hb] at hmem
    · obtain ⟨l, hl, hi⟩ := instrAt_slot (ne_nil_of_readsAt hr) hs
      have hmem := htrail.through hb' hl (Nat.le_of_lt (List.getElem?_eq_some_iff.mp hi).1)
      rwa [← hb] at hmem
  · obtain ⟨hb, hlt⟩ := h.value_uses hq hslot hr
    have hmem := htrail.above (Nat.le_of_lt hlt)
    rwa [hb] at hmem

theorem not_mem_successors (h : f.Sound m) (b : Nat) : 0 ∉ f.successors b := by
  unfold Function.successors
  split
  · rename_i x hx
    obtain ⟨l, hl, hx⟩ := Option.bind_eq_some_iff.mp hx
    obtain ⟨k, hk, rfl⟩ := block?_eq_some.mp hl
    have hfollows := (h.fits ⟨b, k.instrs.length⟩ k hk).2 rfl x hx
    cases x with
    | br j => exact fun hmem => hfollows (List.mem_singleton.mp hmem).symm
    | condBr c yes no =>
      obtain ⟨-, -, hyes, hno⟩ := hfollows
      simp [Terminator.successors, hyes.symm, hno.symm]
    | ret v => simp [Terminator.successors]
  · simp

end Function.Sound

/-- Lowered functions are in single-assignment form. -/
theorem Tree.lower_singleAssignment (h : (t.lower singlePass).result = .ok m)
    (hf : m.function? id = some f) : f.SingleAssignment where
  numbered := (Tree.lower_functions_sound h hf).numbered
  defined r ty q hr := by
    have hsound := Tree.lower_functions_sound h hf
    rcases Function.readsAt_iff.mp hr with hp | htakes
    · obtain ⟨o, s, hs, he, -⟩ := hsound.pointer hp
      cases he
      exact ⟨_, Function.Sound.definesAt_slot (Function.ne_nil_of_readsAt hr) hs⟩
    · rcases hsound.input htakes with hgiven | ⟨r', ty', he, o, i, -, hi, -, hresult⟩
      · cases hgiven
      · cases he
        exact ⟨_, i, hi, Instr.dest?_of_result? hresult⟩
  slots r q hq := by
    have hsound := Tree.lower_functions_sound h hf
    exact ⟨(hsound.slotAt hq).1, fun ty q' => hsound.slot_uses hq⟩
  values r q hq hnot ty q' := (Tree.lower_functions_sound h hf).value_uses hq hnot
  entry := by
    have hsound := Tree.lower_functions_sound h hf
    refine ⟨hsound.not_mem_successors, ?_⟩
    simp [Function.predecessors, hsound.not_mem_successors]
  dominates r ty q q' hq hr := (Tree.lower_functions_sound h hf).dominates hq hr

end Lowered

/-- With `#define STEP 1` above it:
`int f(int n) { int k = 0; while (n) { n = n - STEP; printf(n); k += n; } return k; }` -/
def Tree.countdown : Tree :=
  bare .program ""
    [bare .preprocessorDirective "#define" [bare .identifier "STEP" [], bare .literal "1" []],
      bare .functionDeclaration "f"
        [bare .identifier "int" [],
          bare .parameters "" [bare .variableDeclaration "n" [bare .identifier "int" []]],
          bare .block ""
            [bare .variableDeclaration "k" [bare .identifier "int" [], bare .literal "0" []],
              bare .whileStatement ""
                [bare .identifier "n" [],
                  bare .block ""
                    [bare .assignment "n"
                      [bare .identifier "=" [], bare .binaryExpression "-"
                        [bare .identifier "n" [], bare .identifier "STEP" []]],
                      bare .functionCall "printf" [bare .identifier "n" []],
                      bare .assignment "k" [bare .identifier "+=" [], bare .identifier "n" []]]],
              bare .returnStatement "" [bare .identifier "k" []]]]]

theorem Tree.countdown_singleAssignment :
    ∃ m f, (Tree.countdown.lower true).result = .ok m ∧ m.function? 0 = some f ∧
      f.defined.length = 12 ∧ f.SingleAssignment := by
  obtain ⟨m, hm⟩ : ∃ m, (Tree.countdown.lower true).result = .ok m :=
    Lower.except_of_isOk (by decide +kernel)
  have hlength : ((Tree.countdown.lower true).result.toOption.bind (·.function? 0)).map
      (·.defined.length) = some 12 := by decide +kernel
  rw [hm] at hlength
  obtain ⟨f, hf, hlength⟩ := Option.map_eq_some_iff.mp hlength
  exact ⟨m, f, hm, hf, hlength, Tree.lower_singleAssignment hm hf⟩

end TreeFlow
