import Mathlib.Logic.Relation
import TreeFlow.Proofs.Layout

/-!
# Paths through a function

A point of a function stands before an instruction or before the terminator of
a block. Control moves to the next point of the block and from a terminator to
the head of each target, whatever the values are. A value is read stale when a
path leads from a store that follows the prologue to a read of what the slot was
seeded with. Inside the bodies of a function, such a path is counted by its
jumps.
-/

set_option autoImplicit false

namespace TreeFlow

structure Point where
  block : Nat
  offset : Nat
  deriving DecidableEq, Repr

namespace Function

inductive Moves (f : Function) : Point → Point → Prop
  | next {b k : Nat} {l : Block} (block : f.block? b = some l) (inside : k < l.instrs.length) :
      Moves f ⟨b, k⟩ ⟨b, k + 1⟩
  | jump {b j : Nat} {l : Block} {x : Terminator} (block : f.block? b = some l)
      (ends : l.terminator = some x) (target : j ∈ x.successors) :
      Moves f ⟨b, l.instrs.length⟩ ⟨j, 0⟩

def StoresAt (f : Function) (p : Value) (q : Point) : Prop :=
  ∃ l v, f.block? q.block = some l ∧ l.instrs[q.offset]? = some (.store v p)

def ReadsAt (f : Function) (v : Value) (q : Point) : Prop :=
  ∃ l, f.block? q.block = some l ∧
    ((∃ i, l.instrs[q.offset]? = some i ∧ v ∈ i.operands) ∨
      q.offset = l.instrs.length ∧ ∃ x, l.terminator = some x ∧ v ∈ x.operands)

def InPrologue (f : Function) (q : Point) : Prop := q.block = 0 ∧ q.offset < f.prologue.length

/-- The point is where the prologue seeds `p` with `v`. -/
def SeedsAt (f : Function) (v p : Value) (q : Point) : Prop :=
  q.block = 0 ∧ f.prologue[q.offset]? = some (.store v p)

/-- Some path leads from a store to `p` that follows the prologue to a read of
`v`, other than the one that seeds `p`. -/
def ReadsStale (f : Function) (v p : Value) : Prop :=
  ∃ q q', f.StoresAt p q ∧ ¬ f.InPrologue q ∧ Relation.TransGen f.Moves q q' ∧ f.ReadsAt v q' ∧
    ¬ f.SeedsAt v p q'

/-! ## Bodies and blocks -/

def lead (f : Function) (b : Nat) : List Instr := if b = 0 then f.prologue else []

variable {f : Function} {v p : Value} {n b k : Nat}

theorem block?_eq_some {l : Block} :
    f.block? b = some l ↔
      ∃ k, f.bodies[b]? = some k ∧ l = { k with instrs := f.lead b ++ k.instrs } := by
  unfold block? blocks lead
  cases hb : f.bodies with
  | nil => simp
  | cons k ks => cases b <;> simp [eq_comm]

theorem inPrologue_iff {q : Point} : f.InPrologue q ↔ q.offset < (f.lead q.block).length := by
  unfold InPrologue lead
  split <;> simp_all

/-- A read is met after some jumps from inside the body of a block. -/
def Meets (f : Function) (v : Value) : Nat → Nat → Nat → Prop
  | 0, b, k => ∃ l, f.bodies[b]? = some l ∧
      ((∃ i ∈ l.instrs.drop k, v ∈ i.operands) ∨ ∃ x, l.terminator = some x ∧ v ∈ x.operands)
  | n + 1, b, _ => ∃ l x j, f.bodies[b]? = some l ∧ l.terminator = some x ∧ j ∈ x.successors ∧
      Meets f v n j 0

def Writes (f : Function) (p : Value) (b k : Nat) : Prop :=
  ∃ l v, f.bodies[b]? = some l ∧ l.instrs[k]? = some (.store v p)

theorem Meets.earlier {k' : Nat} (h : f.Meets v n b k) (hk : k' ≤ k) : f.Meets v n b k' := by
  cases n with
  | zero =>
    obtain ⟨l, hl, hread⟩ := h
    refine ⟨l, hl, hread.imp_left ?_⟩
    rintro ⟨i, hi, hv⟩
    exact ⟨i, (List.drop_sublist_drop_left l.instrs hk).subset hi, hv⟩
  | succ n => exact h

theorem meets_of_path {q q' : Point} (hpath : Relation.ReflTransGen f.Moves q q')
    (hread : f.ReadsAt v q') (hout : ¬ f.InPrologue q') :
    ∃ n, f.Meets v n q.block (q.offset - (f.lead q.block).length) := by
  induction hpath using Relation.ReflTransGen.head_induction_on with
  | refl =>
    rw [inPrologue_iff, Nat.not_lt] at hout
    obtain ⟨l, hl, hat⟩ := hread
    obtain ⟨k, hk, rfl⟩ := block?_eq_some.mp hl
    refine ⟨0, k, hk, ?_⟩
    rcases hat with ⟨i, hi, hv⟩ | ⟨-, hx⟩
    · rw [List.getElem?_append_right hout] at hi
      refine .inl ⟨i, List.mem_of_getElem? (i := 0) ?_, hv⟩
      rw [List.getElem?_drop]
      exact hi
    · exact .inr hx
  | head hmove _ ih =>
    obtain ⟨n, ih⟩ := ih
    cases hmove with
    | next => exact ⟨n, ih.earlier (Nat.sub_le_sub_right (Nat.le_succ _) _)⟩
    | jump hl hx hj =>
      obtain ⟨k, hk, rfl⟩ := block?_eq_some.mp hl
      rw [Nat.zero_sub] at ih
      exact ⟨n + 1, k, _, _, hk, hx, hj, ih⟩

theorem moves_along {l : Block} (hl : f.block? b = some l) {k k' : Nat} (hk : k ≤ k')
    (hk' : k' ≤ l.instrs.length) : Relation.ReflTransGen f.Moves ⟨b, k⟩ ⟨b, k'⟩ := by
  induction hk with
  | refl => exact .refl
  | step hle ih => exact (ih (Nat.le_of_succ_le hk')).tail (.next hl hk')

theorem path_of_meets {l : Block} (hl : f.bodies[b]? = some l) (hk : k ≤ l.instrs.length)
    (h : f.Meets v n b k) :
    ∃ q', Relation.ReflTransGen f.Moves ⟨b, (f.lead b).length + k⟩ q' ∧ f.ReadsAt v q' ∧
      ¬ f.InPrologue q' := by
  induction n generalizing b k l with
  | zero =>
    obtain ⟨l', hl', hread⟩ := h
    obtain rfl := Option.some.inj (hl.symm.trans hl')
    have hblock := block?_eq_some.mpr ⟨l, hl, rfl⟩
    rcases hread with ⟨i, hi, hv⟩ | hx
    · obtain ⟨d, hd⟩ := List.getElem?_of_mem hi
      rw [List.getElem?_drop] at hd
      have hlt := (List.getElem?_eq_some_iff.mp hd).1
      refine ⟨⟨b, (f.lead b).length + (k + d)⟩, moves_along hblock (by omega) (by simp; omega),
        ⟨_, hblock, .inl ⟨i, ?_, hv⟩⟩, ?_⟩
      · simpa [List.getElem?_append_right] using hd
      · simp [inPrologue_iff]
    · refine ⟨⟨b, (f.lead b).length + l.instrs.length⟩,
        moves_along hblock (by omega) (by simp), ⟨_, hblock, .inr ⟨by simp, hx⟩⟩, ?_⟩
      simp [inPrologue_iff]
  | succ n ih =>
    obtain ⟨l', x, j, hl', hx, hj, h⟩ := h
    obtain rfl := Option.some.inj (hl.symm.trans hl')
    have hblock := block?_eq_some.mpr ⟨l, hl, rfl⟩
    obtain ⟨t, ht⟩ : ∃ t, f.bodies[j]? = some t := by
      cases n with
      | zero => exact ⟨h.choose, h.choose_spec.1⟩
      | succ n => exact ⟨h.choose, h.choose_spec.choose_spec.choose_spec.1⟩
    obtain ⟨q', hpath, hread⟩ := ih ht (Nat.zero_le _) h
    have htarget := block?_eq_some.mpr ⟨t, ht, rfl⟩
    refine ⟨q', ?_, hread⟩
    -- A jump to the entry block runs through the prologue first.
    have hlead := moves_along htarget (Nat.zero_le (f.lead j).length) (by simp)
    have hend : Relation.ReflTransGen f.Moves ⟨b, (f.lead b).length + k⟩
        ⟨b, (f.lead b ++ l.instrs).length⟩ :=
      moves_along hblock (by simp; omega) (by simp)
    exact (hend.tail (.jump hblock hx hj)).trans (hlead.trans hpath)

def SeedsOnly (f : Function) (v p : Value) : Prop :=
  ∀ s ∈ f.seeds, (s.value = v → s.pointer = p) ∧ s.pointer ≠ v

theorem SeedsOnly.outside (h : f.SeedsOnly v p) {q : Point} (hread : f.ReadsAt v q)
    (hseeds : ¬ f.SeedsAt v p q) : ¬ f.InPrologue q := by
  rintro ⟨hb, hlt⟩
  obtain ⟨b, k⟩ := q
  obtain rfl : b = 0 := hb
  obtain ⟨l, hl, hat⟩ := hread
  obtain ⟨body, hbody, rfl⟩ := block?_eq_some.mp hl
  have hlead : f.lead 0 = f.prologue := rfl
  simp only [hlead] at hat hlt
  rcases hat with ⟨i, hi, hv⟩ | ⟨hend, -⟩
  · rw [List.getElem?_append_left hlt] at hi
    have hmem := List.mem_of_getElem? hi
    simp only [prologue, List.mem_append, List.mem_map] at hmem
    rcases hmem with ⟨s, -, rfl⟩ | ⟨s, hs, rfl⟩
    · cases hv
    · obtain ⟨honly, hne⟩ := h s hs
      simp only [Seed.instr, Instr.operands, List.mem_cons, List.not_mem_nil, or_false] at hv
      rcases hv with rfl | rfl
      · refine hseeds ⟨rfl, ?_⟩
        rw [← honly rfl]
        exact hi
      · exact hne rfl
  · simp only [List.length_append] at hend
    omega

/-- Stale reads, told inside the bodies. -/
theorem readsStale_iff (h : f.SeedsOnly v p) :
    f.ReadsStale v p ↔ ∃ b k n, f.Writes p b k ∧ f.Meets v n b (k + 1) := by
  constructor
  · rintro ⟨⟨b, k⟩, q', ⟨l, w, hl, hw⟩, hout, hpath, hread, hseeds⟩
    rw [inPrologue_iff, Nat.not_lt] at hout
    obtain ⟨body, hbody, rfl⟩ := block?_eq_some.mp hl
    rw [List.getElem?_append_right hout] at hw
    have hlt := (List.getElem?_eq_some_iff.mp hw).1
    obtain ⟨q, hmove, hpath⟩ := Relation.TransGen.head'_iff.mp hpath
    obtain ⟨n, hmeets⟩ := meets_of_path hpath hread (h.outside hread hseeds)
    refine ⟨b, k - (f.lead b).length, n, ⟨body, w, hbody, hw⟩, ?_⟩
    cases hmove with
    | next =>
      rwa [show k + 1 - (f.lead b).length = k - (f.lead b).length + 1 by
        simp only at hout; omega] at hmeets
    | jump hl' =>
      obtain ⟨body', hbody', rfl⟩ := block?_eq_some.mp hl'
      obtain rfl := Option.some.inj (hbody.symm.trans hbody')
      simp at hlt
  · rintro ⟨b, k, n, ⟨body, w, hbody, hw⟩, hmeets⟩
    have hblock := block?_eq_some.mpr ⟨body, hbody, rfl⟩
    have hlt := (List.getElem?_eq_some_iff.mp hw).1
    obtain ⟨q', hpath, hread, hout⟩ := path_of_meets hbody hlt hmeets
    refine ⟨⟨b, (f.lead b).length + k⟩, q', ⟨_, w, hblock, ?_⟩, ?_, ?_, hread, ?_⟩
    · simpa [List.getElem?_append_right] using hw
    · simp [inPrologue_iff]
    · exact .head' (.next hblock (by simp; omega)) hpath
    · rintro ⟨hb, hs⟩
      exact hout ⟨hb, (List.getElem?_eq_some_iff.mp hs).1⟩

end Function

end TreeFlow
