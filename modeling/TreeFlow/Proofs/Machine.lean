import TreeFlow.Flow.Module
import TreeFlow.Lowering.Shape

/-!
# Running a flow graph

A function runs on a frame: its registers and the cells behind its stack slots.
The meaning of the operators is a parameter, and any of them may have no result.
A run is cut at its jumps: it executes what is left of a block, then goes on in
the block that the terminator selects. `Halts n` says that a run returns after
`n` jumps.
-/

set_option autoImplicit false

namespace TreeFlow

inductive Datum where
  | int (n : Int)
  | truth (b : Bool)
  | cell (slot : Nat)
  | text (id : Nat)
  deriving DecidableEq, Repr

structure Print where
  format : List UInt8
  args : List Datum
  deriving DecidableEq, Repr

abbrev Trace := List Print

/-- What the operators compute, where they compute anything. -/
structure Interpretation where
  arith : Arith → Int → Int → Option Int
  arithTruth : Arith → Bool → Bool → Option Bool
  compare : Compare → Int → Int → Option Bool
  compareTruth : Compare → Bool → Bool → Option Bool
  printed : Print → Int
  /-- The content of a variable that was never written. -/
  blank : Int

namespace Interpretation

def apply (I : Interpretation) : Operator → Datum → Datum → Option Datum
  | .arith op, .int a, .int b => (I.arith op a b).map .int
  | .arith op, .truth a, .truth b => (I.arithTruth op a b).map .truth
  | .compare test, .int a, .int b => (I.compare test a b).map .truth
  | .compare test, .truth a, .truth b => (I.compareTruth test a b).map .truth
  | _, _, _ => none

def test (I : Interpretation) : Datum → Option Bool
  | .truth b => some b
  | .int n => I.compare .ne n 0
  | _ => none

end Interpretation

/-- What calls do: a relation between a callee, its arguments, the trace of the
call and its result. -/
abbrev CallRel (ι : Type) := ι → List Datum → Trace → Option Datum → Prop

/-! ## Frames -/

structure Frame where
  registers : Nat → Option Datum
  memory : Nat → Option Datum

namespace Frame

def empty : Frame := ⟨fun _ => none, fun _ => none⟩

def set (fr : Frame) (d : Nat) (x : Datum) : Frame :=
  { fr with registers := fun i => if i = d then some x else fr.registers i }

def write (fr : Frame) (c : Nat) (x : Datum) : Frame :=
  { fr with memory := fun i => if i = c then some x else fr.memory i }

variable (fr : Frame) (d : Nat) (x : Datum)

@[simp] theorem registers_set (i : Nat) :
    (fr.set d x).registers i = if i = d then some x else fr.registers i := rfl

@[simp] theorem memory_set : (fr.set d x).memory = fr.memory := rfl

@[simp] theorem registers_write : (fr.write d x).registers = fr.registers := rfl

@[simp] theorem memory_write (i : Nat) :
    (fr.write d x).memory i = if i = d then some x else fr.memory i := rfl

end Frame

def Value.read (args : List Datum) (fr : Frame) : Value → Option Datum
  | .const .i1 n => some (.truth (n != 0))
  | .const _ n => some (.int n)
  | .param i _ => args[i]?
  | .reg r _ => fr.registers r
  | .global g _ => some (.text g)

/-! ## Instructions -/

section Running

variable (I : Interpretation) (call : CallRel Nat) (args : List Datum)

def Instr.Runs : Instr → Frame → Trace → Frame → Prop
  | .alloca d _, fr, t, fr' => t = [] ∧ fr' = (fr.set d (.cell d)).write d (.int I.blank)
  | .load d _ p, fr, t, fr' =>
    t = [] ∧ ∃ c x, p.read args fr = some (.cell c) ∧ fr.memory c = some x ∧ fr' = fr.set d x
  | .store v p, fr, t, fr' =>
    t = [] ∧ ∃ c x, p.read args fr = some (.cell c) ∧ v.read args fr = some x ∧ fr' = fr.write c x
  | .binary d op l r, fr, t, fr' =>
    t = [] ∧ ∃ x y z, l.read args fr = some x ∧ r.read args fr = some y ∧
      I.apply (.arith op) x y = some z ∧ fr' = fr.set d z
  | .icmp d test l r, fr, t, fr' =>
    t = [] ∧ ∃ x y z, l.read args fr = some x ∧ r.read args fr = some y ∧
      I.apply (.compare test) x y = some z ∧ fr' = fr.set d z
  | .call (some d) callee vs, fr, t, fr' =>
    ∃ xs x, vs.mapM (Value.read args fr) = some xs ∧ call callee xs t (some x) ∧ fr' = fr.set d x
  | .call none callee vs, fr, t, fr' =>
    ∃ xs r, vs.mapM (Value.read args fr) = some xs ∧ call callee xs t r ∧ fr' = fr

def CodeRuns : List Instr → Frame → Trace → Frame → Prop
  | [], fr, t, fr' => t = [] ∧ fr' = fr
  | i :: is, fr, t, fr' =>
    ∃ t₁ fr₁ t₂, i.Runs I call args fr t₁ fr₁ ∧ CodeRuns is fr₁ t₂ fr' ∧ t = t₁ ++ t₂

def Terminator.Goes (fr : Frame) : Terminator → Nat → Prop
  | .br j, i => i = j
  | .condBr v yes no, i => ∃ b, v.read args fr = some (.truth b) ∧ i = if b then yes else no
  | .ret _, _ => False

def Terminator.Returns (fr : Frame) : Terminator → Option Datum → Prop
  | .ret none, r => r = none
  | .ret (some v), r => ∃ x, v.read args fr = some x ∧ r = some x
  | _, _ => False

/-- From what is left of a block, the function returns after some jumps. -/
def Function.Halts (f : Function) :
    Nat → List Instr → Terminator → Frame → Trace → Option Datum → Prop
  | 0, code, x, fr, t, r => ∃ fr', CodeRuns I call args code fr t fr' ∧ x.Returns args fr' r
  | n + 1, code, x, fr, t, r =>
    ∃ t₁ fr₁ t₂, CodeRuns I call args code fr t₁ fr₁ ∧ t = t₁ ++ t₂ ∧
      ∃ j k y, x.Goes args fr₁ j ∧ f.block? j = some k ∧ k.terminator = some y ∧
        f.Halts n k.instrs y fr₁ t₂ r

end Running

/-! ## Calls -/

/-- A function without a body is the intrinsic: it prints its arguments under
the format that the first of them points to. -/
def Module.Prints (m : Module) (I : Interpretation) (args : List Datum) (t : Trace)
    (r : Option Datum) : Prop :=
  ∃ g e xs, args = .text g :: xs ∧ m.globals[g]? = some e ∧ t = [⟨e.bytes, xs⟩] ∧
    r = some (.int (I.printed ⟨e.bytes, xs⟩))

/-- A call of the function at a position returns, with at most `depth` calls
inside each other. -/
def Module.Calls (m : Module) (I : Interpretation) : Nat → CallRel Nat
  | 0, _, _, _, _ => False
  | depth + 1, id, args, t, r =>
    ∃ f, m.function? id = some f ∧
      if f.isDeclaration then m.Prints I args t r
      else ∃ n k x, f.block? 0 = some k ∧ k.terminator = some x ∧
        f.Halts I (m.Calls I depth) args n k.instrs x .empty t r

/-! ## Code in sequence -/

section Sequence

variable {I : Interpretation} {call : CallRel Nat} {args : List Datum} {fr fr' : Frame}
  {t : Trace} {code rest : List Instr}

@[simp] theorem codeRuns_nil : CodeRuns I call args [] fr t fr' ↔ t = [] ∧ fr' = fr := Iff.rfl

theorem codeRuns_append :
    CodeRuns I call args (code ++ rest) fr t fr' ↔
      ∃ t₁ fr₁ t₂, CodeRuns I call args code fr t₁ fr₁ ∧ CodeRuns I call args rest fr₁ t₂ fr' ∧
        t = t₁ ++ t₂ := by
  induction code generalizing fr t with
  | nil =>
    constructor
    · intro h
      exact ⟨[], fr, t, ⟨rfl, rfl⟩, h, rfl⟩
    · rintro ⟨_, _, t₂, ⟨rfl, rfl⟩, h, rfl⟩
      exact h
  | cons i code ih =>
    constructor
    · rintro ⟨t₁, fr₁, t₂, hi, hrest, rfl⟩
      obtain ⟨t₃, fr₂, t₄, hcode, hend, rfl⟩ := ih.mp hrest
      exact ⟨t₁ ++ t₃, fr₂, t₄, ⟨t₁, fr₁, t₃, hi, hcode, rfl⟩, hend, by simp⟩
    · rintro ⟨_, fr₂, t₄, ⟨t₁, fr₁, t₃, hi, hcode, rfl⟩, hend, rfl⟩
      exact ⟨t₁, fr₁, t₃ ++ t₄, hi, ih.mpr ⟨t₃, fr₂, t₄, hcode, hend, rfl⟩, by simp⟩

theorem codeRuns_one {i : Instr} :
    CodeRuns I call args [i] fr t fr' ↔ i.Runs I call args fr t fr' := by
  constructor
  · rintro ⟨t₁, fr₁, t₂, hi, ⟨rfl, rfl⟩, rfl⟩
    simpa using hi
  · intro h
    exact ⟨t, fr', [], h, ⟨rfl, rfl⟩, by simp⟩

theorem Function.halts_append {f : Function} {n : Nat} {x : Terminator} {r : Option Datum} :
    f.Halts I call args n (code ++ rest) x fr t r ↔
      ∃ t₁ fr₁ t₂, CodeRuns I call args code fr t₁ fr₁ ∧
        f.Halts I call args n rest x fr₁ t₂ r ∧ t = t₁ ++ t₂ := by
  cases n with
  | zero =>
    simp only [Function.Halts, codeRuns_append]
    constructor
    · rintro ⟨fr', ⟨t₁, fr₁, t₂, hcode, hrest, rfl⟩, hr⟩
      exact ⟨t₁, fr₁, t₂, hcode, ⟨fr', hrest, hr⟩, rfl⟩
    · rintro ⟨t₁, fr₁, t₂, hcode, ⟨fr', hrest, hr⟩, rfl⟩
      exact ⟨fr', ⟨t₁, fr₁, t₂, hcode, hrest, rfl⟩, hr⟩
  | succ n =>
    simp only [Function.Halts, codeRuns_append]
    constructor
    · rintro ⟨_, fr₂, t₃, ⟨t₁, fr₁, t₂, hcode, hrest, rfl⟩, rfl, hgo⟩
      exact ⟨t₁, fr₁, t₂ ++ t₃, hcode, ⟨t₂, fr₂, t₃, hrest, rfl, hgo⟩, by simp⟩
    · rintro ⟨t₁, fr₁, _, hcode, ⟨t₂, fr₂, t₃, hrest, rfl, hgo⟩, rfl⟩
      exact ⟨t₁ ++ t₂, fr₂, t₃, ⟨t₁, fr₁, t₂, hcode, hrest, rfl⟩, by simp, hgo⟩

/-! ## What code leaves alone -/

theorem Instr.Runs.registers {i : Instr} (h : i.Runs I call args fr t fr') {d : Nat}
    (hd : i.dest? ≠ some d) : fr'.registers d = fr.registers d := by
  cases i with
  | alloca e ty =>
    obtain ⟨-, rfl⟩ := h
    have hne : d ≠ e := fun he => hd (he ▸ rfl)
    simp [hne]
  | load e ty p =>
    obtain ⟨-, c, x, -, -, rfl⟩ := h
    have hne : d ≠ e := fun he => hd (he ▸ rfl)
    simp [hne]
  | store v p =>
    obtain ⟨-, c, x, -, -, rfl⟩ := h
    rfl
  | binary e op l r =>
    obtain ⟨-, x, y, z, -, -, -, rfl⟩ := h
    have hne : d ≠ e := fun he => hd (he ▸ rfl)
    simp [hne]
  | icmp e test l r =>
    obtain ⟨-, x, y, z, -, -, -, rfl⟩ := h
    have hne : d ≠ e := fun he => hd (he ▸ rfl)
    simp [hne]
  | call e callee vs =>
    cases e with
    | none =>
      obtain ⟨xs, r, -, -, rfl⟩ := h
      rfl
    | some e =>
      obtain ⟨xs, x, -, -, rfl⟩ := h
      have hne : d ≠ e := fun he => hd (he ▸ rfl)
      simp [hne]

def Instr.isPure : Instr → Bool
  | .alloca _ _ | .store _ _ => false
  | _ => true

theorem Instr.Runs.memory {i : Instr} (h : i.Runs I call args fr t fr') (hi : i.isPure = true) :
    fr'.memory = fr.memory := by
  cases i with
  | alloca => cases hi
  | store => cases hi
  | load e ty p =>
    obtain ⟨-, c, x, -, -, rfl⟩ := h
    rfl
  | binary e op l r =>
    obtain ⟨-, x, y, z, -, -, -, rfl⟩ := h
    rfl
  | icmp e test l r =>
    obtain ⟨-, x, y, z, -, -, -, rfl⟩ := h
    rfl
  | call e callee vs =>
    cases e with
    | none =>
      obtain ⟨xs, r, -, -, rfl⟩ := h
      rfl
    | some e =>
      obtain ⟨xs, x, -, -, rfl⟩ := h
      rfl

theorem CodeRuns.registers (h : CodeRuns I call args code fr t fr') {d : Nat}
    (hd : ∀ i ∈ code, i.dest? ≠ some d) : fr'.registers d = fr.registers d := by
  induction code generalizing fr t with
  | nil =>
    obtain ⟨-, rfl⟩ := h
    rfl
  | cons i code ih =>
    obtain ⟨t₁, fr₁, t₂, hi, hcode, -⟩ := h
    rw [ih hcode fun i hi => hd i (by simp [hi]), hi.registers (hd i (by simp))]

theorem CodeRuns.memory (h : CodeRuns I call args code fr t fr')
    (hc : ∀ i ∈ code, i.isPure = true) : fr'.memory = fr.memory := by
  induction code generalizing fr t with
  | nil =>
    obtain ⟨-, rfl⟩ := h
    rfl
  | cons i code ih =>
    obtain ⟨t₁, fr₁, t₂, hi, hcode, -⟩ := h
    rw [ih hcode fun i hi => hc i (by simp [hi]), hi.memory (hc i (by simp))]

end Sequence

end TreeFlow
