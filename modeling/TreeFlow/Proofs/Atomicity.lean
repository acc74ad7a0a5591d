import TreeFlow.Proofs.History

/-!
# Failed operations

An operation that fails leaves the function as it was, with one exception. A slot
takes its register before the entry block is looked for, so asking for one in a
function without blocks fails and wastes the register. Nothing else of the
function changes then, and whatever is done later returns what it would have
returned, with registers that are one further on.
-/

set_option autoImplicit false

namespace TreeFlow

/-! ## Outcomes -/

def Value.raise (n : Nat) : Value → Value
  | .reg d ty => .reg (d + n) ty
  | v => v

/-- The outcome with its register `n` further on. -/
def Outcome.raise (n : Nat) : Outcome → Outcome
  | .value v => .value (v.raise n)
  | o => o

namespace Op

def outcome (f : Function) (op : Op) : Except BuildFault Outcome :=
  match op.apply f with
  | .ok o _ => .ok o
  | .error e _ => .error e

def outcomes : Function → List Op → List (Except BuildFault Outcome)
  | _, [] => []
  | f, op :: ops => op.outcome f :: outcomes (step f op) ops

end Op

/-! ## Functions that are ahead -/

/-- To the builder the two functions differ in the number of the next register
only. -/
structure Function.Ahead (n : Nat) (f g : Function) : Prop where
  registers : g.registers = f.registers + n
  name : g.name = f.name
  length : g.bodies.length = f.bodies.length
  ends : ∀ b : Nat, g.bodies[b]?.map Block.terminator = f.bodies[b]?.map Block.terminator

namespace Function.Ahead

variable {n : Nat} {f g : Function}

theorem nil_iff (h : f.Ahead n g) : g.bodies = [] ↔ f.bodies = [] := by
  rw [← List.length_eq_zero_iff, h.length, List.length_eq_zero_iff]

theorem takeRegister (h : f.Ahead n g) : f.takeRegister.Ahead n g.takeRegister := by
  refine ⟨?_, h.name, h.length, h.ends⟩
  show g.registers + 1 = f.registers + 1 + n
  rw [h.registers]
  omega

theorem append (h : f.Ahead n g) (b : Nat) (i j : Instr) :
    (f.append b i).Ahead n (g.append b j) := by
  refine ⟨h.registers, h.name, by simp [h.length], fun c => ?_⟩
  rw [Function.bodies_append, Function.bodies_append]
  split
  · rw [Option.map_map, Option.map_map]
    exact h.ends c
  · exact h.ends c

theorem close (h : f.Ahead n g) (b : Nat) (t : Terminator) :
    (f.close b t).Ahead n (g.close b t) := by
  refine ⟨h.registers, h.name, by simp [h.length], fun c => ?_⟩
  rw [Function.bodies_close, Function.bodies_close]
  split
  · have hends := congrArg (Option.map fun _ => some t) (h.ends c)
    rw [Option.map_map, Option.map_map] at hends ⊢
    exact hends
  · exact h.ends c

theorem addBlock (h : f.Ahead n g) (label : String) :
    (f.addBlock label).Ahead n (g.addBlock label) := by
  refine ⟨h.registers, h.name, by simp [h.length], fun c => ?_⟩
  rw [Function.bodies_addBlock, Function.bodies_addBlock, h.length]
  split
  · rfl
  · exact h.ends c

theorem openBlock (h : f.Ahead n g) (b : Nat) :
    (∃ k l, f.openBlock b = .ok k ∧ g.openBlock b = .ok l) ∨
      ∃ e, f.openBlock b = .error e ∧ g.openBlock b = .error e := by
  have hends := h.ends b
  unfold Function.openBlock
  cases hk : f.bodies[b]? with
  | none =>
    rw [hk, Option.map_none, Option.map_eq_none_iff] at hends
    exact .inr ⟨_, rfl, by rw [hends]⟩
  | some k =>
    rw [hk, Option.map_some] at hends
    obtain ⟨l, hl, hend⟩ := Option.map_eq_some_iff.mp hends
    have hterminated : l.terminated = k.terminated := congrArg Option.isSome hend
    rw [hl]
    dsimp only
    rw [hterminated]
    cases k.terminated with
    | true => exact .inr ⟨_, rfl, rfl⟩
    | false => exact .inl ⟨k, l, rfl, rfl⟩

end Function.Ahead

namespace Build

variable {α β : Type} {n : Nat}

inductive Raised (n : Nat) (raise : α → α) :
    EStateM.Result BuildFault Function α → EStateM.Result BuildFault Function α → Prop
  | ok {a : α} {f g : Function} (ahead : f.Ahead n g) : Raised n raise (.ok a f) (.ok (raise a) g)
  | error {e : BuildFault} {f g : Function} (ahead : f.Ahead n g) :
      Raised n raise (.error e f) (.error e g)

/-- The operation does to a function that is ahead what it does to the other
one. -/
def Raises (n : Nat) (raise : α → α) (x : Build α) : Prop :=
  ∀ ⦃f g : Function⦄, f.Ahead n g → Raised n raise (x f) (x g)

theorem Raises.map {raise : α → α} {raise' : β → β} {x : Build α} (hx : Raises n raise x)
    {k : α → β} (hk : ∀ a, k (raise a) = raise' (k a)) : Raises n raise' (k <$> x) := by
  intro f g h
  change Raised n raise' (EStateM.map k x f) (EStateM.map k x g)
  unfold EStateM.map
  have hraised := hx h
  generalize x f = r, x g = r' at hraised ⊢
  cases hraised with
  | ok ahead =>
    dsimp only
    rw [hk]
    exact .ok ahead
  | error ahead => exact .error ahead

theorem raises_newBlock (label : String) : Raises n id (newBlock label) := by
  intro f g h
  have hrun : ∀ k : Function, newBlock label k = .ok k.bodies.length (k.addBlock label) :=
    fun _ => rfl
  rw [hrun, hrun, h.length]
  exact .ok (h.addBlock label)

theorem raises_alloca (ty : Ty) : Raises n (Value.raise n) (alloca ty) := by
  intro f g h
  by_cases hb : f.bodies = []
  · rw [alloca_of_empty hb, alloca_of_empty (h.nil_iff.mpr hb), h.name]
    exact .error h.takeRegister
  · rw [alloca_of hb, alloca_of (mt h.nil_iff.mp hb), h.registers]
    have htaken := h.takeRegister
    exact .ok (a := Value.reg f.registers (.ptr ty)) { htaken with }

theorem raises_seed (v p : Value) : Raises n id (seed v p) := by
  intro f g h
  by_cases hb : f.bodies = []
  · rw [seed_of_empty hb, seed_of_empty (h.nil_iff.mpr hb), h.name]
    exact .error h
  · rw [seed_of hb, seed_of (mt h.nil_iff.mp hb)]
    exact .ok { h with }

theorem raises_perform (b : Nat) (i : Instr) : Raises n id (perform b i) := by
  intro f g h
  unfold perform
  rcases h.openBlock b with ⟨k, l, hk, hl⟩ | ⟨e, hf, hg⟩
  · rw [hk, hl]
    exact .ok (h.append b i i)
  · rw [hf, hg]
    exact .error h

theorem raises_define (b : Nat) (ty : Ty) (make : Nat → Instr) :
    Raises n (Value.raise n) (define b ty make) := by
  intro f g h
  unfold define
  rcases h.openBlock b with ⟨k, l, hk, hl⟩ | ⟨e, hf, hg⟩
  · rw [hk, hl]
    dsimp only
    rw [h.registers]
    exact .ok (a := Value.reg f.registers ty) (h.takeRegister.append b _ _)
  · rw [hf, hg]
    exact .error h

theorem raises_terminate (b : Nat) (t : Terminator) : Raises n id (terminate b t) := by
  intro f g h
  unfold terminate
  rw [h.length]
  cases t.successors.find? fun k => f.bodies.length ≤ k with
  | some k => exact .error h
  | none =>
    dsimp only
    rcases h.openBlock b with ⟨k, l, hk, hl⟩ | ⟨e, hf, hg⟩
    · rw [hk, hl]
      exact .ok (h.close b t)
    · rw [hf, hg]
      exact .error h

theorem raises_call (b callee : Nat) (ret : Ty) (args : List Value) :
    Raises n (Option.map (Value.raise n)) (call b callee ret args) := by
  unfold call
  by_cases hv : ret.isVoid = true
  · rw [if_pos hv]
    exact (raises_perform b _).map (k := fun _ => none) fun _ => rfl
  · rw [if_neg hv]
    exact (raises_define b ret _).map fun _ => rfl

end Build

namespace Op

variable {n : Nat} {f g : Function}

theorem raises_apply (op : Op) : Build.Raises n (Outcome.raise n) op.apply := by
  cases op with
  | newBlock label => exact (Build.raises_newBlock label).map fun _ => rfl
  | alloca ty => exact (Build.raises_alloca ty).map fun _ => rfl
  | seed v p => exact (Build.raises_seed v p).map fun _ => rfl
  | load b ty p => exact (Build.raises_define b ty _).map fun _ => rfl
  | store b v p => exact (Build.raises_perform b _).map fun _ => rfl
  | binary b op l r => exact (Build.raises_define b l.ty _).map fun _ => rfl
  | icmp b test l r => exact (Build.raises_define b .i1 _).map fun _ => rfl
  | call b callee ret args =>
    refine (Build.raises_call b callee ret args).map fun v => ?_
    cases v <;> rfl
  | br b t => exact (Build.raises_terminate b _).map fun _ => rfl
  | condBr b c t e => exact (Build.raises_terminate b _).map fun _ => rfl
  | ret b v => exact (Build.raises_terminate b _).map fun _ => rfl

theorem step_ahead (h : f.Ahead n g) (op : Op) :
    op.outcome g = (op.outcome f).map (Outcome.raise n) ∧ (step f op).Ahead n (step g op) := by
  unfold outcome step
  have hraised := op.raises_apply h
  generalize op.apply f = r, op.apply g = r' at hraised ⊢
  cases hraised with
  | ok ahead => exact ⟨rfl, ahead⟩
  | error ahead => exact ⟨rfl, ahead⟩

theorem outcomes_ahead (h : f.Ahead n g) (ops : List Op) :
    outcomes g ops = (outcomes f ops).map (Except.map (Outcome.raise n)) := by
  induction ops generalizing f g with
  | nil => rfl
  | cons op ops ih =>
    obtain ⟨hout, hstep⟩ := step_ahead h op
    rw [outcomes, outcomes, List.map_cons, hout, ih hstep]

/-- An operation that fails is undone completely, unless it wastes a register. In
either case the number of the next register is all that can have changed, and
later operations return the same but for this number. -/
theorem apply_atomic_iff {op : Op} {e : BuildFault} (h : op.apply f = .error e g)
    (later : List Op) :
    (g = f ↔ op.wastes f = false) ∧
      g = { f with registers := f.registers + (op.wastes f).toNat } ∧
        outcomes g later =
          (outcomes f later).map (Except.map (Outcome.raise (op.wastes f).toNat)) := by
  have hg : g = { f with registers := f.registers + (op.wastes f).toNat } := by
    rw [apply_fails h]
    cases op.wastes f <;> rfl
  refine ⟨?_, hg, outcomes_ahead (hg ▸ ⟨rfl, rfl, rfl, fun _ => rfl⟩) later⟩
  constructor
  · intro hsame
    have hregisters := congrArg Function.registers (hsame.symm.trans hg)
    cases hw : op.wastes f with
    | false => rfl
    | true =>
      rw [hw] at hregisters
      exact absurd hregisters (Nat.ne_of_lt (Nat.lt_succ_self _))
  · intro hw
    rw [hg, hw]
    rfl

end Op

def Function.blank : Function := .declare 0 ⟨"f", .void, [], false⟩

/-- The first slot of a function gets another register if it was asked for before
there was a block. -/
theorem Op.slot_not_atomic :
    ∃ g, (Op.alloca .i32).apply .blank = .error (.noEntryBlock "f") g ∧ g ≠ .blank ∧
      outcomes .blank [.newBlock "entry", .alloca .i32] =
        [.ok (.block 0), .ok (.value (.reg 0 (.ptr .i32)))] ∧
      outcomes g [.newBlock "entry", .alloca .i32] =
        [.ok (.block 0), .ok (.value (.reg 1 (.ptr .i32)))] := by
  refine ⟨Function.blank.takeRegister, rfl, by decide, ?_, ?_⟩ <;> rfl

theorem Op.apply_atomic_iff_blank :
    ∃ g, (Op.alloca .i32).apply .blank = .error (.noEntryBlock "f") g ∧
      (Op.alloca .i32).wastes .blank = true ∧ g = { Function.blank with registers := 1 } ∧
        outcomes g [.newBlock "entry", .alloca .i32, .ret 0 none, .ret 0 none] =
          [.ok (.block 0), .ok (.value (.reg 1 (.ptr .i32))), .ok .done,
            .error (.blockTerminated 0)] := by
  have hfails : (Op.alloca .i32).apply .blank =
      .error (.noEntryBlock "f") Function.blank.takeRegister := rfl
  obtain ⟨-, hg, hlater⟩ := apply_atomic_iff hfails
    [.newBlock "entry", .alloca .i32, .ret 0 none, .ret 0 none]
  exact ⟨_, hfails, rfl, hg, hlater⟩

end TreeFlow
