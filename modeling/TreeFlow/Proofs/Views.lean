import TreeFlow.Proofs.Run

/-!
# Views of functions

A view shows a function in another form, for instance with other identities in
its calls or with its prologue in the entry block. The builder cannot tell the
two forms apart: each of its operations does to the form that is shown what it
does to the function. For a call the instruction is shown in another form too.
-/

set_option autoImplicit false

namespace TreeFlow

def final {ε σ α : Type} : EStateM.Result ε σ α → σ
  | .ok _ s | .error _ s => s

def seen {ε ε' σ σ' α : Type} (error : ε → ε') (state : σ → σ') :
    EStateM.Result ε σ α → EStateM.Result ε' σ' α
  | .ok a s => .ok a (state s)
  | .error e s => .error (error e) (state s)

/-- Another form of functions and of their instructions. It is only asked for
of functions that are in `domain`, which the builder never leaves. -/
structure View where
  shown : Function → Function
  instr : Instr → Instr
  domain : Function → Prop
  registers : ∀ f, (shown f).registers = f.registers
  length : ∀ f, (shown f).bodies.length = f.bodies.length
  block : ∀ (f : Function) (b : Nat), ∃ form : Block → Block,
    (∀ k, (form k).terminator = k.terminator) ∧ (shown f).bodies[b]? = f.bodies[b]?.map form
  takeRegister : ∀ f, shown f.takeRegister = (shown f).takeRegister
  append : ∀ f b i, shown (f.append b i) = (shown f).append b (instr i)
  close : ∀ f b t, shown (f.close b t) = (shown f).close b t
  addBlock : ∀ f label, domain f → shown (f.addBlock label) = (shown f).addBlock label
  domain_takeRegister : ∀ {f}, domain f → domain f.takeRegister
  domain_append : ∀ {f} b i, domain f → domain (f.append b i)
  domain_close : ∀ {f} b t, domain f → domain (f.close b t)
  domain_addBlock : ∀ {f} label, domain f → domain (f.addBlock label)

namespace View

variable {α : Type} (v : View)

/-- The second operation does to the shown form what the first one does to the
function. -/
def Respects (x y : Build α) : Prop :=
  ∀ f, v.domain f → y (v.shown f) = seen id v.shown (x f) ∧ v.domain (final (x f))

theorem openBlock (f : Function) (b : Nat) :
    ∃ form : Block → Block, (v.shown f).openBlock b = (f.openBlock b).map form := by
  obtain ⟨form, hform, hblock⟩ := v.block f b
  refine ⟨form, ?_⟩
  unfold Function.openBlock
  rw [hblock]
  cases f.bodies[b]? with
  | none => rfl
  | some k =>
    have hterminated : (form k).terminated = k.terminated :=
      congrArg Option.isSome (hform k)
    simp only [Option.map_some, hterminated]
    cases k.terminated <;> rfl

theorem newBlock (label : String) : v.Respects (Build.newBlock label) (Build.newBlock label) := by
  intro f hf
  have hrun : ∀ f : Function,
      Build.newBlock label f = .ok f.bodies.length (f.addBlock label) := fun _ => rfl
  rw [hrun, hrun, v.length, ← v.addBlock f label hf]
  exact ⟨rfl, v.domain_addBlock label hf⟩

theorem perform (b : Nat) (i : Instr) :
    v.Respects (Build.perform b i) (Build.perform b (v.instr i)) := by
  intro f hf
  obtain ⟨form, hform⟩ := v.openBlock f b
  unfold Build.perform
  rw [hform]
  cases f.openBlock b with
  | error e => exact ⟨rfl, hf⟩
  | ok k =>
    exact ⟨congrArg (EStateM.Result.ok ()) (v.append f b i).symm, v.domain_append b i hf⟩

theorem define (b : Nat) (ty : Ty) (make : Nat → Instr) :
    v.Respects (Build.define b ty make) (Build.define b ty fun d => v.instr (make d)) := by
  intro f hf
  obtain ⟨form, hform⟩ := v.openBlock f b
  unfold Build.define
  rw [hform, v.registers]
  cases f.openBlock b with
  | error e => exact ⟨rfl, hf⟩
  | ok k =>
    refine ⟨congrArg (EStateM.Result.ok _) ?_, v.domain_append b _ (v.domain_takeRegister hf)⟩
    rw [v.append, v.takeRegister]

theorem terminate (b : Nat) (t : Terminator) :
    v.Respects (Build.terminate b t) (Build.terminate b t) := by
  intro f hf
  obtain ⟨form, hform⟩ := v.openBlock f b
  unfold Build.terminate
  rw [hform, v.length]
  cases t.successors.find? fun k => f.bodies.length ≤ k with
  | some k => exact ⟨rfl, hf⟩
  | none =>
    cases f.openBlock b with
    | error e => exact ⟨rfl, hf⟩
    | ok k =>
      exact ⟨congrArg (EStateM.Result.ok ()) (v.close f b t).symm, v.domain_close b t hf⟩

theorem call {callee callee' : Nat} {args : List Value}
    (hcall : ∀ d, v.instr (.call d callee args) = .call d callee' args) (b : Nat) (ret : Ty) :
    v.Respects (Build.call b callee ret args) (Build.call b callee' ret args) := by
  intro f hf
  cases hv : ret.isVoid with
  | true =>
    obtain ⟨hrun, hdomain⟩ := v.perform b (.call none callee args) f hf
    rw [hcall] at hrun
    rw [Build.call_of_void hv, Build.call_of_void hv, hrun]
    cases hp : Build.perform b (.call none callee args) f with
    | ok u g => exact ⟨rfl, by rw [hp] at hdomain; exact hdomain⟩
    | error e g => exact ⟨rfl, by rw [hp] at hdomain; exact hdomain⟩
  | false =>
    obtain ⟨hrun, hdomain⟩ := v.define b ret (fun d => .call (some d) callee args) f hf
    simp only [hcall] at hrun
    rw [Build.call_of_value hv, Build.call_of_value hv, hrun]
    cases hp : Build.define b ret (fun d => .call (some d) callee args) f with
    | ok u g => exact ⟨rfl, by rw [hp] at hdomain; exact hdomain⟩
    | error e g => exact ⟨rfl, by rw [hp] at hdomain; exact hdomain⟩

theorem terminated? (f : Function) (b : Nat) : (v.shown f).terminated? b = f.terminated? b := by
  obtain ⟨form, hform, hblock⟩ := v.block f b
  unfold Function.terminated?
  rw [hblock]
  cases f.bodies[b]? with
  | none => rfl
  | some k => exact congrArg (fun x : Option Terminator => Except.ok x.isSome) (hform k)

theorem terminated (b : Nat) :
    v.Respects (fun f => match f.terminated? b with
      | .ok t => .ok t f
      | .error e => .error e f) (fun f => match f.terminated? b with
      | .ok t => .ok t f
      | .error e => .error e f) := by
  intro f hf
  dsimp only
  rw [v.terminated? f b]
  cases f.terminated? b with
  | ok t => exact ⟨rfl, hf⟩
  | error e => exact ⟨rfl, hf⟩

end View

end TreeFlow
