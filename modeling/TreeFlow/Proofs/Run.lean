import TreeFlow.Lowering.Program

/-!
# Runs of the lowering actions

A run of an action from a state ends in a value or an error, and in a state in
either case. A sequence of actions comes apart into the runs of its parts, and
each builder operation under the cursor comes down to one change of the
function that is being lowered.
-/

set_option autoImplicit false

namespace TreeFlow

variable {site : Site}

/-- Induction over trees: what passes from the children of a node to the node
holds of every tree. -/
theorem Tree.induct {P : Tree → Prop}
    (node : ∀ site children, (∀ t ∈ children, P t) → P (.node site children)) (t : Tree) : P t :=
  @Tree.rec P (fun ts => ∀ t ∈ ts, P t) node (by simp) (by simp +contextual) t

namespace Function

def addBlock (f : Function) (label : String) : Function :=
  { f with bodies := f.bodies ++
      [⟨f.bodies.length, label ++ "." ++ toString f.bodies.length, [], none⟩] }

def addSlot (f : Function) (ty : Ty) : Function :=
  { f.takeRegister with slots := f.slots ++ [⟨f.registers, ty⟩] }

def addSeed (f : Function) (value pointer : Value) : Function :=
  { f with seeds := f.seeds ++ [⟨value, pointer⟩] }

end Function

/-! ## The builder -/

namespace Build

variable {f g : Function} {b : Nat}

theorem openBlock_ok {k : Block} :
    f.openBlock b = .ok k ↔ f.bodies[b]? = some k ∧ k.terminator = none := by
  unfold Function.openBlock
  cases h : f.bodies[b]? with
  | none => simp
  | some j =>
    cases ht : j.terminator with
    | none => simp [Block.terminated, ht]; rintro rfl; exact ht
    | some t => simp [Block.terminated, ht]; rintro rfl; simp [ht]

theorem openBlock_error {e : BuildFault} (h : f.openBlock b = .error e) (k : Block) :
    ¬(f.bodies[b]? = some k ∧ k.terminator = none) := by
  intro hk
  rw [openBlock_ok.mpr hk] at h
  cases h

theorem perform_ok {i : Instr} {u : Unit} :
    perform b i f = .ok u g ↔
      ∃ k, f.bodies[b]? = some k ∧ k.terminator = none ∧ g = f.append b i := by
  unfold perform
  cases h : f.openBlock b with
  | error e =>
    have hn := openBlock_error h
    simp_all
  | ok k =>
    obtain ⟨hk, ht⟩ := openBlock_ok.mp h
    simp [hk, ht, eq_comm]

theorem define_ok {ty : Ty} {make : Nat → Instr} {v : Value} :
    define b ty make f = .ok v g ↔
      ∃ k, f.bodies[b]? = some k ∧ k.terminator = none ∧ v = .reg f.registers ty ∧
        g = f.takeRegister.append b (make f.registers) := by
  unfold define
  cases h : f.openBlock b with
  | error e =>
    have hn := openBlock_error h
    simp_all
  | ok k =>
    obtain ⟨hk, ht⟩ := openBlock_ok.mp h
    simp [hk, ht, eq_comm]

theorem terminate_ok {t : Terminator} {u : Unit} :
    terminate b t f = .ok u g ↔
      (∀ j ∈ t.successors, j < f.bodies.length) ∧
        ∃ k, f.bodies[b]? = some k ∧ k.terminator = none ∧ g = f.close b t := by
  unfold terminate
  cases hs : t.successors.find? fun k => f.bodies.length ≤ k with
  | some j =>
    have hj := List.find?_some hs
    have hm := List.mem_of_find?_eq_some hs
    simp only [decide_eq_true_eq] at hj
    constructor
    · intro h
      cases h
    · rintro ⟨h, -⟩
      have := h j hm
      omega
  | none =>
    have hall : ∀ j ∈ t.successors, j < f.bodies.length := by simpa using hs
    cases h : f.openBlock b with
    | error e =>
      have hn := openBlock_error h
      simp_all
    | ok k =>
      obtain ⟨hk, ht⟩ := openBlock_ok.mp h
      simp only [hk]
      constructor
      · intro h
        cases h
        exact ⟨hall, k, rfl, ht, rfl⟩
      · rintro ⟨-, k, -, -, rfl⟩
        rfl

theorem call_of_void {callee : Nat} {ret : Ty} {args : List Value} (h : ret.isVoid = true) :
    call b callee ret args f =
      match perform b (.call none callee args) f with
      | .ok _ g => .ok none g
      | .error e g => .error e g := by
  unfold call
  rw [if_pos h]
  change EStateM.bind (perform b (.call none callee args)) (fun _ => EStateM.pure none) f = _
  unfold EStateM.bind
  cases perform b (.call none callee args) f <;> rfl

theorem call_of_value {callee : Nat} {ret : Ty} {args : List Value} (h : ret.isVoid = false) :
    call b callee ret args f =
      match define b ret (fun d => .call (some d) callee args) f with
      | .ok v g => .ok (some v) g
      | .error e g => .error e g := by
  unfold call
  rw [if_neg (by simp [h])]
  change EStateM.map some (define b ret fun d => .call (some d) callee args) f = _
  unfold EStateM.map
  cases define b ret (fun d => .call (some d) callee args) f <;> rfl

theorem call_ok {callee : Nat} {ret : Ty} {args : List Value} {v : Option Value} :
    call b callee ret args f = .ok v g ↔
      ∃ k, f.bodies[b]? = some k ∧ k.terminator = none ∧
        if ret.isVoid then v = none ∧ g = f.append b (.call none callee args)
        else v = some (.reg f.registers ret) ∧
          g = f.takeRegister.append b (.call (some f.registers) callee args) := by
  cases hv : ret.isVoid with
  | true =>
    rw [call_of_void hv]
    constructor
    · intro h
      cases hp : perform b (.call none callee args) f with
      | error e g' => simp [hp] at h
      | ok u g' =>
        obtain ⟨k, hk, ho, rfl⟩ := perform_ok.mp hp
        simp only [hp, EStateM.Result.ok.injEq] at h
        exact ⟨k, hk, ho, by simp [h.1, h.2]⟩
    · rintro ⟨k, hk, ho, h⟩
      simp only [↓reduceIte] at h
      rw [perform_ok (u := ()).mpr ⟨k, hk, ho, h.2⟩, h.1]
  | false =>
    rw [call_of_value hv]
    constructor
    · intro h
      cases hp : define b ret (fun d => .call (some d) callee args) f with
      | error e g' => simp [hp] at h
      | ok u g' =>
        obtain ⟨k, hk, ho, rfl, rfl⟩ := define_ok.mp hp
        simp only [hp, EStateM.Result.ok.injEq] at h
        exact ⟨k, hk, ho, by simp [h.1, h.2]⟩
    · rintro ⟨k, hk, ho, h⟩
      simp only [Bool.false_eq_true, ↓reduceIte] at h
      rw [define_ok.mpr ⟨k, hk, ho, rfl, h.2⟩, h.1]

theorem alloca_of {ty : Ty} (h : f.bodies ≠ []) :
    alloca ty f = .ok (.reg f.registers (.ptr ty)) (f.addSlot ty) := by
  unfold alloca
  dsimp only
  split
  · exact absurd ‹_› h
  · rfl

theorem alloca_of_empty {ty : Ty} (h : f.bodies = []) :
    alloca ty f = .error (.noEntryBlock f.name) f.takeRegister := by
  unfold alloca
  dsimp only
  split
  · rfl
  · exact absurd h (by simp_all [Function.takeRegister])

theorem seed_of {v p : Value} (h : f.bodies ≠ []) : seed v p f = .ok () (f.addSeed v p) := by
  unfold seed
  split
  · exact absurd ‹_› h
  · rfl

theorem seed_of_empty {v p : Value} (h : f.bodies = []) :
    seed v p f = .error (.noEntryBlock f.name) f := by
  simp [seed, h]

/-! A failed operation leaves the function alone. -/

theorem perform_error {i : Instr} {c : BuildFault} (h : perform b i f = .error c g) : g = f := by
  unfold perform at h
  split at h <;> simp_all

theorem define_error {ty : Ty} {make : Nat → Instr} {c : BuildFault}
    (h : define b ty make f = .error c g) : g = f := by
  unfold define at h
  split at h <;> simp_all

theorem terminate_error {t : Terminator} {c : BuildFault} (h : terminate b t f = .error c g) :
    g = f := by
  unfold terminate at h
  split at h
  · simp_all
  · split at h <;> simp_all

theorem call_error {callee : Nat} {ret : Ty} {args : List Value} {c : BuildFault}
    (h : call b callee ret args f = .error c g) : g = f := by
  cases hv : ret.isVoid with
  | true =>
    rw [call_of_void hv] at h
    cases hp : perform b (.call none callee args) f with
    | ok u g' => simp [hp] at h
    | error e g' =>
      simp only [hp, EStateM.Result.error.injEq] at h
      exact h.2 ▸ perform_error hp
  | false =>
    rw [call_of_value hv] at h
    cases hp : define b ret (fun d => .call (some d) callee args) f with
    | ok u g' => simp [hp] at h
    | error e g' =>
      simp only [hp, EStateM.Result.error.injEq] at h
      exact h.2 ▸ define_error hp

end Build

/-! ## Sequences -/

namespace LowerState

def put (s : LowerState) (id : Nat) (f : Function) : LowerState :=
  { s with module := s.module.setFunction id f }

structure In (s : LowerState) (id : Nat) (f : Function) : Prop where
  function : s.function = some id
  found : s.module.function? id = some f

/-- The cursor is on block `k`, which has index `b` in the function `f`. -/
structure At (s : LowerState) (id : Nat) (f : Function) (b : Nat) (k : Block) : Prop
    extends s.In id f where
  cursor : s.block = some b
  block : f.bodies[b]? = some k

end LowerState

theorem LowerState.put_self {s : LowerState} {id : Nat} {f : Function}
    (h : s.module.function? id = some f) : s.put id f = s := by
  have hl : s.module.functions.set id f = s.module.functions := by
    apply List.ext_getElem?
    intro j
    by_cases hj : id = j
    · subst hj
      obtain ⟨hlt, hf⟩ := List.getElem?_eq_some_iff.mp h
      simp [hlt, hf]
    · simp [hj]
  simp [LowerState.put, Module.setFunction, hl]

theorem Module.function?_setFunction {m : Module} {id : Nat} {f : Function}
    (h : m.function? id = some f) (g : Function) (j : Nat) :
    (m.setFunction id g).function? j = if j = id then some g else m.function? j := by
  obtain ⟨hlt, -⟩ := List.getElem?_eq_some_iff.mp h
  by_cases hj : j = id
  · simp [Module.setFunction, Module.function?, hj, hlt]
  · simp [Module.setFunction, Module.function?, hj, Ne.symm hj]

theorem Module.function?_declare (m : Module) (sig : Signature) (j : Nat) :
    (m.declare sig).function? j =
      if j = m.functions.length then some (.declare j sig) else m.function? j := by
  simp only [Module.function?, Module.declare, List.getElem?_append, List.getElem?_singleton]
  split
  · rw [if_neg (by omega)]
  · by_cases hj : j = m.functions.length
    · simp [hj]
    · rw [if_neg (by omega), if_neg hj, List.getElem?_eq_none (by omega)]

theorem LowerState.function?_put {s : LowerState} {id : Nat} {f : Function}
    (h : s.module.function? id = some f) (g : Function) (j : Nat) :
    (s.put id g).module.function? j = if j = id then some g else s.module.function? j :=
  Module.function?_setFunction h g j

theorem LowerState.In.put {s : LowerState} {id : Nat} {f : Function} (h : s.In id f)
    (g : Function) : (s.put id g).In id g :=
  ⟨h.function, by rw [LowerState.function?_put h.found, if_pos rfl]⟩

theorem LowerState.In.unique {s : LowerState} {id id' : Nat} {f f' : Function} (h : s.In id f)
    (h' : s.In id' f') : id' = id ∧ f' = f := by
  obtain rfl : id = id' := by simpa [h.function] using h'.function
  exact ⟨rfl, by simpa [h.found] using h'.found.symm⟩

theorem LowerState.At.unique {s : LowerState} {id id' b b' : Nat} {f f' : Function}
    {k k' : Block} (h : s.At id f b k) (h' : s.At id' f' b' k') :
    id' = id ∧ f' = f ∧ b' = b ∧ k' = k := by
  obtain ⟨rfl, rfl⟩ := h.toIn.unique h'.toIn
  obtain rfl : b = b' := by simpa [h.cursor] using h'.cursor
  exact ⟨rfl, rfl, rfl, by simpa [h.block] using h'.block.symm⟩

theorem LowerState.put_put (s : LowerState) (id : Nat) (f g : Function) :
    (s.put id f).put id g = s.put id g := by
  simp [LowerState.put, Module.setFunction]

namespace Lower

variable {α β : Type} {s t : LowerState}

theorem ok_of_run' {x : Lower α} {a : α} (h : x.run' s = some a) : ∃ t, x s = .ok a t := by
  delta EStateM.run' EStateM.run at h
  cases hx : x s with
  | ok b t =>
    rw [hx] at h
    cases h
    exact ⟨t, rfl⟩
  | error e t =>
    rw [hx] at h
    cases h

theorem bind_of_ok {x : Lower α} {k : α → Lower β} {a : α} (h : x s = .ok a t) :
    (x >>= k) s = k a t := by
  change EStateM.bind x k s = _
  simp only [EStateM.bind, h]

theorem bind_of_error {x : Lower α} {k : α → Lower β} {e : LowerError} (h : x s = .error e t) :
    (x >>= k) s = .error e t := by
  change EStateM.bind x k s = _
  simp only [EStateM.bind, h]

theorem bind_ok {x : Lower α} {k : α → Lower β} {b : β} :
    (x >>= k) s = .ok b t ↔ ∃ a u, x s = .ok a u ∧ k a u = .ok b t := by
  cases h : x s with
  | ok a u => simp [bind_of_ok h, and_assoc]
  | error e u => simp [bind_of_error h]

theorem bind_error {x : Lower α} {k : α → Lower β} {e : LowerError} :
    (x >>= k) s = .error e t ↔
      x s = .error e t ∨ ∃ a u, x s = .ok a u ∧ k a u = .error e t := by
  cases h : x s with
  | ok a u => simp [bind_of_ok h, and_assoc]
  | error e u => simp [bind_of_error h]

@[simp] theorem pure_run (a : α) : (pure a : Lower α) s = .ok a s := rfl

@[simp] theorem throw_run (e : LowerError) : (throw e : Lower α) s = .error e s := rfl

@[simp] theorem modify_run (f : LowerState → LowerState) :
    (modify f : Lower Unit) s = .ok () (f s) := rfl

@[simp] theorem note_run (e : Event) : note e s = .ok () { s with log := s.log ++ [e] } := rfl

@[simp] theorem get_bind (k : LowerState → Lower α) : (get >>= k) s = k s s := rfl

@[simp] theorem throw_bind (e : LowerError) (k : α → Lower β) :
    ((throw e : Lower α) >>= k) s = .error e s := rfl

@[simp] theorem modify_bind (f : LowerState → LowerState) (k : Unit → Lower α) :
    (modify f >>= k) s = k () (f s) := rfl

@[simp] theorem note_bind (e : Event) (k : Unit → Lower α) :
    (note e >>= k) s = k () { s with log := s.log ++ [e] } := rfl

theorem lift_ok {x : Except LowerError α} {a : α} : lift x s = .ok a t ↔ x = .ok a ∧ t = s := by
  cases x <;> simp [lift, eq_comm]

theorem except_of_isOk {ε α : Type} {x : Except ε α} (h : x.isOk = true) : ∃ a, x = .ok a := by
  cases x with
  | ok a => exact ⟨a, rfl⟩
  | error e => cases h

theorem except_bind_ok {x : Except LowerError α} {k : α → Except LowerError β} {b : β} :
    (x >>= k) = .ok b ↔ ∃ a, x = .ok a ∧ k a = .ok b := by
  cases x with
  | ok a => exact ⟨fun h => ⟨a, rfl, h⟩, fun ⟨_, ha, h⟩ => by cases ha; exact h⟩
  | error e => exact ⟨nofun, nofun⟩

theorem require_ok {i : Nat} {kind : Kind} {c : Tree} {x : Unit}
    (h : site.require i kind c = .ok x) : c.kind = kind := by
  unfold Site.require at h
  split at h
  · assumption
  · cases h

theorem lift_error {x : Except LowerError α} {e : LowerError} :
    lift x s = .error e t ↔ x = .error e ∧ t = s := by
  cases x <;> simp [lift, eq_comm]

theorem ensuring_ok {x : Lower α} {after : LowerState → LowerState} {a : α} :
    ensuring x after s = .ok a t ↔ ∃ u, x s = .ok a u ∧ t = after u := by
  unfold ensuring
  cases x s <;> simp [eq_comm, and_comm]

theorem ensuring_error {x : Lower α} {after : LowerState → LowerState} {e : LowerError} :
    ensuring x after s = .error e t ↔ ∃ u, x s = .error e u ∧ t = after u := by
  unfold ensuring
  cases x s <;> simp [eq_comm, and_comm]

def deeper (s : LowerState) : LowerState := { s with depth := s.depth + 1 }

def shallower (s : LowerState) : LowerState := { s with depth := s.depth - 1 }

theorem nested_of_deep {x : Lower α} (h : maxDepth ≤ s.depth) :
    nested site x s = .error (site.fault (.tooDeep site.kind)) s := by
  have hd : descend site s = .error (site.fault (.tooDeep site.kind)) s := by
    simp [descend, h]
  exact bind_of_error hd

theorem nested_of_shallow {x : Lower α} (h : s.depth < maxDepth) :
    nested site x s = ensuring x shallower (deeper s) := by
  have hd : descend site s = .ok () (deeper s) := by
    simp [descend, Nat.not_le.mpr h, deeper]
  exact bind_of_ok hd

theorem nested_ok {x : Lower α} {a : α} :
    nested site x s = .ok a t ↔
      s.depth < maxDepth ∧ ∃ u, x (deeper s) = .ok a u ∧ t = shallower u := by
  by_cases h : s.depth < maxDepth
  · simp [nested_of_shallow h, ensuring_ok, h]
  · simp [nested_of_deep (Nat.not_lt.mp h), h]

/-! ## Builder operations under the cursor -/

theorem inFunction_of {act : Build α} {id : Nat} {f : Function} (h : s.In id f) :
    inFunction act s =
      match act f with
      | .ok a g => .ok a (s.put id g)
      | .error e g => refuse e (s.put id g) := by
  cases hact : act f with
  | ok a g => simp [inFunction, h.function, h.found, hact, LowerState.put]
  | error e g => simp [inFunction, h.function, h.found, hact, LowerState.put]

theorem inFunction_ok {act : Build α} {a : α} :
    inFunction act s = .ok a t ↔ ∃ id f g, s.In id f ∧ act f = .ok a g ∧ t = s.put id g := by
  constructor
  · intro h
    cases hf : s.function with
    | none => simp [inFunction, hf, refuse] at h
    | some id =>
      cases hm : s.module.function? id with
      | none => simp [inFunction, hf, hm, refuse] at h
      | some f =>
        rw [inFunction_of ⟨hf, hm⟩] at h
        cases ha : act f with
        | error e g => simp [ha, refuse] at h
        | ok b g =>
          simp only [ha, EStateM.Result.ok.injEq] at h
          exact ⟨id, f, g, ⟨hf, hm⟩, by rw [ha, h.1], h.2.symm⟩
  · rintro ⟨id, f, g, hin, ha, rfl⟩
    rw [inFunction_of hin, ha]

theorem inBlock_of {act : Nat → Build α} {b : Nat} (h : s.block = some b) :
    inBlock act s = inFunction (act b) s := by
  have hb : currentBlock s = .ok b s := by simp [currentBlock, h]
  exact bind_of_ok hb

theorem inBlock_ok {act : Nat → Build α} {a : α} :
    inBlock act s = .ok a t ↔
      ∃ id f b g, s.In id f ∧ s.block = some b ∧ act b f = .ok a g ∧ t = s.put id g := by
  cases hb : s.block with
  | none => simp [inBlock, currentBlock, hb, refuse]
  | some b => simp [inBlock_of hb, inFunction_ok]

theorem inFunction_fails {act : Build α} {e : LowerError} (h : inFunction act s = .error e t) :
    t = s ∨ ∃ id f c g, s.In id f ∧ act f = .error c g ∧ t = s.put id g := by
  cases hf : s.function with
  | none => simp_all [inFunction, refuse]
  | some id =>
    cases hm : s.module.function? id with
    | none => simp_all [inFunction, refuse]
    | some f =>
      rw [inFunction_of ⟨hf, hm⟩] at h
      cases hr : act f with
      | ok b g => simp [hr] at h
      | error c g =>
        simp only [hr, refuse, throw_run, EStateM.Result.error.injEq] at h
        exact .inr ⟨id, f, c, g, ⟨hf, hm⟩, hr, h.2.symm⟩

theorem inFunction_error {act : Build α} {e : LowerError}
    (ha : ∀ f c g, act f = .error c g → g = f) (h : inFunction act s = .error e t) : t = s := by
  obtain rfl | ⟨id, f, c, g, hin, hr, rfl⟩ := inFunction_fails h
  · rfl
  · rw [ha f c g hr]
    exact LowerState.put_self hin.found

theorem inBlock_error {act : Nat → Build α} {e : LowerError}
    (ha : ∀ b f c g, act b f = .error c g → g = f) (h : inBlock act s = .error e t) : t = s := by
  cases hb : s.block with
  | none => simp_all [inBlock, currentBlock, refuse]
  | some b =>
    rw [inBlock_of hb] at h
    exact inFunction_error (ha b) h

theorem define_ok {ty : Ty} {make : Nat → Instr} {v : Value} :
    inBlock (fun b => Build.define b ty make) s = .ok v t ↔
      ∃ id f b k, s.At id f b k ∧ k.terminator = none ∧ v = .reg f.registers ty ∧
        t = s.put id (f.takeRegister.append b (make f.registers)) := by
  simp only [inBlock_ok, Build.define_ok]
  constructor
  · rintro ⟨id, f, b, g, hin, hb, ⟨k, hk, ht, rfl, rfl⟩, rfl⟩
    exact ⟨id, f, b, k, ⟨hin, hb, hk⟩, ht, rfl, rfl⟩
  · rintro ⟨id, f, b, k, ⟨hin, hb, hk⟩, ht, rfl, rfl⟩
    exact ⟨id, f, b, _, hin, hb, ⟨k, hk, ht, rfl, rfl⟩, rfl⟩

theorem perform_ok {i : Instr} {u : Unit} :
    inBlock (fun b => Build.perform b i) s = .ok u t ↔
      ∃ id f b k, s.At id f b k ∧ k.terminator = none ∧ t = s.put id (f.append b i) := by
  simp only [inBlock_ok, Build.perform_ok]
  constructor
  · rintro ⟨id, f, b, g, hin, hb, ⟨k, hk, ht, rfl⟩, rfl⟩
    exact ⟨id, f, b, k, ⟨hin, hb, hk⟩, ht, rfl⟩
  · rintro ⟨id, f, b, k, ⟨hin, hb, hk⟩, ht, rfl⟩
    exact ⟨id, f, b, _, hin, hb, ⟨k, hk, ht, rfl⟩, rfl⟩

theorem terminate_ok {x : Terminator} {u : Unit} :
    inBlock (fun b => Build.terminate b x) s = .ok u t ↔
      ∃ id f b k, s.At id f b k ∧ k.terminator = none ∧
        (∀ j ∈ x.successors, j < f.bodies.length) ∧ t = s.put id (f.close b x) := by
  simp only [inBlock_ok, Build.terminate_ok]
  constructor
  · rintro ⟨id, f, b, g, hin, hb, ⟨hj, k, hk, ht, rfl⟩, rfl⟩
    exact ⟨id, f, b, k, ⟨hin, hb, hk⟩, ht, hj, rfl⟩
  · rintro ⟨id, f, b, k, ⟨hin, hb, hk⟩, ht, hj, rfl⟩
    exact ⟨id, f, b, _, hin, hb, ⟨hj, k, hk, ht, rfl⟩, rfl⟩

theorem newBlock_ok {label : String} {b : Nat} :
    newBlock label s = .ok b t ↔
      ∃ id f, s.In id f ∧ b = f.bodies.length ∧
        t = { s.put id (f.addBlock label) with log := s.log ++ [.blockCreated label b] } := by
  simp only [newBlock, bind_ok, inFunction_ok, note_bind, pure_run, Build.newBlock]
  constructor
  · rintro ⟨_, _, ⟨id, f, g, hin, h, rfl⟩, h'⟩
    cases h
    cases h'
    exact ⟨id, f, hin, rfl, rfl⟩
  · rintro ⟨id, f, hin, rfl, rfl⟩
    exact ⟨_, _, ⟨id, f, _, hin, rfl, rfl⟩, rfl⟩

theorem alloca_ok {ty : Ty} {v : Value} :
    alloca ty s = .ok v t ↔
      ∃ id f, s.In id f ∧ f.bodies ≠ [] ∧ v = .reg f.registers (.ptr ty) ∧
        t = s.put id (f.addSlot ty) := by
  unfold alloca
  rw [inFunction_ok]
  constructor
  · rintro ⟨id, f, g, hin, h, rfl⟩
    by_cases hb : f.bodies = []
    · rw [Build.alloca_of_empty hb] at h
      cases h
    · rw [Build.alloca_of hb] at h
      cases h
      exact ⟨id, f, hin, hb, rfl, rfl⟩
  · rintro ⟨id, f, hin, hb, rfl, rfl⟩
    exact ⟨id, f, _, hin, Build.alloca_of hb, rfl⟩

theorem seed_ok {v p : Value} {u : Unit} :
    seed v p s = .ok u t ↔
      ∃ id f, s.In id f ∧ f.bodies ≠ [] ∧ t = s.put id (f.addSeed v p) := by
  unfold seed
  rw [inFunction_ok]
  constructor
  · rintro ⟨id, f, g, hin, h, rfl⟩
    by_cases hb : f.bodies = []
    · rw [Build.seed_of_empty hb] at h
      cases h
    · rw [Build.seed_of hb] at h
      cases h
      exact ⟨id, f, hin, hb, rfl⟩
  · rintro ⟨id, f, hin, hb, rfl⟩
    exact ⟨id, f, _, hin, Build.seed_of hb, rfl⟩

theorem terminated_ok {c : Bool} :
    terminated s = .ok c t ↔ ∃ id f b k, s.At id f b k ∧ c = k.terminated ∧ t = s := by
  constructor
  · intro h
    obtain ⟨id, f, b, g, hin, hb, hr, rfl⟩ := inBlock_ok.mp h
    cases hk : f.bodies[b]? with
    | none => simp [Function.terminated?, hk] at hr
    | some k =>
      simp only [Function.terminated?, hk, EStateM.Result.ok.injEq] at hr
      obtain ⟨rfl, rfl⟩ := hr
      exact ⟨id, f, b, k, ⟨hin, hb, hk⟩, rfl, LowerState.put_self hin.found⟩
  · rintro ⟨id, f, b, k, ⟨hin, hb, hk⟩, rfl, rfl⟩
    exact inBlock_ok.mpr ⟨id, f, b, f, hin, hb, by simp [Function.terminated?, hk],
      (LowerState.put_self hin.found).symm⟩

/-! ## Names and callees -/

theorem lookup_run (name : String) : lookup name s = .ok (s.scope.lookup name) s := rfl

theorem name_run (site : Site) :
    name site s =
      match s.scope.lookup site.name with
      | some (.stored (.register v)) => .ok v s
      | some (.stored (.slot p ty)) => load ty p s
      | some (.constant n) => .ok (.int n) s
      | none => .error (site.fault (.undefinedSymbol site.name)) s := by
  unfold name
  rw [bind_of_ok (lookup_run _)]
  cases s.scope.lookup site.name with
  | none => rfl
  | some binding =>
    cases binding with
    | constant n => rfl
    | stored storage => cases storage <;> rfl

theorem findCallee_of_some {id : Nat} (h : s.module.find? site.name = some id) :
    findCallee site s = .ok id s := by
  unfold findCallee
  rw [get_bind, h]
  rfl

def withIntrinsic (s : LowerState) : LowerState :=
  { s with
    module := s.module.declare Intrinsic.signature
    log := s.log ++ [.intrinsicDeclared Intrinsic.name] }

theorem findCallee_of_intrinsic (h : s.module.find? site.name = none)
    (hn : site.name = Intrinsic.name) :
    findCallee site s = .ok s.module.functions.length (withIntrinsic s) := by
  unfold findCallee
  rw [get_bind, h]
  dsimp only
  rw [if_pos hn, hn]
  rfl

theorem findCallee_of_none (h : s.module.find? site.name = none) (hn : site.name ≠ Intrinsic.name) :
    findCallee site s = .error (site.fault (.undefinedFunction site.name)) s := by
  unfold findCallee
  rw [get_bind, h]
  dsimp only
  rw [if_neg hn]
  rfl

def withFormat (s : LowerState) : LowerState :=
  { s with module := s.module.addBytes Intrinsic.format }

theorem callee_of_intrinsic {id n : Nat} {f : Function} (h : findCallee site s = .ok id t)
    (hf : t.module.function? id = some f)
    (hi : (f.variadic && site.name == Intrinsic.name) = true) :
    callee site n s =
      match checkCount site f.variadic (f.params.length - 1) n with
      | .ok _ =>
        .ok ⟨id, site.name, f.params.map (·.ty), [Module.address t.module.globals.length]⟩
          (withFormat t)
      | .error e => .error e (withFormat t) := by
  unfold callee
  rw [bind_of_ok h, get_bind, hf]
  dsimp only
  rw [if_pos hi]
  change (lift (checkCount site f.variadic (f.params.length - 1) n) >>= fun _ => _) _ = _
  cases checkCount site f.variadic (f.params.length - 1) n <;> rfl

theorem callee_of_plain {id n : Nat} {f : Function} (h : findCallee site s = .ok id t)
    (hf : t.module.function? id = some f)
    (hi : (f.variadic && site.name == Intrinsic.name) = false) :
    callee site n s =
      match checkCount site f.variadic f.params.length n with
      | .ok _ => .ok ⟨id, site.name, f.params.map (·.ty), []⟩ t
      | .error e => .error e t := by
  unfold callee
  rw [bind_of_ok h, get_bind, hf]
  dsimp only
  rw [if_neg (by simp [hi])]
  change (lift (checkCount site f.variadic f.params.length n) >>= fun _ => _) _ = _
  cases checkCount site f.variadic f.params.length n <;> rfl

theorem condition_of {test : Tree} {v : Value} (h : expression test s = .ok v t) :
    condition test s =
      match v.ty with
      | .i1 => .ok v t
      | .i32 => icmp .ne v (.int 0) t
      | ty => .error (test.site.fault (.notCondition ty)) t := by
  unfold condition
  rw [bind_of_ok h]
  cases v.ty <;> rfl

/-! ## Variables -/

def withSlot (s : LowerState) (name : String) (id : Nat) (f : Function) (ty : Ty) : LowerState :=
  { s.put id (f.addSlot ty) with
    scope := s.scope.bind name (.slot (.reg f.registers (.ptr ty)) ty) }

theorem variableSlot_ok {site type : Site} {r : Value × Ty}
    (h : variableSlot site type s = .ok r t) :
    site.name.isEmpty = false ∧ Ty.ofSite type = .ok r.2 ∧ r.2.isVoid = false ∧
      ∃ id f, s.In id f ∧ f.bodies ≠ [] ∧ r.1 = .reg f.registers (.ptr r.2) ∧
        t = withSlot s site.name id f r.2 := by
  unfold variableSlot at h
  dsimp only at h
  split at h
  · cases h
  · obtain ⟨ty, u, hlift, h₁⟩ := bind_ok.mp h
    obtain ⟨hty, rfl⟩ := lift_ok.mp hlift
    split at h₁
    · cases h₁
    · obtain ⟨p, v, hp, h₂⟩ := bind_ok.mp h₁
      obtain ⟨id, f, hin, hb, rfl, rfl⟩ := alloca_ok.mp hp
      cases h₂
      exact ⟨by simp_all, hty, by simp_all, id, f, hin, hb, rfl, rfl⟩

def withPromoted (s : LowerState) (name : String) (id : Nat) (f : Function) (v : Value) :
    LowerState :=
  { s.put id ((f.addSlot v.ty).addSeed v (.reg f.registers (.ptr v.ty))) with
    scope := s.scope.bind name (.slot (.reg f.registers (.ptr v.ty)) v.ty)
    log := s.log ++ [.parameterPromoted name] }

theorem promote_ok {name : String} {v : Value} {r : Value × Ty}
    (h : promote name v s = .ok r t) :
    ∃ id f, s.In id f ∧ f.bodies ≠ [] ∧ r = (.reg f.registers (.ptr v.ty), v.ty) ∧
      t = withPromoted s name id f v := by
  obtain ⟨p, u, hp, h₁⟩ := bind_ok.mp h
  obtain ⟨id, f, hin, hb, rfl, rfl⟩ := alloca_ok.mp hp
  obtain ⟨_, w, hw, h₂⟩ := bind_ok.mp h₁
  obtain ⟨id', f', hin', -, rfl⟩ := seed_ok.mp hw
  obtain ⟨rfl, rfl⟩ := (hin.put _).unique hin'
  cases h₂
  refine ⟨_, f, hin, hb, rfl, ?_⟩
  simp [withPromoted, LowerState.put, Module.setFunction]

theorem assignedSlot_ok {r : Value × Ty} (h : assignedSlot site s = .ok r t) :
    s.scope.lookup site.name = some (.stored (.slot r.1 r.2)) ∧ t = s ∨
      ∃ v, s.scope.lookup site.name = some (.stored (.register v)) ∧
        promote site.name v s = .ok r t := by
  unfold assignedSlot at h
  rw [bind_of_ok (lookup_run _)] at h
  cases hl : s.scope.lookup site.name with
  | none =>
    rw [hl] at h
    cases h
  | some binding =>
    rw [hl] at h
    cases binding with
    | constant n => cases h
    | stored storage =>
      cases storage with
      | slot p ty =>
        cases h
        exact .inl ⟨rfl, rfl⟩
      | register v => exact .inr ⟨v, rfl, h⟩

/-! ## Conditionals -/

theorem conditional_none (test : Tree) (yes : Nat → Lower Unit) :
    conditional test yes none = (do
      let c ← condition test
      let yesBlock ← newBlock "if.then"
      let endBlock ← newBlock "if.end"
      condBr c yesBlock endBlock
      yes yesBlock
      fallThrough endBlock
      setBlock endBlock) := rfl

theorem conditional_some (test : Tree) (yes no : Nat → Lower Unit) :
    conditional test yes (some no) = (do
      let c ← condition test
      let yesBlock ← newBlock "if.then"
      let endBlock ← newBlock "if.end"
      let noBlock ← newBlock "if.else"
      condBr c yesBlock noBlock
      yes yesBlock
      fallThrough endBlock
      no noBlock
      fallThrough endBlock
      setBlock endBlock) := rfl

/-! ## Function bodies -/

def parameterScope (scope : Scope) (args : List (String × Value)) : Scope :=
  args.foldl (fun scope a => scope.bind a.1 (.register a.2)) scope.clearLocals

theorem bindAll_run (args : List (String × Value)) :
    bindAll args s =
      .ok () { s with scope := args.foldl (fun c a => c.bind a.1 (.register a.2)) s.scope } := by
  induction args generalizing s with
  | nil => rfl
  | cons a args ih =>
    rw [bindAll]
    exact ih (s := { s with scope := s.scope.bind a.1 (.register a.2) })

def opened (site : Site) (s : LowerState) (id : Nat) (f : Function) : LowerState where
  module := s.module.setFunction id (f.addBlock "entry")
  scope := parameterScope s.scope f.arguments
  registered := s.registered
  function := some id
  block := some f.bodies.length
  loops := []
  depth := 0
  log := s.log ++ [.bodyStarted site.name]

/-- Whatever is lowered into a function, it starts in this state. -/
theorem opening_run {β : Type} {id : Nat} {f : Function} (hf : s.module.function? id = some f)
    (k : Nat → Function → Lower β) :
    (do
      note (.bodyStarted site.name)
      let entry ← enter id
      let g ← currentFunction
      bindAll g.arguments
      k entry g) s = k f.bodies.length (f.addBlock "entry") (opened site s id f) := by
  let u : LowerState :=
    { s with
      scope := s.scope.clearLocals, loops := [], depth := 0, function := some id
      log := s.log ++ [.bodyStarted site.name] }
  have hu : u.In id f := ⟨rfl, hf⟩
  have henter : enter id { s with log := s.log ++ [.bodyStarted site.name] } =
      .ok f.bodies.length { u.put id (f.addBlock "entry") with block := some f.bodies.length } := by
    have hnew : inFunction (Build.newBlock "entry") u =
        .ok f.bodies.length (u.put id (f.addBlock "entry")) :=
      inFunction_ok.mpr ⟨id, f, _, hu, rfl, rfl⟩
    change (inFunction (Build.newBlock "entry") >>= fun b => (do
      modify fun s => { s with block := some b }
      return b : Lower Nat)) u = _
    rw [bind_of_ok hnew]
    rfl
  rw [note_bind, bind_of_ok henter]
  have hin : LowerState.In { u.put id (f.addBlock "entry") with block := some f.bodies.length }
      id (f.addBlock "entry") := ⟨rfl, (hu.put _).found⟩
  have hcur : currentFunction { u.put id (f.addBlock "entry") with block := some f.bodies.length } =
      .ok (f.addBlock "entry")
        { u.put id (f.addBlock "entry") with block := some f.bodies.length } := by
    refine inFunction_ok.mpr ⟨id, f.addBlock "entry", f.addBlock "entry", hin, rfl, ?_⟩
    exact (LowerState.put_self hin.found).symm
  rw [bind_of_ok hcur, bind_of_ok (bindAll_run _)]
  rfl

theorem body_run {id : Nat} {f : Function} (hf : s.module.function? id = some f) (t : Tree) :
    body site id t s = (do
      block f.bodies.length t
      if !(← terminated) then
        note (.bodyFellOff site.name)
        ret (defaultReturn f.ret)
      leave) (opened site s id f) :=
  opening_run hf fun entry g => do
    block entry t
    if !(← terminated) then
      note (.bodyFellOff site.name)
      ret (defaultReturn g.ret)
    leave

def bodyOf (site : Site) (children : List Tree) (id : Nat) : Lower Unit :=
  match children with
  | [_, _, t] => body site id t
  | ts => throw (site.wrongArity 3 3 ts.length)

theorem function_some (site : Site) (id : Nat) (children : List Tree) :
    function site (some id) children = bodyOf site children id := rfl

theorem function_none (site : Site) (children : List Tree) :
    function site none children = declareFunction site children >>= bodyOf site children := rfl

theorem bodyOf_ok {children : List Tree} {id : Nat} {u : Unit}
    (h : bodyOf site children id s = .ok u t) :
    ∃ result params b, children = [result, params, b] ∧ body site id b s = .ok u t := by
  unfold bodyOf at h
  split at h
  · exact ⟨_, _, _, rfl, h⟩
  · cases h

end Lower

end TreeFlow
