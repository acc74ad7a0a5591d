import TreeFlow.Proofs.Flattening
import TreeFlow.Proofs.SingleAssignment

/-!
# Histories of a function

What a history of operations has made of a function can be read off from what
each operation was asked for and what it returned. Operations that succeed leave
a record: a block, a slot, a seed, an instruction in a block or the end of one.
The slots, the seeds and the code of each block are the records of their kind, in
their order. Operations that fail leave none. A block that has ended takes no
further record.
-/

set_option autoImplicit false

namespace TreeFlow

/-! ## Records -/

/-- What a successful operation has added. -/
inductive Record where
  | block (label : String)
  | slot (register : Nat) (ty : Ty)
  | seed (value pointer : Value)
  | code (block : Nat) (instr : Instr)
  | close (block : Nat) (terminator : Terminator)
  deriving DecidableEq, Repr

namespace Record

def slot? : Record → Option Instr
  | .slot d ty => some (.alloca d ty)
  | _ => none

def seed? : Record → Option Instr
  | .seed v p => some (.store v p)
  | _ => none

def code? (b : Nat) : Record → Option Instr
  | .code c i => if c = b then some i else none
  | _ => none

end Record

def Outcome.register? : Outcome → Option Nat
  | .value (.reg d _) => some d
  | _ => none

namespace Op

/-- The record of an operation that returned `o`. The registers in it are those
that were handed out. -/
def record (o : Outcome) : Op → Option Record
  | .newBlock label => some (.block label)
  | .alloca ty => o.register?.map (.slot · ty)
  | .seed v p => some (.seed v p)
  | .load b ty p => o.register?.map fun d => .code b (.load d ty p)
  | .store b v p => some (.code b (.store v p))
  | .binary b op l r => o.register?.map fun d => .code b (.binary d op l r)
  | .icmp b test l r => o.register?.map fun d => .code b (.icmp d test l r)
  | .call b callee _ args => some (.code b (.call o.register? callee args))
  | .br b t => some (.close b (.br t))
  | .condBr b c t e => some (.close b (.condBr c t e))
  | .ret b v => some (.close b (.ret v))

def record? (f : Function) (op : Op) : Option Record :=
  match op.apply f with
  | .ok o _ => op.record o
  | .error _ _ => none

def records : Function → List Op → List Record
  | _, [] => []
  | f, op :: ops => (op.record? f).toList ++ records (step f op) ops

def block? : Op → Option Nat
  | .load b _ _ | .store b _ _ | .binary b _ _ _ | .icmp b _ _ _ | .call b _ _ _ | .br b _
  | .condBr b _ _ _ | .ret b _ => some b
  | .newBlock _ | .alloca _ | .seed _ _ => none

def targets : Op → List Nat
  | .br _ t => [t]
  | .condBr _ _ t e => [t, e]
  | _ => []

end Op

/-! ## Steps -/

/-- The function `g` is `f` with one record added. -/
inductive Function.Gains (f : Function) : Record → Function → Prop
  | block (label : String) : Gains f (.block label) (f.addBlock label)
  | slot (ty : Ty) (entry : f.bodies ≠ []) : Gains f (.slot f.registers ty) (f.addSlot ty)
  | seed (v p : Value) (entry : f.bodies ≠ []) : Gains f (.seed v p) (f.addSeed v p)
  | define {b : Nat} {k : Block} {i : Instr} (found : f.bodies[b]? = some k)
      (unended : k.terminator = none) (dest : i.dest? = some f.registers)
      (other : i.isAlloca = false) : Gains f (.code b i) (f.takeRegister.append b i)
  | perform {b : Nat} {k : Block} {i : Instr} (found : f.bodies[b]? = some k)
      (unended : k.terminator = none) (dest : i.dest? = none) : Gains f (.code b i) (f.append b i)
  | close {b : Nat} {k : Block} {t : Terminator} (found : f.bodies[b]? = some k)
      (unended : k.terminator = none) (targets : ∀ j ∈ t.successors, j < f.bodies.length) :
      Gains f (.close b t) (f.close b t)

namespace Build

variable {α β : Type} {f g : Function} {x : Build α} {h : α → β}

theorem map_ok {b : β} : (h <$> x) f = .ok b g ↔ ∃ a, x f = .ok a g ∧ h a = b := by
  change EStateM.map h x f = _ ↔ _
  unfold EStateM.map
  cases x f <;> simp [and_comm, eq_comm]

theorem map_error {e : BuildFault} : (h <$> x) f = .error e g ↔ x f = .error e g := by
  change EStateM.map h x f = _ ↔ _
  unfold EStateM.map
  cases x f <;> simp

theorem gains_define {b : Nat} {ty : Ty} {make : Nat → Instr} {v : Value}
    (dest : ∀ d, (make d).dest? = some d) (other : ∀ d, (make d).isAlloca = false)
    (hr : define b ty make f = .ok v g) :
    v = .reg f.registers ty ∧ f.Gains (.code b (make f.registers)) g := by
  obtain ⟨k, hk, ho, hv, rfl⟩ := define_ok.mp hr
  exact ⟨hv, .define hk ho (dest _) (other _)⟩

theorem gains_perform {b : Nat} {i : Instr} {u : Unit} (dest : i.dest? = none)
    (hr : perform b i f = .ok u g) : f.Gains (.code b i) g := by
  obtain ⟨k, hk, ho, rfl⟩ := perform_ok.mp hr
  exact .perform hk ho dest

theorem gains_terminate {b : Nat} {t : Terminator} {u : Unit} (hr : terminate b t f = .ok u g) :
    f.Gains (.close b t) g := by
  obtain ⟨htargets, k, hk, ho, rfl⟩ := terminate_ok.mp hr
  exact .close hk ho htargets

end Build

namespace Op

variable {f g : Function} {op : Op}

theorem apply_gains {o : Outcome} (h : op.apply f = .ok o g) :
    ∃ e, op.record o = some e ∧ f.Gains e g := by
  cases op with
  | newBlock label =>
    obtain ⟨a, ha, -⟩ := Build.map_ok.mp h
    cases ha
    exact ⟨_, rfl, .block label⟩
  | alloca ty =>
    obtain ⟨a, ha, rfl⟩ := Build.map_ok.mp h
    by_cases hb : f.bodies = []
    · rw [Build.alloca_of_empty hb] at ha
      cases ha
    · rw [Build.alloca_of hb] at ha
      cases ha
      exact ⟨_, rfl, .slot ty hb⟩
  | seed v p =>
    obtain ⟨a, ha, -⟩ := Build.map_ok.mp h
    by_cases hb : f.bodies = []
    · rw [Build.seed_of_empty hb] at ha
      cases ha
    · rw [Build.seed_of hb] at ha
      cases ha
      exact ⟨_, rfl, .seed v p hb⟩
  | load | binary | icmp =>
    obtain ⟨a, ha, rfl⟩ := Build.map_ok.mp h
    obtain ⟨rfl, hgains⟩ := Build.gains_define (fun _ => rfl) (fun _ => rfl) ha
    exact ⟨_, rfl, hgains⟩
  | store =>
    obtain ⟨a, ha, -⟩ := Build.map_ok.mp h
    exact ⟨_, rfl, Build.gains_perform rfl ha⟩
  | call b callee ret args =>
    obtain ⟨a, ha, rfl⟩ := Build.map_ok.mp h
    obtain ⟨k, hk, ho, hcall⟩ := Build.call_ok.mp ha
    split at hcall
    · obtain ⟨rfl, rfl⟩ := hcall
      exact ⟨_, rfl, .perform hk ho rfl⟩
    · obtain ⟨rfl, rfl⟩ := hcall
      exact ⟨_, rfl, .define hk ho rfl rfl⟩
  | br | condBr | ret =>
    obtain ⟨a, ha, -⟩ := Build.map_ok.mp h
    exact ⟨_, rfl, Build.gains_terminate ha⟩

/-- The operation asks for a slot where no block can hold it. -/
def wastes (f : Function) : Op → Bool
  | .alloca _ => f.bodies.isEmpty
  | _ => false

theorem bodies_of_wastes (h : op.wastes f = true) : f.bodies = [] := by
  cases op with
  | alloca ty => exact List.isEmpty_iff.mp h
  | _ => cases h

/-- A failed operation leaves the function as it was, but for a register that it
wastes. -/
theorem apply_fails {e : BuildFault} (h : op.apply f = .error e g) :
    g = if op.wastes f then f.takeRegister else f := by
  cases op with
  | newBlock => cases Build.map_error.mp h
  | alloca ty =>
    have ha := Build.map_error.mp h
    by_cases hb : f.bodies = []
    · rw [Build.alloca_of_empty hb] at ha
      cases ha
      exact (if_pos (List.isEmpty_iff.mpr hb)).symm
    · rw [Build.alloca_of hb] at ha
      cases ha
  | seed v p =>
    have ha := Build.map_error.mp h
    by_cases hb : f.bodies = []
    · rw [Build.seed_of_empty hb] at ha
      cases ha
      rfl
    · rw [Build.seed_of hb] at ha
      cases ha
  | load | binary | icmp => exact Build.define_error (Build.map_error.mp h)
  | store => exact Build.perform_error (Build.map_error.mp h)
  | call => exact Build.call_error (Build.map_error.mp h)
  | br | condBr | ret => exact Build.terminate_error (Build.map_error.mp h)

theorem step_cases (f : Function) (op : Op) :
    (∃ e, op.record? f = some e ∧ f.Gains e (step f op)) ∨
      op.record? f = none ∧ (step f op = f ∨ f.bodies = [] ∧ step f op = f.takeRegister) := by
  unfold record? step
  cases h : op.apply f with
  | ok o g => exact .inl (apply_gains h)
  | error e g =>
    have hg := apply_fails h
    refine .inr ⟨rfl, ?_⟩
    show g = f ∨ f.bodies = [] ∧ g = f.takeRegister
    split at hg
    · exact .inr ⟨bodies_of_wastes ‹_›, hg⟩
    · exact .inl hg

end Op

/-! ## Runs -/

namespace Function

variable {f g h : Function} {e : Record} {es fs : List Record}

def emitted (f : Function) (b : Nat) : List Instr := f.bodies[b]?.elim [] Block.instrs

theorem emitted_append {b : Nat} {k : Block} (hk : f.bodies[b]? = some k) (i : Instr) (c : Nat) :
    (f.append b i).emitted c = f.emitted c ++ if b = c then [i] else [] := by
  unfold emitted
  rw [bodies_append]
  split
  · subst c
    simp [hk]
  · simp

theorem emitted_close (f : Function) (b : Nat) (t : Terminator) (c : Nat) :
    (f.close b t).emitted c = f.emitted c := by
  unfold emitted
  rw [bodies_close]
  split
  · cases f.bodies[c]? <;> rfl
  · rfl

theorem emitted_addBlock (f : Function) (label : String) (c : Nat) :
    (f.addBlock label).emitted c = f.emitted c := by
  unfold emitted
  rw [bodies_addBlock]
  split
  · subst c
    simp
  · rfl

/-- The slots, the seeds and the code of `g` are those of `f` with the records
behind them. -/
structure Grows (f : Function) (es : List Record) (g : Function) : Prop where
  slots : g.slots.map Slot.instr = f.slots.map Slot.instr ++ es.filterMap Record.slot?
  seeds : g.seeds.map Seed.instr = f.seeds.map Seed.instr ++ es.filterMap Record.seed?
  code : ∀ b, g.emitted b = f.emitted b ++ es.filterMap (Record.code? b)

theorem Grows.refl (f : Function) : f.Grows [] f :=
  ⟨(List.append_nil _).symm, (List.append_nil _).symm, fun _ => (List.append_nil _).symm⟩

theorem Grows.trans (hf : f.Grows es g) (hg : g.Grows fs h) : f.Grows (es ++ fs) h where
  slots := by rw [hg.slots, hf.slots, List.filterMap_append, List.append_assoc]
  seeds := by rw [hg.seeds, hf.seeds, List.filterMap_append, List.append_assoc]
  code b := by rw [hg.code, hf.code, List.filterMap_append, List.append_assoc]

theorem Gains.grows (h : f.Gains e g) : f.Grows [e] g := by
  -- A record of another kind adds nothing to a list.
  have hkeep : ∀ {is : List Instr}, is = is ++ [] := fun {is} => (List.append_nil is).symm
  cases h with
  | block label => exact ⟨hkeep, hkeep, fun b => (f.emitted_addBlock label b).trans hkeep⟩
  | slot ty => exact ⟨List.map_append, hkeep, fun _ => hkeep⟩
  | seed v p => exact ⟨hkeep, List.map_append, fun _ => hkeep⟩
  | @define b k i found =>
    refine ⟨hkeep, hkeep, fun c => (emitted_append (f := f.takeRegister) found i c).trans ?_⟩
    by_cases hc : b = c <;> simp [hc, Record.code?, emitted, takeRegister]
  | @perform b k i found =>
    refine ⟨hkeep, hkeep, fun c => (emitted_append found i c).trans ?_⟩
    by_cases hc : b = c <;> simp [hc, Record.code?]
  | @close b k t => exact ⟨hkeep, hkeep, fun c => (f.emitted_close b t c).trans hkeep⟩

theorem Gains.extends (h : f.Gains e g) : f.Extends g := by
  cases h with
  | block label => exact f.extends_addBlock label
  | slot ty => exact f.extends_addSlot ty
  | seed v p => exact f.extends_addSeed v p
  | @define b k i found unended =>
    exact f.extends_takeRegister.trans (f.takeRegister.extends_append found unended i)
  | @perform b k i found unended => exact f.extends_append found unended i
  | @close b k t found unended => exact f.extends_close found unended t

theorem Gains.stable {P : Function → Prop} (hP : Lower.Stable P) (h : f.Gains e g) (hf : P f) :
    P g := by
  cases h with
  | block label => exact hP.block label hf
  | slot ty entry => exact hP.slot ty entry hf
  | seed v p => exact hP.seed v p hf
  | define found unended dest other => exact hP.define found unended dest other hf
  | perform found unended dest => exact hP.perform found unended dest hf
  | close found unended targets => exact hP.close found unended targets hf

end Function

namespace Op

theorem run_grows (f : Function) (ops : List Op) : f.Grows (records f ops) (run f ops) := by
  induction ops generalizing f with
  | nil => exact .refl f
  | cons op ops ih =>
    refine Function.Grows.trans ?_ (ih (step f op))
    rcases step_cases f op with ⟨e, he, hgains⟩ | ⟨he, hstep | ⟨-, hstep⟩⟩
    · rw [he]
      exact hgains.grows
    · rw [he, hstep]
      exact .refl f
    · rw [he, hstep]
      exact ⟨(List.append_nil _).symm, (List.append_nil _).symm, fun _ => (List.append_nil _).symm⟩

theorem run_extends (f : Function) (ops : List Op) : f.Extends (run f ops) := by
  induction ops generalizing f with
  | nil => exact .refl f
  | cons op ops ih =>
    refine Function.Extends.trans ?_ (ih (step f op))
    rcases step_cases f op with ⟨e, -, hgains⟩ | ⟨-, hstep | ⟨-, hstep⟩⟩
    · exact hgains.extends
    · rw [hstep]
      exact .refl f
    · rw [hstep]
      exact f.extends_takeRegister

theorem run_stable {P : Function → Prop} (hP : Lower.Stable P) {f : Function} (hf : P f)
    (ops : List Op) : P (run f ops) := by
  induction ops generalizing f with
  | nil => exact hf
  | cons op ops ih =>
    refine ih ?_
    rcases step_cases f op with ⟨e, -, hgains⟩ | ⟨-, hstep | ⟨-, hstep⟩⟩
    · exact hgains.stable hP hf
    · rwa [hstep]
    · rw [hstep]
      exact hP.burn hf

end Op

/-! ## Blocks in their places -/

structure Block.Placed (n b : Nat) (k : Block) : Prop where
  id : k.id = b
  targets : ∀ t, k.terminator = some t → ∀ j ∈ t.successors, j < n
  slots : ∀ i ∈ k.instrs, i.isAlloca = false

def Function.Placed (f : Function) : Prop :=
  ∀ (b : Nat) (k : Block), f.bodies[b]? = some k → k.Placed f.bodies.length b

theorem Function.Placed.append {f : Function} (h : f.Placed) (b : Nat) {i : Instr}
    (hi : i.isAlloca = false) : (f.append b i).Placed := by
  intro c l hl
  rw [Function.bodies_append] at hl
  rw [Function.length_append]
  split at hl
  · obtain ⟨k, hk, rfl⟩ := Option.map_eq_some_iff.mp hl
    obtain ⟨hid, htargets, hslots⟩ := h c k hk
    refine ⟨hid, htargets, fun j hj => ?_⟩
    rcases List.mem_append.mp hj with hj | hj
    · exact hslots j hj
    · exact List.mem_singleton.mp hj ▸ hi
  · exact h c l hl

theorem Function.Placed.stable : Lower.Stable Function.Placed where
  declare _ _ := nofun
  define _ _ _ other h := Function.Placed.append h _ other
  perform := by
    intro f b k i _ _ dest h
    exact h.append b (by cases i <;> simp_all [Instr.dest?, Instr.isAlloca])
  block := by
    intro f label h b k hk
    rw [Function.bodies_addBlock] at hk
    rw [Function.length_addBlock]
    split at hk
    · cases hk
      exact ⟨Eq.symm ‹_›, nofun, nofun⟩
    · obtain ⟨hid, htargets, hslots⟩ := h b k hk
      exact ⟨hid, fun t ht j hj => Nat.lt_succ_of_lt (htargets t ht j hj), hslots⟩
  slot _ _ h := h
  burn h := h
  seed _ _ h := h
  close := by
    intro f b k x _ _ targets h c l hl
    rw [Function.bodies_close] at hl
    rw [Function.length_close]
    split at hl
    · obtain ⟨k', hk', rfl⟩ := Option.map_eq_some_iff.mp hl
      obtain ⟨hid, -, hslots⟩ := h c k' hk'
      refine ⟨hid, fun t ht => ?_, hslots⟩
      obtain rfl : x = t := Option.some.inj ht
      exact targets
    · exact h c l hl

/-! ## Building by position -/

namespace Op

/-- The operation on a flat function. A slot is inserted behind the slots counted
so far and a seed behind the whole prologue, in the one list of the entry block.
There is no result where the position is outside of the list. -/
def place (f : Function) : Op → Option (EStateM.Result BuildFault Function Outcome)
  | .alloca ty =>
    match f.bodies with
    | [] => some (.error (.noEntryBlock f.name) f.takeRegister)
    | k :: ks =>
      if f.slotCount ≤ k.instrs.length then
        some (.ok (.value (.reg f.registers (.ptr ty)))
          { f.addSlot ty with
            bodies := { k with
              instrs := k.instrs.insertIdx f.slotCount (.alloca f.registers ty) } :: ks })
      else none
  | .seed v p =>
    match f.bodies with
    | [] => some (.error (.noEntryBlock f.name) f)
    | k :: ks =>
      if f.prologueLength ≤ k.instrs.length then
        some (.ok .done
          { f.addSeed v p with
            bodies := { k with
              instrs := k.instrs.insertIdx f.prologueLength (.store v p) } :: ks })
      else none
  | op => some (op.apply f)

section Placing

variable {f : Function} {k : Block} {ks : List Block}

theorem place_alloca_nil (hb : f.bodies = []) (ty : Ty) :
    (Op.alloca ty).place f = some (.error (.noEntryBlock f.name) f.takeRegister) := by
  obtain ⟨sig, id, slots, seeds, bodies, registers⟩ := f
  cases hb
  rfl

theorem place_alloca (hb : f.bodies = k :: ks) (hle : f.slotCount ≤ k.instrs.length) (ty : Ty) :
    (Op.alloca ty).place f = some (.ok (.value (.reg f.registers (.ptr ty)))
      { f.addSlot ty with
        bodies := { k with
          instrs := k.instrs.insertIdx f.slotCount (.alloca f.registers ty) } :: ks }) := by
  obtain ⟨sig, id, slots, seeds, bodies, registers⟩ := f
  cases hb
  exact if_pos hle

theorem place_seed_nil (hb : f.bodies = []) (v p : Value) :
    (Op.seed v p).place f = some (.error (.noEntryBlock f.name) f) := by
  obtain ⟨sig, id, slots, seeds, bodies, registers⟩ := f
  cases hb
  rfl

theorem place_seed (hb : f.bodies = k :: ks) (hle : f.prologueLength ≤ k.instrs.length)
    (v p : Value) :
    (Op.seed v p).place f = some (.ok .done
      { f.addSeed v p with
        bodies := { k with
          instrs := k.instrs.insertIdx f.prologueLength (.store v p) } :: ks }) := by
  obtain ⟨sig, id, slots, seeds, bodies, registers⟩ := f
  cases hb
  exact if_pos hle

end Placing

def placeAll : Function → List Op → Option Function
  | f, [] => some f
  | f, op :: ops => (op.place f).bind fun r => placeAll (final r) ops

end Op

theorem Function.length_prologue (f : Function) : f.prologue.length = f.prologueLength := by
  simp [prologue, prologueLength]

theorem View.Respects.map {α β : Type} {v : View} {x y : Build α} (h : v.Respects x y)
    (k : α → β) : v.Respects (k <$> x) (k <$> y) := by
  intro f hf
  obtain ⟨hrun, hdomain⟩ := h f hf
  change EStateM.map k y _ = seen id v.shown (EStateM.map k x f) ∧
    v.domain (final (EStateM.map k x f))
  unfold EStateM.map
  rw [hrun]
  cases hx : x f with
  | ok a g =>
    rw [hx] at hdomain
    exact ⟨rfl, hdomain⟩
  | error e g =>
    rw [hx] at hdomain
    exact ⟨rfl, hdomain⟩

namespace Op

theorem step_eq_final (f : Function) (op : Op) : step f op = final (op.apply f) := by
  unfold step
  cases op.apply f <;> rfl

theorem place_flat {f : Function} (hf : f.Rooted) (op : Op) :
    op.place f.flat = some (seen id Function.flat (op.apply f)) ∧ (step f op).Rooted := by
  rw [step_eq_final]
  have hother : View.flat.Respects op.apply op.apply →
      some (op.apply f.flat) = some (seen id Function.flat (op.apply f)) ∧
        (final (op.apply f)).Rooted := fun h => ⟨congrArg some (h f hf).1, (h f hf).2⟩
  cases op with
  | newBlock label => exact hother ((View.flat.newBlock label).map _)
  | alloca ty =>
    cases hb : f.bodies with
    | nil =>
      have happly : (Op.alloca ty).apply f = .error (.noEntryBlock f.name) f.takeRegister :=
        Build.map_error.mpr (Build.alloca_of_empty hb)
      rw [happly, place_alloca_nil (by simp [Function.flat, Function.blocks, hb])]
      exact ⟨rfl, hf⟩
    | cons k ks =>
      have happly : (Op.alloca ty).apply f =
          .ok (.value (.reg f.registers (.ptr ty))) (f.addSlot ty) :=
        Build.map_ok.mpr ⟨_, Build.alloca_of (by simp [hb]), rfl⟩
      have hflat : f.flat.bodies = { k with instrs := f.prologue ++ k.instrs } :: ks := by
        simp [Function.flat, Function.blocks, hb]
      have hle : f.slotCount ≤ (f.prologue ++ k.instrs).length := by
        simp [Function.slotCount, Function.prologue]
      rw [happly, place_alloca hflat hle, seen, Function.flat_addSlot hb]
      exact ⟨rfl, Function.rooted_of_cons hb⟩
  | seed v p =>
    cases hb : f.bodies with
    | nil =>
      have happly : (Op.seed v p).apply f = .error (.noEntryBlock f.name) f :=
        Build.map_error.mpr (Build.seed_of_empty hb)
      rw [happly, place_seed_nil (by simp [Function.flat, Function.blocks, hb])]
      exact ⟨rfl, hf⟩
    | cons k ks =>
      have happly : (Op.seed v p).apply f = .ok .done (f.addSeed v p) :=
        Build.map_ok.mpr ⟨_, Build.seed_of (by simp [hb]), rfl⟩
      have hflat : f.flat.bodies = { k with instrs := f.prologue ++ k.instrs } :: ks := by
        simp [Function.flat, Function.blocks, hb]
      have hle : f.prologueLength ≤ (f.prologue ++ k.instrs).length := by
        rw [List.length_append, f.length_prologue]
        exact Nat.le_add_right _ _
      rw [happly, place_seed hflat hle, seen, Function.flat_addSeed hb]
      exact ⟨rfl, Function.rooted_of_cons hb⟩
  | load b ty p => exact hother ((View.flat.define b ty _).map _)
  | store b v p => exact hother ((View.flat.perform b _).map _)
  | binary b op l r => exact hother ((View.flat.define b _ _).map _)
  | icmp b test l r => exact hother ((View.flat.define b _ _).map _)
  | call b callee ret args => exact hother ((View.flat.call (fun _ => rfl) b ret).map _)
  | br b t => exact hother ((View.flat.terminate b _).map _)
  | condBr b c t e => exact hother ((View.flat.terminate b _).map _)
  | ret b v => exact hother ((View.flat.terminate b _).map _)

/-- No position is ever outside of the entry block. -/
theorem placeAll_flat {f : Function} (hf : f.Rooted) (ops : List Op) :
    placeAll f.flat ops = some (run f ops).flat := by
  induction ops generalizing f with
  | nil => rfl
  | cons op ops ih =>
    obtain ⟨hplace, hroot⟩ := place_flat hf op
    rw [placeAll, hplace, Option.bind_some, run, ← ih hroot, step_eq_final]
    cases op.apply f <;> rfl

end Op

/-! ## What a history leaves -/

namespace Function

variable {f : Function} {b : Nat} {k : Block}

theorem block?_instrs (h : f.block? b = some k) : k.instrs = f.lead b ++ f.emitted b := by
  obtain ⟨l, hl, rfl⟩ := block?_eq_some.mp h
  simp [emitted, hl]

theorem entry_parts (h : f.block? 0 = some k) :
    k.instrs.take f.slotCount = f.slots.map Slot.instr ∧
      (k.instrs.take f.prologueLength).drop f.slotCount = f.seeds.map Seed.instr ∧
        k.instrs.drop f.prologueLength = f.emitted 0 := by
  have hinstrs : k.instrs = f.prologue ++ f.emitted 0 := block?_instrs h
  have hslots : (f.slots.map Slot.instr).length = f.slotCount := List.length_map _
  rw [hinstrs]
  refine ⟨?_, ?_, List.drop_left' f.length_prologue⟩
  · rw [prologue, List.append_assoc]
    exact List.take_left' hslots
  · rw [List.take_left' f.length_prologue, prologue]
    exact List.drop_left' hslots

/-- A function with all that a history of it has recorded. Its blocks have their
positions for identities and lead to blocks that exist, and each register is
defined once. The entry block has the slots first, then the seeds and then its
code, and there are no slots elsewhere. Every other block has its code. -/
structure Keeps (f : Function) (es : List Record) : Prop where
  ids : ∀ b k, f.block? b = some k → k.id = b
  targets : ∀ b k t, f.block? b = some k → k.terminator = some t →
    ∀ j ∈ t.successors, j < f.blocks.length
  registers : f.defined.Nodup ∧ ∀ d ∈ f.defined, d < f.registers
  counts : f.slotCount ≤ f.prologueLength ∧
    f.prologueLength ≤ (f.block? 0).elim 0 fun k => k.instrs.length
  slots : ∀ k, f.block? 0 = some k → k.instrs.take f.slotCount = es.filterMap Record.slot?
  nowhere : ∀ b k o i, f.block? b = some k → k.instrs[o]? = some i → i.isAlloca = true →
    b = 0 ∧ o < f.slotCount
  seeds : ∀ k, f.block? 0 = some k →
    (k.instrs.take f.prologueLength).drop f.slotCount = es.filterMap Record.seed?
  entry : ∀ k, f.block? 0 = some k →
    k.instrs.drop f.prologueLength = es.filterMap (Record.code? 0)
  others : ∀ b k, b ≠ 0 → f.block? b = some k → k.instrs = es.filterMap (Record.code? b)

theorem Once.defined (h : f.Once) : f.defined.Nodup ∧ ∀ d ∈ f.defined, d < f.registers := by
  by_cases hb : f.bodies = []
  · have hnone : f.defined = [] := by simp [Function.defined, code, blocks, hb]
    rw [hnone]
    exact ⟨List.nodup_nil, fun _ hd => absurd hd List.not_mem_nil⟩
  · rw [defined_eq hb]
    exact ⟨h.nodup, h.below⟩

theorem Placed.slots_first (h : f.Placed) {o : Nat} {i : Instr} (hk : f.block? b = some k)
    (hi : k.instrs[o]? = some i) (hslot : i.isAlloca = true) : b = 0 ∧ o < f.slotCount := by
  obtain ⟨l, hl, rfl⟩ := block?_eq_some.mp hk
  have hbody : i ∉ l.instrs := fun hmem => by simp [(h b l hl).slots i hmem] at hslot
  have hseed : i ∉ f.seeds.map Seed.instr := fun hmem => by
    obtain ⟨s, -, rfl⟩ := List.mem_map.mp hmem
    cases hslot
  by_cases hb : b = 0
  · refine ⟨hb, Nat.lt_of_not_le fun hle => ?_⟩
    replace hi : (f.slots.map Slot.instr ++ (f.seeds.map Seed.instr ++ l.instrs))[o]? = some i := by
      simpa [lead, hb, prologue] using hi
    rw [List.getElem?_append_right (by simpa [slotCount] using hle)] at hi
    rcases List.mem_append.mp (List.mem_of_getElem? hi) with hmem | hmem
    · exact hseed hmem
    · exact hbody hmem
  · replace hi : l.instrs[o]? = some i := by simpa [lead, hb] using hi
    exact absurd (List.mem_of_getElem? hi) hbody

theorem Grows.keeps {id : Nat} {sig : Signature} {es : List Record}
    (h : (declare id sig).Grows es f) (placed : f.Placed) (once : f.Once) (rooted : f.Rooted) :
    f.Keeps es where
  ids b k hk := by
    obtain ⟨l, hl, rfl⟩ := block?_eq_some.mp hk
    exact (placed b l hl).id
  targets b k t hk ht := by
    obtain ⟨l, hl, rfl⟩ := block?_eq_some.mp hk
    rw [blocks_length]
    exact (placed b l hl).targets t ht
  registers := once.defined
  counts := by
    refine ⟨Nat.le_add_right _ _, ?_⟩
    cases hk : f.block? 0 with
    | none =>
      have hb : f.bodies = [] := by simpa [block?, blocks_length] using hk
      obtain ⟨hslots, hseeds⟩ := rooted hb
      simp [prologueLength, hslots, hseeds]
    | some k =>
      show f.prologueLength ≤ k.instrs.length
      rw [block?_instrs hk, List.length_append, ← f.length_prologue]
      exact Nat.le_add_right _ _
  slots k hk := (entry_parts hk).1.trans h.slots
  nowhere b k o i hk hi hslot := placed.slots_first hk hi hslot
  seeds k hk := (entry_parts hk).2.1.trans h.seeds
  entry k hk := (entry_parts hk).2.2.trans (h.code 0)
  others b k hb hk := by
    rw [block?_instrs hk, lead, if_neg hb]
    exact h.code b

end Function

theorem Op.run_rooted {f : Function} (hf : f.Rooted) (ops : List Op) : (run f ops).Rooted := by
  induction ops generalizing f with
  | nil => exact hf
  | cons op ops ih => exact ih (place_flat hf op).2

/-- Every history of operations on a new function, failed ones included, leaves a
function that keeps its records in order. Building by position, in one list of
instructions for each block, leaves the same function. -/
theorem Op.run_keeps (id : Nat) (sig : Signature) (ops : List Op) :
    placeAll (.declare id sig) ops = some (run (.declare id sig) ops).flat ∧
      (run (.declare id sig) ops).Keeps (records (.declare id sig) ops) :=
  have rooted := Function.rooted_declare id sig
  ⟨placeAll_flat rooted ops, (run_grows _ ops).keeps
    (run_stable Function.Placed.stable (Function.Placed.stable.declare id sig) ops)
    (run_stable Function.Once.stable (Function.Once.stable.declare id sig) ops)
    (run_rooted rooted ops)⟩

/-! ## Ended blocks -/

namespace Build

variable {f : Function} {b : Nat}

theorem perform_refused (h : f.openBlock b = .error (.blockTerminated b)) (i : Instr) :
    perform b i f = .error (.blockTerminated b) f := by simp only [perform, h]

theorem define_refused (h : f.openBlock b = .error (.blockTerminated b)) (ty : Ty)
    (make : Nat → Instr) : define b ty make f = .error (.blockTerminated b) f := by
  simp only [define, h]

theorem call_refused (h : f.openBlock b = .error (.blockTerminated b)) (callee : Nat) (ret : Ty)
    (args : List Value) : call b callee ret args f = .error (.blockTerminated b) f := by
  cases hv : ret.isVoid with
  | true => rw [call_of_void hv, perform_refused h]
  | false => rw [call_of_value hv, define_refused h]

theorem terminate_refused (h : f.openBlock b = .error (.blockTerminated b)) (t : Terminator) :
    terminate b t f = .error ((t.successors.find? fun j => f.bodies.length ≤ j).elim
      (.blockTerminated b) .unknownBlock) f := by
  unfold terminate
  cases t.successors.find? fun j => f.bodies.length ≤ j with
  | none => simp only [h, Option.elim]
  | some j => rfl

end Build

theorem Op.apply_refused {f : Function} {b : Nat} {k : Block} (hk : f.bodies[b]? = some k)
    (ht : k.terminator ≠ none) {op : Op} (hop : op.block? = some b) :
    op.apply f = .error ((op.targets.find? fun j => f.bodies.length ≤ j).elim
      (.blockTerminated b) .unknownBlock) f := by
  have hended : k.terminated = true := Option.isSome_iff_ne_none.mpr ht
  have hopen : f.openBlock b = .error (.blockTerminated b) := by
    simp [Function.openBlock, hk, hended]
  cases op with
  | newBlock | alloca | seed => cases hop
  | load | binary | icmp =>
    cases hop
    exact Build.map_error.mpr (Build.define_refused hopen _ _)
  | store =>
    cases hop
    exact Build.map_error.mpr (Build.perform_refused hopen _)
  | call =>
    cases hop
    exact Build.map_error.mpr (Build.call_refused hopen _ _ _)
  | br | condBr | ret =>
    cases hop
    exact Build.map_error.mpr (Build.terminate_refused hopen _)

theorem Function.Grows.entry {f g : Function} {es : List Record} (h : f.Grows es g) {k l : Block}
    (hk : f.block? 0 = some k) (hl : g.block? 0 = some l) (hbody : g.emitted 0 = f.emitted 0) :
    l.instrs.drop g.prologueLength = k.instrs.drop f.prologueLength ∧
      l.instrs = k.instrs.take f.slotCount ++ es.filterMap Record.slot? ++
        (k.instrs.take f.prologueLength).drop f.slotCount ++ es.filterMap Record.seed? ++
          k.instrs.drop f.prologueLength := by
  obtain ⟨hslots, hseeds, hcode⟩ := entry_parts hk
  rw [hslots, hseeds, hcode]
  refine ⟨(entry_parts hl).2.2.trans hbody, ?_⟩
  have hinstrs : l.instrs = g.prologue ++ g.emitted 0 := block?_instrs hl
  rw [hinstrs, hbody, prologue, h.slots, h.seeds]
  simp only [List.append_assoc]

/-- A block that has ended is never changed again. It keeps its end and its code,
and only the prologue of the entry block takes further slots and seeds. Whoever
emits into it or ends it is refused, for a target that does not exist or else
because it has ended. -/
theorem Op.run_frozen {f : Function} {b : Nat} {k : Block} {t : Terminator}
    (hk : f.block? b = some k) (ht : k.terminator = some t) (ops : List Op) :
    (∃ l, (run f ops).block? b = some l ∧ l.terminator = some t ∧ (b ≠ 0 → l = k) ∧
      (b = 0 → l.instrs.drop (run f ops).prologueLength = k.instrs.drop f.prologueLength ∧
        l = { k with
          instrs := k.instrs.take f.slotCount ++ (records f ops).filterMap Record.slot? ++
            (k.instrs.take f.prologueLength).drop f.slotCount ++
              (records f ops).filterMap Record.seed? ++ k.instrs.drop f.prologueLength })) ∧
    placeAll f.flat ops = some (run f ops).flat ∧
    ∀ op : Op, op.block? = some b → op.apply (run f ops) =
      .error ((op.targets.find? fun j => (run f ops).blocks.length ≤ j).elim
        (.blockTerminated b) .unknownBlock) (run f ops) := by
  obtain ⟨k₀, hk₀, rfl⟩ := Function.block?_eq_some.mp hk
  replace ht : k₀.terminator = some t := ht
  have hrooted : f.Rooted := fun hnil => by simp [hnil] at hk₀
  obtain ⟨l₀, hl₀, hkept⟩ := (run_extends f ops).blocks b k₀ hk₀
  obtain rfl := hkept.ended (by simp [ht])
  have hl := Function.block?_eq_some.mpr ⟨l₀, hl₀, rfl⟩
  refine ⟨⟨_, hl, ht, fun hb => ?_, fun hb => ?_⟩, placeAll_flat hrooted ops, fun op hop => ?_⟩
  · simp only [Function.lead, if_neg hb]
  · subst hb
    have hbody : (run f ops).emitted 0 = f.emitted 0 := by simp only [Function.emitted, hl₀, hk₀]
    obtain ⟨hdrop, hinstrs⟩ := (run_grows f ops).entry hk hl hbody
    exact ⟨hdrop, congrArg (fun is => Block.mk l₀.id l₀.label is l₀.terminator) hinstrs⟩
  · rw [Function.blocks_length]
    exact apply_refused hl₀ (by simp [ht]) hop

def Function.brief : Function :=
  Op.run (.declare 0 ⟨"f", .void, [], false⟩) [.newBlock "entry", .alloca .i32,
    .store 0 (.int 1) (.reg 0 (.ptr .i32)), .ret 0 none]

theorem Op.run_frozen_brief :
    Function.brief.block? 0 = some ⟨0, "entry.0", [.alloca 0 .i32,
      .store (.int 1) (.reg 0 (.ptr .i32))], some (.ret none)⟩ ∧
    ∃ g, g = run Function.brief [.seed (.int 2) (.reg 0 (.ptr .i32)), .load 0 .i32 (.int 0),
      .alloca .i32] ∧
      g.block? 0 = some ⟨0, "entry.0", [.alloca 0 .i32, .alloca 1 .i32,
        .store (.int 2) (.reg 0 (.ptr .i32)), .store (.int 1) (.reg 0 (.ptr .i32))],
          some (.ret none)⟩ ∧
      (Op.ret 0 none).apply g = .error (.blockTerminated 0) g ∧
      (Op.condBr 0 (.int 0) 0 7).apply g = .error (.unknownBlock 7) g := by
  have hblock : Function.brief.block? 0 = some ⟨0, "entry.0", [.alloca 0 .i32,
      .store (.int 1) (.reg 0 (.ptr .i32))], some (.ret none)⟩ := by decide +kernel
  obtain ⟨⟨l, hl, -, -, hentry⟩, -, hrefused⟩ := run_frozen hblock rfl
    [.seed (.int 2) (.reg 0 (.ptr .i32)), .load 0 .i32 (.int 0), .alloca .i32]
  refine ⟨hblock, _, rfl, hl.trans (congrArg some ((hentry rfl).2.trans ?_)), ?_, ?_⟩
  · decide +kernel
  · exact hrefused (.ret 0 none) rfl
  · exact (hrefused (.condBr 0 (.int 0) 0 7) rfl).trans
      (congrArg (fun e => EStateM.Result.error e _) (by decide +kernel))

end TreeFlow
