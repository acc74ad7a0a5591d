import TreeFlow.Proofs.Paths
import TreeFlow.Proofs.Positional
import TreeFlow.Proofs.Views

/-!
# Flat functions

Each operation of the builder does the same on a flat function as on one that
keeps its prologue apart, and so does each action of the lowering on a state
with flat functions. A slot inserted behind the counted slots, or a seed behind
the prologue, is where the flat form has it. This needs that slots and seeds
only exist where there is an entry block to hold them.
-/

set_option autoImplicit false

namespace TreeFlow

/-! ## Flat functions -/

namespace Function

variable {f : Function}

/-- Slots and seeds stand in an entry block. -/
def Rooted (f : Function) : Prop := f.bodies = [] → f.slots = [] ∧ f.seeds = []

theorem flat_getElem? (f : Function) (b : Nat) :
    f.flat.bodies[b]? =
      f.bodies[b]?.map fun k => { k with instrs := f.lead b ++ k.instrs } := by
  unfold flat blocks lead
  cases f.bodies with
  | nil => rfl
  | cons k ks => cases b <;> simp

theorem flat_modify (f : Function) (b : Nat) {change : Block → Block}
    (h : ∀ k is, change { k with instrs := is ++ k.instrs } =
      { change k with instrs := is ++ (change k).instrs }) :
    Function.flat { f with bodies := f.bodies.modify b change } =
      { f.flat with bodies := f.flat.bodies.modify b change } := by
  unfold flat blocks
  cases f.bodies with
  | nil => cases b <;> rfl
  | cons k ks =>
    cases b with
    | zero => simpa [prologue] using (h k f.prologue).symm
    | succ b => rfl

theorem flat_append (f : Function) (b : Nat) (i : Instr) :
    (f.append b i).flat = f.flat.append b i :=
  f.flat_modify b fun k is => by rw [List.append_assoc]

theorem flat_close (f : Function) (b : Nat) (t : Terminator) :
    (f.close b t).flat = f.flat.close b t :=
  f.flat_modify b fun _ _ => rfl

theorem flat_addBlock (h : f.Rooted) (label : String) :
    (f.addBlock label).flat = f.flat.addBlock label := by
  unfold flat addBlock blocks
  cases hb : f.bodies with
  | nil =>
    obtain ⟨hslots, hseeds⟩ := h hb
    simp [prologue, hslots, hseeds]
  | cons k ks => simp [prologue]

theorem insertIdx_length_append {α : Type} (xs ys : List α) (x : α) :
    (xs ++ ys).insertIdx xs.length x = xs ++ x :: ys := by
  induction xs with
  | nil => rfl
  | cons y xs ih => simp [ih]

theorem flat_addSlot {k : Block} {ks : List Block} (hf : f.bodies = k :: ks) (ty : Ty) :
    (f.addSlot ty).flat =
      { f.addSlot ty with
        bodies := { k with
          instrs := (f.prologue ++ k.instrs).insertIdx f.slotCount (.alloca f.registers ty) }
            :: ks } := by
  have hinsert := insertIdx_length_append (f.slots.map Slot.instr)
    (f.seeds.map Seed.instr ++ k.instrs) (.alloca f.registers ty)
  rw [List.length_map] at hinsert
  simp [flat, addSlot, takeRegister, blocks, hf, prologue, slotCount, hinsert, Slot.instr]

theorem flat_addSeed {k : Block} {ks : List Block} (hf : f.bodies = k :: ks) (v p : Value) :
    (f.addSeed v p).flat =
      { f.addSeed v p with
        bodies := { k with
          instrs := (f.prologue ++ k.instrs).insertIdx f.prologueLength (.store v p) }
            :: ks } := by
  have hinsert := insertIdx_length_append f.prologue k.instrs (.store v p)
  have hlength : f.prologue.length = f.prologueLength := by simp [prologue, prologueLength]
  rw [hlength] at hinsert
  simp [flat, addSeed, blocks, hf, hinsert]
  simp [prologue, Seed.instr]

theorem rooted_of_cons {k : Block} {ks : List Block} (h : f.bodies = k :: ks) : f.Rooted := by
  intro hnil
  rw [hnil] at h
  cases h

theorem rooted_addBlock (f : Function) (label : String) : (f.addBlock label).Rooted := by
  intro hnil
  simp [addBlock] at hnil

theorem Rooted.append (h : f.Rooted) (b : Nat) (i : Instr) : (f.append b i).Rooted := by
  intro hnil
  exact h (by simpa [Function.append] using hnil)

theorem Rooted.close (h : f.Rooted) (b : Nat) (t : Terminator) : (f.close b t).Rooted := by
  intro hnil
  exact h (by simpa [Function.close] using hnil)

theorem rooted_declare (id : Nat) (sig : Signature) : (declare id sig).Rooted :=
  fun _ => ⟨rfl, rfl⟩

end Function

def View.flat : View where
  shown := Function.flat
  instr i := i
  domain := Function.Rooted
  registers _ := rfl
  length f := f.blocks_length
  block f b := ⟨fun k => { k with instrs := f.lead b ++ k.instrs }, fun _ => rfl, f.flat_getElem? b⟩
  takeRegister _ := rfl
  append f b i := f.flat_append b i
  close f b t := f.flat_close b t
  addBlock _ label hf := Function.flat_addBlock hf label
  domain_takeRegister hf := hf
  domain_append b i hf := hf.append b i
  domain_close b t hf := hf.close b t
  domain_addBlock label _ := Function.rooted_addBlock _ label

/-! ## Actions -/

def LowerState.flat (s : LowerState) : LowerState := { s with module := s.module.flat }

def LowerState.Rooted (s : LowerState) : Prop := ∀ f ∈ s.module.functions, f.Rooted

namespace Positional

variable {α β : Type} {s t : LowerState}

/-- From a state, the second action does on flat functions what the first one
does. -/
def Renders (s : LowerState) (x : Lower α) (y : Positional α) : Prop :=
  s.Rooted → y s.flat = seen Stop.error LowerState.flat (x s) ∧ (final (x s)).Rooted

theorem bind_of_ok {x : Positional α} {k : α → Positional β} {a : α} (h : x s = .ok a t) :
    (x >>= k) s = k a t := by
  change EStateM.bind x k s = _
  simp only [EStateM.bind, h]

theorem bind_of_error {x : Positional α} {k : α → Positional β} {e : Stop}
    (h : x s = .error e t) : (x >>= k) s = .error e t := by
  change EStateM.bind x k s = _
  simp only [EStateM.bind, h]

theorem of_ok {x : Lower α} {a : α} (h : x s = .ok a t) : of x s = .ok a t := by rw [of, h]

theorem of_error {x : Lower α} {e : LowerError} (h : x s = .error e t) :
    of x s = .error (.error e) t := by rw [of, h]

theorem of_bind (x : Lower α) (k : α → Lower β) :
    of (x >>= k) = of x >>= fun a => of (k a) := by
  funext s
  cases h : x s with
  | ok a t =>
    rw [bind_of_ok (of_ok h), of, Lower.bind_of_ok h]
    rfl
  | error e t => rw [bind_of_error (of_error h), of_error (Lower.bind_of_error h)]

theorem Renders.bind {x : Lower α} {y : Positional α} {k : α → Lower β} {l : α → Positional β}
    (hx : Renders s x y) (hk : ∀ a t, x s = .ok a t → Renders t (k a) (l a)) :
    Renders s (x >>= k) (y >>= l) := by
  intro hs
  obtain ⟨hrun, hroot⟩ := hx hs
  cases h : x s with
  | ok a t =>
    rw [h] at hrun hroot
    rw [bind_of_ok hrun, Lower.bind_of_ok h]
    exact hk a t h hroot
  | error e t =>
    rw [h] at hrun hroot
    rw [bind_of_error hrun, Lower.bind_of_error h]
    exact ⟨rfl, hroot⟩

theorem renders_pure (a : α) : Renders s (pure a) (pure a) := fun hs => ⟨rfl, hs⟩

theorem renders_fail (e : LowerError) : Renders s (throw e : Lower α) (fail e) :=
  fun hs => ⟨rfl, hs⟩

theorem renders_refuse (e : BuildFault) :
    Renders s (Lower.refuse e : Lower α) (of (Lower.refuse e)) := fun hs => ⟨rfl, hs⟩

theorem renders_check (x : Except LowerError α) : Renders s (Lower.lift x) (check x) := by
  intro hs
  cases x with
  | ok a => exact ⟨rfl, hs⟩
  | error e => exact ⟨rfl, hs⟩

theorem renders_modify {change : LowerState → LowerState}
    (hflat : (change s).flat = change s.flat)
    (hroot : s.Rooted → (change s).Rooted) :
    Renders s (modify change) (of (modify change)) :=
  fun hs => ⟨congrArg (EStateM.Result.ok ()) hflat.symm, hroot hs⟩

theorem renders_get {k : LowerState → Lower α} {l : LowerState → Positional α}
    (h : Renders s (k s) (l s.flat)) : Renders s (get >>= k) (get >>= l) := h

theorem of_get_bind (k : LowerState → Lower α) :
    of (get >>= k) = get >>= fun s => of (k s) := rfl

theorem renders_ensuring {x : Lower α} {y : Positional α} {after : LowerState → LowerState}
    (hflat : ∀ s, (after s).flat = after s.flat) (hroot : ∀ s, s.Rooted → (after s).Rooted)
    (h : Renders s x y) : Renders s (Lower.ensuring x after) (ensuring y after) := by
  intro hs
  obtain ⟨hrun, hfinal⟩ := h hs
  unfold ensuring Lower.ensuring
  rw [hrun]
  cases hx : x s with
  | ok a t =>
    rw [hx] at hfinal
    exact ⟨congrArg (EStateM.Result.ok a) (hflat t).symm, hroot t hfinal⟩
  | error e t =>
    rw [hx] at hfinal
    exact ⟨congrArg (EStateM.Result.error _) (hflat t).symm, hroot t hfinal⟩

theorem renders_note (e : Event) : Renders s (Lower.note e) (of (Lower.note e)) :=
  renders_modify rfl fun h => h

theorem renders_descend (site : Site) :
    Renders s (Lower.descend site) (of (Lower.descend site)) := by
  intro hs
  by_cases h : maxDepth ≤ s.depth
  · have hrun : ∀ u : LowerState, u.depth = s.depth →
        Lower.descend site u = .error (site.fault (.tooDeep site.kind)) u := by
      intro u hu
      simp [Lower.descend, hu, h]
    rw [of, hrun s.flat rfl, hrun s rfl]
    exact ⟨rfl, hs⟩
  · have hrun : ∀ u : LowerState, u.depth = s.depth →
        Lower.descend site u = .ok () (Lower.deeper u) := by
      intro u hu
      simp [Lower.descend, hu, h, Lower.deeper]
    rw [of, hrun s.flat rfl, hrun s rfl]
    exact ⟨rfl, hs⟩

theorem renders_nested {site : Site} {x : Lower α} {y : Positional α}
    (h : ∀ t, Renders t x y) : Renders s (Lower.nested site x) (nested site y) :=
  (renders_descend site).bind fun _ t _ =>
    renders_ensuring (fun _ => rfl) (fun _ h => h) (h t)

theorem renders_inLoop {l : LoopTargets} {x : Lower α} {y : Positional α}
    (h : ∀ t, Renders t x y) : Renders s (Lower.inLoop l x) (inLoop l y) :=
  (renders_modify rfl fun h => h : Renders s (Lower.pushLoop l) (of (Lower.pushLoop l))).bind
    fun _ t _ => renders_ensuring (fun _ => rfl) (fun _ h => h) (h t)

/-! ### The function under the cursor -/

theorem function?_flat (m : Module) (id : Nat) :
    m.flat.function? id = (m.function? id).map Function.flat :=
  List.getElem?_map

theorem flat_put (s : LowerState) (id : Nat) (f : Function) :
    (s.put id f).flat = s.flat.put id f.flat := by
  simp [LowerState.flat, LowerState.put, Module.flat, Module.setFunction, List.map_set]

theorem In.flat {id : Nat} {f : Function} (h : s.In id f) : s.flat.In id f.flat :=
  ⟨h.function, by rw [LowerState.flat, function?_flat, h.found]; rfl⟩

theorem rooted_found {id : Nat} {f : Function} (hs : s.Rooted)
    (h : s.module.function? id = some f) : f.Rooted :=
  hs f (List.mem_of_getElem? h)

theorem rooted_put {id : Nat} {f : Function} (hs : s.Rooted) (hf : f.Rooted) :
    (s.put id f).Rooted := by
  intro g hg
  rcases List.mem_or_eq_of_mem_set hg with hg | rfl
  · exact hs g hg
  · exact hf

theorem inFunction_outside (h : ∀ id f, ¬ s.In id f) :
    ∃ e : BuildFault, ∀ {γ : Type} (act : Build γ),
      Lower.inFunction act s = Lower.refuse e s ∧
      Lower.inFunction act s.flat = Lower.refuse e s.flat := by
  cases hf : s.function with
  | none => exact ⟨.noInsertionPoint, fun act => by simp [Lower.inFunction, LowerState.flat, hf]⟩
  | some id =>
    cases hm : s.module.function? id with
    | some f => exact absurd ⟨hf, hm⟩ (h id f)
    | none =>
      exact ⟨.unknownFunction id, fun act => by
        simp [Lower.inFunction, LowerState.flat, hf, hm, function?_flat]⟩

theorem renders_inFunction {act : Build α} (hact : View.flat.Respects act act) :
    Renders s (Lower.inFunction act) (of (Lower.inFunction act)) := by
  intro hs
  by_cases h : ∃ id f, s.In id f
  · obtain ⟨id, f, hin⟩ := h
    obtain ⟨hrun, hroot⟩ : act f.flat = seen (fun e => e) Function.flat (act f) ∧
        (final (act f)).Rooted := hact f (rooted_found hs hin.found)
    rw [of, Lower.inFunction_of (In.flat hin), Lower.inFunction_of hin, hrun]
    cases ha : act f with
    | ok a g =>
      rw [ha] at hroot
      exact ⟨congrArg (EStateM.Result.ok a) (flat_put s id g).symm, rooted_put hs hroot⟩
    | error e g =>
      rw [ha] at hroot
      exact ⟨congrArg (EStateM.Result.error _) (flat_put s id g).symm, rooted_put hs hroot⟩
  · obtain ⟨e, he⟩ := inFunction_outside fun id f hin => h ⟨id, f, hin⟩
    rw [of, (he act).1, (he act).2]
    exact ⟨rfl, hs⟩

theorem renders_inBlock {act : Nat → Build α} (hact : ∀ b, View.flat.Respects (act b) (act b)) :
    Renders s (Lower.inBlock act) (of (Lower.inBlock act)) := by
  unfold Lower.inBlock
  rw [of_bind]
  refine Renders.bind ?_ fun b t _ => renders_inFunction (hact b)
  intro hs
  have hblock : s.flat.block = s.block := rfl
  cases hb : s.block with
  | none =>
    have hrun : ∀ u : LowerState, u.block = s.block →
        Lower.currentBlock u = Lower.refuse .noInsertionPoint u := by
      intro u hu
      simp [Lower.currentBlock, hu, hb]
    rw [of, hrun s.flat rfl, hrun s rfl]
    exact ⟨rfl, hs⟩
  | some b =>
    have hrun : ∀ u : LowerState, u.block = s.block → Lower.currentBlock u = .ok b u := by
      intro u hu
      simp [Lower.currentBlock, hu, hb]
    rw [of, hrun s.flat rfl, hrun s rfl]
    exact ⟨rfl, hs⟩

theorem current_of {id : Nat} {f : Function} (h : s.In id f) :
    Lower.currentFunction s = .ok f s :=
  Lower.inFunction_ok.mpr ⟨id, f, f, h, rfl, (LowerState.put_self h.found).symm⟩

theorem renders_current {k : Function → Lower α} {l : Function → Positional α}
    (h : ∀ f, Renders s (k f) (l f.flat)) :
    Renders s (Lower.currentFunction >>= k) (of Lower.currentFunction >>= l) := by
  intro hs
  by_cases hc : ∃ id f, s.In id f
  · obtain ⟨id, f, hin⟩ := hc
    rw [bind_of_ok (of_ok (current_of (In.flat hin))), Lower.bind_of_ok (current_of hin)]
    exact h f hs
  · obtain ⟨e, he⟩ := inFunction_outside fun id f hin => hc ⟨id, f, hin⟩
    have hrun : Lower.currentFunction s = .error ⟨.builder e, none⟩ s := (he _).1
    have hflat : Lower.currentFunction s.flat = .error ⟨.builder e, none⟩ s.flat := (he _).2
    rw [bind_of_error (of_error hflat), Lower.bind_of_error hrun]
    exact ⟨rfl, hs⟩

theorem renders_terminated : Renders s Lower.terminated (of Lower.terminated) :=
  renders_inBlock View.flat.terminated

theorem renders_setBlock (b : Nat) : Renders s (Lower.setBlock b) (of (Lower.setBlock b)) := by
  unfold Lower.setBlock
  rw [of_bind]
  exact (renders_note _).bind fun _ _ _ => renders_modify rfl fun h => h

theorem renders_newBlock (label : String) :
    Renders s (Lower.newBlock label) (of (Lower.newBlock label)) := by
  unfold Lower.newBlock
  rw [of_bind]
  refine (renders_inFunction (View.flat.newBlock label)).bind fun b _ _ => ?_
  rw [of_bind]
  exact (renders_note _).bind fun _ _ _ => renders_pure b

theorem renders_load (ty : Ty) (p : Value) : Renders s (Lower.load ty p) (of (Lower.load ty p)) :=
  renders_inBlock fun b => View.flat.define b ty _

theorem renders_store (v p : Value) : Renders s (Lower.store v p) (of (Lower.store v p)) :=
  renders_inBlock fun b => View.flat.perform b _

theorem renders_binary (op : Arith) (l r : Value) :
    Renders s (Lower.binary op l r) (of (Lower.binary op l r)) :=
  renders_inBlock fun b => View.flat.define b l.ty _

theorem renders_icmp (test : Compare) (l r : Value) :
    Renders s (Lower.icmp test l r) (of (Lower.icmp test l r)) :=
  renders_inBlock fun b => View.flat.define b .i1 _

theorem renders_br (b : Nat) : Renders s (Lower.br b) (of (Lower.br b)) :=
  renders_inBlock fun k => View.flat.terminate k _

theorem renders_condBr (c : Value) (y n : Nat) :
    Renders s (Lower.condBr c y n) (of (Lower.condBr c y n)) :=
  renders_inBlock fun k => View.flat.terminate k _

theorem renders_ret (v : Option Value) : Renders s (Lower.ret v) (of (Lower.ret v)) :=
  renders_inBlock fun k => View.flat.terminate k _

theorem renders_fallThrough (b : Nat) :
    Renders s (Lower.fallThrough b) (of (Lower.fallThrough b)) := by
  unfold Lower.fallThrough
  rw [of_bind]
  refine renders_terminated.bind fun c _ _ => ?_
  cases c with
  | true => exact renders_pure ()
  | false => exact renders_br b

/-! ### The module -/

theorem find?_flat (m : Module) (name : String) : m.flat.find? name = m.find? name := by
  unfold Module.find? Module.flat
  rw [List.find?_map, Option.map_map]
  rfl

theorem renders_declare (sig : Signature) :
    Renders s (Lower.declare sig) (of (Lower.declare sig)) := by
  intro hs
  have hlength : s.flat.module.functions.length = s.module.functions.length :=
    List.length_map _
  have hflat : (s.module.declare sig).flat = s.flat.module.declare sig := by
    simp only [Module.declare, Module.flat, LowerState.flat, List.map_append, List.map_cons,
      List.map_nil, List.length_map]
    rfl
  have hrun : ∀ u : LowerState, Lower.declare sig u =
      .ok u.module.functions.length { u with module := u.module.declare sig } := fun _ => rfl
  rw [of_ok (hrun s.flat), hrun s, hlength, ← hflat]
  refine ⟨rfl, fun f hf => ?_⟩
  rcases List.mem_append.mp hf with hf | hf
  · exact hs f hf
  · obtain rfl := List.mem_singleton.mp hf
    exact Function.rooted_declare _ _

theorem renders_addBytes (bytes : List UInt8) :
    Renders s (Lower.addBytes bytes) (of (Lower.addBytes bytes)) := fun hs => ⟨rfl, hs⟩

theorem renders_findCallee (site : Site) :
    Renders s (Lower.findCallee site) (of (Lower.findCallee site)) := by
  unfold Lower.findCallee
  rw [of_get_bind]
  refine renders_get ?_
  have hfind : s.flat.module.find? site.name = s.module.find? site.name := find?_flat _ _
  rw [hfind]
  cases s.module.find? site.name with
  | some id => exact renders_pure id
  | none =>
    by_cases hname : site.name = Intrinsic.name
    · simp only [if_pos hname]
      rw [of_bind]
      exact (renders_note _).bind fun _ _ _ => renders_declare _
    · simp only [if_neg hname]
      exact renders_fail _

theorem renders_callee (site : Site) (n : Nat) :
    Renders s (Lower.callee site n) (of (Lower.callee site n)) := by
  unfold Lower.callee
  rw [of_bind]
  refine (renders_findCallee site).bind fun id t _ => ?_
  rw [of_get_bind]
  refine renders_get ?_
  have hfound : t.flat.module.function? id = (t.module.function? id).map Function.flat :=
    function?_flat _ _
  rw [hfound]
  cases t.module.function? id with
  | none => exact renders_refuse _
  | some f =>
    by_cases h : (f.variadic && site.name == Intrinsic.name) = true
    · have hflat : (f.flat.variadic && site.name == Intrinsic.name) = true := h
      simp only [Option.map_some, if_pos h, if_pos hflat]
      rw [of_bind]
      refine (renders_addBytes _).bind fun format u _ => ?_
      rw [of_bind]
      refine (renders_pure [format]).bind fun leading u _ => ?_
      rw [of_bind]
      exact (renders_check _).bind fun _ _ _ => renders_pure _
    · have hflat : ¬ (f.flat.variadic && site.name == Intrinsic.name) = true := h
      simp only [Option.map_some, if_neg h, if_neg hflat]
      rw [of_bind]
      refine (renders_pure []).bind fun leading u _ => ?_
      rw [of_bind]
      exact (renders_check _).bind fun _ _ _ => renders_pure _

theorem renders_call (id : Nat) (args : List Value) :
    Renders s (Lower.call id args) (of (Lower.call id args)) := by
  unfold Lower.call
  rw [of_get_bind]
  refine renders_get ?_
  have hfound : s.flat.module.function? id = (s.module.function? id).map Function.flat :=
    function?_flat _ _
  rw [hfound]
  cases s.module.function? id with
  | none => exact renders_refuse _
  | some f => exact renders_inBlock fun b => View.flat.call (fun _ => rfl) b f.ret

theorem renders_lookup (name : String) : Renders s (Lower.lookup name) (of (Lower.lookup name)) :=
  fun hs => ⟨rfl, hs⟩

theorem renders_name (site : Site) : Renders s (Lower.name site) (of (Lower.name site)) := by
  unfold Lower.name
  rw [of_bind]
  refine (renders_lookup _).bind fun b _ _ => ?_
  match b with
  | some (.stored (.register v)) => exact renders_pure v
  | some (.stored (.slot p ty)) => exact renders_load ty p
  | some (.constant n) => exact renders_pure _
  | none => exact renders_fail _

theorem renders_operate (site : Site) (op : Operator) (l r : Value) :
    Renders s (Lower.operate site op l r) (of (Lower.operate site op l r)) := by
  unfold Lower.operate
  by_cases h : l.ty = r.ty
  · simp only [if_pos h]
    cases op with
    | arith op => exact renders_binary op l r
    | compare test => exact renders_icmp test l r
  · simp only [if_neg h]
    exact renders_fail _

/-! ### The entry block -/

theorem insertEntry_of_cons {id i : Nat} {x : Instr} {f : Function} {b : Block} {bs : List Block}
    (hin : s.In id f) (hf : f.bodies = b :: bs) (hi : i ≤ b.instrs.length) :
    insertEntry i x s =
      .ok () (s.put id { f with bodies := { b with instrs := b.instrs.insertIdx i x } :: bs }) := by
  have hinsert : insert b.instrs i x s = .ok (b.instrs.insertIdx i x) s := by
    rw [insert, if_pos hi]
    rfl
  unfold insertEntry
  rw [bind_of_ok (of_ok (current_of hin)), hf]
  exact (bind_of_ok hinsert).trans
    (of_ok (Lower.inFunction_ok.mpr ⟨id, f, _, hin, rfl, rfl⟩))

theorem insertEntry_of_nil {id i : Nat} {x : Instr} {f : Function}
    (hin : s.In id f) (hf : f.bodies = []) :
    insertEntry i x s = .error (.error ⟨.builder (.noEntryBlock f.name), none⟩) s := by
  unfold insertEntry
  rw [bind_of_ok (of_ok (current_of hin)), hf]
  rfl

theorem countSlot_of {id : Nat} {f : Function} (h : s.In id f) (x : Slot) :
    of (Lower.inFunction (Build.countSlot x)) s =
      .ok x.pointer (s.put id { f with slots := f.slots ++ [x] }) :=
  of_ok (Lower.inFunction_ok.mpr ⟨id, f, _, h, rfl, rfl⟩)

theorem countSeed_of {id : Nat} {f : Function} (h : s.In id f) (x : Seed) :
    of (Lower.inFunction (Build.countSeed x)) s =
      .ok () (s.put id { f with seeds := f.seeds ++ [x] }) :=
  of_ok (Lower.inFunction_ok.mpr ⟨id, f, _, h, rfl, rfl⟩)

theorem renders_alloca (ty : Ty) : Renders s (Lower.alloca ty) (alloca ty) := by
  intro hs
  unfold alloca
  by_cases h : ∃ id f, s.In id f
  · obtain ⟨id, f, hin⟩ := h
    have htake : Lower.inFunction Build.register s.flat =
        .ok f.registers (s.flat.put id f.takeRegister.flat) :=
      Lower.inFunction_ok.mpr ⟨id, _, _, In.flat hin, rfl, rfl⟩
    have hput := (In.flat hin).put f.takeRegister.flat
    rw [bind_of_ok (of_ok htake), bind_of_ok (of_ok (current_of hput))]
    cases hf : f.bodies with
    | nil =>
      have hnil : f.takeRegister.flat.bodies = [] := by
        simp [Function.flat, Function.takeRegister, Function.blocks, hf]
      have hrun : Lower.alloca ty s =
          .error ⟨.builder (.noEntryBlock f.name), none⟩ (s.put id f.takeRegister) := by
        rw [Lower.alloca, Lower.inFunction_of hin, Build.alloca_of_empty hf]
        rfl
      rw [hrun, bind_of_error (insertEntry_of_nil hput hnil)]
      exact ⟨congrArg (EStateM.Result.error _) (flat_put s id _).symm,
        rooted_put hs (rooted_found (f := f) hs hin.found)⟩
    | cons k ks =>
      have hcons : f.takeRegister.flat.bodies =
          { k with instrs := f.prologue ++ k.instrs } :: ks := by
        simp [Function.flat, Function.takeRegister, Function.blocks, hf, Function.prologue]
      have hrun : Lower.alloca ty s =
          .ok (.reg f.registers (.ptr ty)) (s.put id (f.addSlot ty)) := by
        rw [Lower.alloca, Lower.inFunction_of hin,
          Build.alloca_of (by rw [hf]; exact List.cons_ne_nil k ks)]
      have hwithin : f.takeRegister.flat.slotCount ≤ (f.prologue ++ k.instrs).length := by
        simp [Function.flat, Function.takeRegister, Function.slotCount, Function.prologue]
      rw [hrun, bind_of_ok (insertEntry_of_cons hput hcons hwithin), countSlot_of (hput.put _)]
      refine ⟨congrArg (EStateM.Result.ok _) ?_, rooted_put hs (Function.rooted_of_cons hf)⟩
      rw [LowerState.put_put, LowerState.put_put, flat_put, Function.flat_addSlot hf]
      rfl
  · obtain ⟨e, he⟩ := inFunction_outside fun id f hin => h ⟨id, f, hin⟩
    have hrun : Lower.alloca ty s = .error ⟨.builder e, none⟩ s := (he _).1
    rw [hrun, bind_of_error (of_error (he _).2)]
    exact ⟨rfl, hs⟩

theorem renders_seed (v p : Value) : Renders s (Lower.seed v p) (seed v p) := by
  intro hs
  unfold seed
  by_cases h : ∃ id f, s.In id f
  · obtain ⟨id, f, hin⟩ := h
    have hflat := In.flat hin
    rw [bind_of_ok (of_ok (current_of hflat))]
    cases hf : f.bodies with
    | nil =>
      have hnil : f.flat.bodies = [] := by simp [Function.flat, Function.blocks, hf]
      have hrun : Lower.seed v p s =
          .error ⟨.builder (.noEntryBlock f.name), none⟩ s := by
        rw [Lower.seed, Lower.inFunction_of hin, Build.seed_of_empty hf]
        exact congrArg (EStateM.Result.error _) (LowerState.put_self hin.found)
      rw [hrun, bind_of_error (insertEntry_of_nil hflat hnil)]
      exact ⟨rfl, hs⟩
    | cons k ks =>
      have hcons : f.flat.bodies = { k with instrs := f.prologue ++ k.instrs } :: ks := by
        simp [Function.flat, Function.blocks, hf]
      have hrun : Lower.seed v p s = .ok () (s.put id (f.addSeed v p)) := by
        rw [Lower.seed, Lower.inFunction_of hin,
          Build.seed_of (by rw [hf]; exact List.cons_ne_nil k ks)]
      have hwithin : f.flat.prologueLength ≤ (f.prologue ++ k.instrs).length := by
        simp [Function.flat, Function.prologueLength, Function.prologue]
      rw [hrun, bind_of_ok (insertEntry_of_cons hflat hcons hwithin), countSeed_of (hflat.put _)]
      refine ⟨congrArg (EStateM.Result.ok _) ?_, rooted_put hs (Function.rooted_of_cons hf)⟩
      rw [LowerState.put_put, flat_put, Function.flat_addSeed hf]
      rfl
  · obtain ⟨e, he⟩ := inFunction_outside fun id f hin => h ⟨id, f, hin⟩
    have hrun : Lower.seed v p s = .error ⟨.builder e, none⟩ s := (he _).1
    have hcurrent : Lower.currentFunction s.flat = .error ⟨.builder e, none⟩ s.flat := (he _).2
    rw [hrun, bind_of_error (of_error hcurrent)]
    exact ⟨rfl, hs⟩

end Positional

end TreeFlow
