import TreeFlow.Proofs.Ownership

/-!
# What lowering an expression appends

Lowering an expression or a condition gives back the cursor, the names, the loops
and the depth that it was given, whether or not it fails. Instructions come to the
end of the block under the cursor and nowhere else. No block, terminator or slot is
made. Behind the functions there may be one new declaration, that of the intrinsic,
and formats come behind the globals.
-/

set_option autoImplicit false

namespace TreeFlow

namespace Function

variable {b : Nat} {f g h : Function}

/-- `g` is `f` with more instructions at the end of block `b`. -/
structure Appends (b : Nat) (f g : Function) : Prop where
  signature : g.toSignature = f.toSignature
  id : g.id = f.id
  slots : g.slots = f.slots
  seeds : g.seeds = f.seeds
  blocks : ∃ code, g.blocks = f.blocks.modify b fun k => { k with instrs := k.instrs ++ code }

theorem Appends.trans (hf : f.Appends b g) (hg : g.Appends b h) : f.Appends b h where
  signature := hg.signature.trans hf.signature
  id := hg.id.trans hf.id
  slots := hg.slots.trans hf.slots
  seeds := hg.seeds.trans hf.seeds
  blocks := by
    obtain ⟨code, hcode⟩ := hf.blocks
    obtain ⟨more, hmore⟩ := hg.blocks
    refine ⟨code ++ more, ?_⟩
    rw [hmore, hcode, List.modify_modify_eq]
    refine congrArg (f.blocks.modify b) (funext fun k => ?_)
    rw [← List.append_assoc]
    rfl

theorem blocks_append (f : Function) (b : Nat) (i : Instr) :
    (f.append b i).blocks = f.blocks.modify b fun k => { k with instrs := k.instrs ++ [i] } := by
  unfold blocks append
  cases hbodies : f.bodies with
  | nil => simp
  | cons k ks =>
    cases b with
    | zero => simp [prologue]
    | succ b => simp [prologue]

theorem appends_append (f : Function) (b : Nat) (i : Instr) : f.Appends b (f.append b i) :=
  ⟨rfl, rfl, rfl, rfl, [i], f.blocks_append b i⟩

theorem appends_define (f : Function) (b : Nat) (i : Instr) :
    f.Appends b (f.takeRegister.append b i) :=
  ⟨rfl, rfl, rfl, rfl, [i], f.takeRegister.blocks_append b i⟩

end Function

namespace Lower

variable {s t u : LowerState}

/-- The functions `gs` are those of the state, but for more instructions at the end of
the block under the cursor. -/
structure Lengthened (s : LowerState) (gs : List Function) : Prop where
  length : gs.length = s.module.functions.length
  each : ∀ {j : Nat} {f g : Function}, s.module.functions[j]? = some f → gs[j]? = some g →
    g = f ∨ s.function = some j ∧ ∃ b, s.block = some b ∧ f.Appends b g

theorem Lengthened.refl (s : LowerState) : Lengthened s s.module.functions where
  length := rfl
  each hf hg := .inl (Option.some.inj (hg.symm.trans hf))

theorem Lengthened.set {gs : List Function} {id b : Nat} {f g : Function} (h : Lengthened s gs)
    (hfunction : s.function = some id) (hblock : s.block = some b) (hf : gs[id]? = some f)
    (hg : f.Appends b g) : Lengthened s (gs.set id g) where
  length := by rw [List.length_set, h.length]
  each {j e e'} he he' := by
    by_cases hj : id = j
    · subst hj
      obtain ⟨hlt, -⟩ := List.getElem?_eq_some_iff.mp hf
      rw [List.getElem?_set_self hlt] at he'
      obtain rfl := Option.some.inj he'
      refine .inr ⟨hfunction, b, hblock, ?_⟩
      rcases h.each he hf with rfl | ⟨-, c, hc, happends⟩
      · exact hg
      · obtain rfl := Option.some.inj (hblock.symm.trans hc)
        exact happends.trans hg
    · rw [List.getElem?_set_ne hj] at he'
      exact h.each he he'

theorem Lengthened.absent {m : Module} (h : Lengthened s m.functions)
    (habsent : m.find? Intrinsic.name = none) : s.module.find? Intrinsic.name = none := by
  rw [Module.find?, Option.map_eq_none_iff, List.find?_eq_none] at habsent ⊢
  intro f hf
  obtain ⟨j, hj⟩ := List.getElem?_of_mem hf
  obtain ⟨hlt, -⟩ := List.getElem?_eq_some_iff.mp hj
  rw [← h.length] at hlt
  have hg := List.getElem?_eq_getElem hlt
  have hname : m.functions[j].name = f.name := by
    rcases h.each hj hg with heq | ⟨-, b, -, happends⟩
    · rw [heq]
    · exact congrArg Signature.name happends.signature
  rw [← hname]
  exact habsent _ (List.mem_of_getElem? hg)

/-- What a run that lowers an expression leaves at any point. -/
structure Steady (s t : LowerState) : Prop where
  function : t.function = s.function
  block : t.block = s.block
  loops : t.loops = s.loops
  scope : t.scope = s.scope
  globals : s.module.globals <+: t.module.globals
  functions : ∃ gs extra, Lengthened s gs ∧ Adds s.module extra ∧ t.module.functions = gs ++ extra

theorem Steady.refl (s : LowerState) : Steady s s where
  function := rfl
  block := rfl
  loops := rfl
  scope := rfl
  globals := List.prefix_refl _
  functions := ⟨_, [], .refl s, .inl rfl, (List.append_nil _).symm⟩

theorem Steady.put {id b : Nat} {f g : Function} {k : Block} (h : Steady s t)
    (hat : t.At id f b k) (hg : f.Appends b g) : Steady s (t.put id g) where
  function := h.function
  block := h.block
  loops := h.loops
  scope := h.scope
  globals := h.globals
  functions := by
    obtain ⟨gs, extra, hgs, hadds, hfunctions⟩ := h.functions
    have hfound : (gs ++ extra)[id]? = some f := hfunctions ▸ hat.found
    have hlt : id < gs.length := by
      -- A function that has just been declared has no blocks.
      refine Nat.lt_of_not_le fun hle => ?_
      rw [List.getElem?_append_right hle] at hfound
      have hmem := List.mem_of_getElem? hfound
      rcases hadds with rfl | ⟨-, rfl⟩
      · exact absurd hmem List.not_mem_nil
      · obtain rfl := List.mem_singleton.mp hmem
        exact absurd hat.block (by simp [Function.declare])
    rw [List.getElem?_append_left hlt] at hfound
    refine ⟨gs.set id g, extra, ?_, hadds, ?_⟩
    · exact hgs.set (h.function ▸ hat.function) (h.block ▸ hat.cursor) hfound hg
    · show t.module.functions.set id g = _
      rw [hfunctions, List.set_append_left _ _ hlt]

theorem Steady.step (h : Steady s t) (hstep : Emission t u) : Steady s u := by
  cases hstep with
  | note | depth => exact ⟨h.function, h.block, h.loops, h.scope, h.globals, h.functions⟩
  | intrinsic absent =>
    obtain ⟨gs, extra, hgs, hadds, hfunctions⟩ := h.functions
    obtain rfl := hadds.nil_of_absent hfunctions absent
    rw [List.append_nil] at hfunctions
    subst hfunctions
    refine ⟨h.function, h.block, h.loops, h.scope, h.globals, _, _, hgs,
      .inr ⟨hgs.absent absent, rfl⟩, ?_⟩
    rw [← hgs.length]
    rfl
  | format =>
    exact ⟨h.function, h.block, h.loops, h.scope, h.globals.trans (List.prefix_append _ _),
      h.functions⟩
  | define here => exact h.put here (Function.appends_define _ _ _)
  | perform here => exact h.put here (Function.appends_append _ _ _)

theorem Emissions.steady (h : Emissions s t) : Steady s t := by
  induction h with
  | refl => exact .refl s
  | tail _ hstep ih => exact ih.step hstep

/-- What a run leaves that lowers an expression, in the end. -/
structure Appended (s t : LowerState) : Prop extends Steady s t where
  depth : t.depth = s.depth

/-- Lowering an expression or a condition only appends, whether or not it fails. -/
theorem expression_appends (t : Tree) (s : LowerState) :
    Appended s (last (expression t s)) ∧ Appended s (last (condition t s)) := by
  have hexpression := touching.expression t fun _ _ _ => trivial
  have hcondition := touching.condition t fun _ _ _ => trivial
  exact ⟨⟨(emitting_expression t s).steady, (hexpression.restores s).depth⟩,
    ⟨(emitting_condition t s).steady, (hcondition.restores s).depth⟩⟩

end Lower

end TreeFlow
