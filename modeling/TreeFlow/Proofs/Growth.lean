import TreeFlow.Proofs.Run

/-!
# Growth of functions and modules

While a module is built it only grows. Slots and seeds are added at the end of
their lists, blocks at the end of the function, instructions at the end of a
block. A block that has a terminator never changes again.
-/

set_option autoImplicit false

namespace TreeFlow

theorem getElem?_of_extended {α : Type} {xs ys : List α} (h : xs <+: ys) {i : Nat} {a : α}
    (ha : xs[i]? = some a) : ys[i]? = some a := by
  obtain ⟨zs, rfl⟩ := h
  rw [← ha]
  exact List.getElem?_append_left (List.getElem?_eq_some_iff.mp ha).1

structure Block.Extends (k l : Block) : Prop where
  id : l.id = k.id
  label : l.label = k.label
  instrs : k.instrs <+: l.instrs
  ended : k.terminator ≠ none → l = k

namespace Block.Extends

variable {k l p : Block}

theorem refl (k : Block) : k.Extends k := ⟨rfl, rfl, List.prefix_refl _, fun _ => rfl⟩

theorem trans (h : k.Extends l) (h' : l.Extends p) : k.Extends p where
  id := h'.id.trans h.id
  label := h'.label.trans h.label
  instrs := h.instrs.trans h'.instrs
  ended ht := by
    obtain rfl := h.ended ht
    exact h'.ended ht

end Block.Extends

structure Function.Extends (f g : Function) : Prop where
  signature : g.toSignature = f.toSignature
  id : g.id = f.id
  registers : f.registers ≤ g.registers
  slots : f.slots <+: g.slots
  seeds : f.seeds <+: g.seeds
  blocks : ∀ (j : Nat) (k : Block), f.bodies[j]? = some k →
    ∃ l, g.bodies[j]? = some l ∧ k.Extends l

namespace Function.Extends

variable {f g h : Function}

theorem refl (f : Function) : f.Extends f :=
  ⟨rfl, rfl, Nat.le_refl _, List.prefix_refl _, List.prefix_refl _,
    fun _ k hk => ⟨k, hk, .refl k⟩⟩

theorem trans (hf : f.Extends g) (hg : g.Extends h) : f.Extends h where
  signature := hg.signature.trans hf.signature
  id := hg.id.trans hf.id
  registers := Nat.le_trans hf.registers hg.registers
  slots := hf.slots.trans hg.slots
  seeds := hf.seeds.trans hg.seeds
  blocks j k hk := by
    obtain ⟨l, hl, hkl⟩ := hf.blocks j k hk
    obtain ⟨p, hp, hlp⟩ := hg.blocks j l hl
    exact ⟨p, hp, hkl.trans hlp⟩

theorem length (hf : f.Extends g) : f.bodies.length ≤ g.bodies.length := by
  refine Nat.le_of_not_lt fun hlt => ?_
  obtain ⟨l, hl, -⟩ := hf.blocks _ _ (List.getElem?_eq_getElem hlt)
  simp at hl

end Function.Extends

namespace Function

variable (f : Function)

theorem bodies_append (b : Nat) (i : Instr) (j : Nat) :
    (f.append b i).bodies[j]? =
      if b = j then f.bodies[j]?.map fun k => { k with instrs := k.instrs ++ [i] }
      else f.bodies[j]? := by
  simp only [append, List.getElem?_modify]
  split <;> simp

theorem bodies_close (b : Nat) (t : Terminator) (j : Nat) :
    (f.close b t).bodies[j]? =
      if b = j then f.bodies[j]?.map fun k => { k with terminator := some t }
      else f.bodies[j]? := by
  simp only [close, List.getElem?_modify]
  split <;> simp

theorem bodies_addBlock (label : String) (j : Nat) :
    (f.addBlock label).bodies[j]? =
      if j = f.bodies.length then
        some ⟨f.bodies.length, label ++ "." ++ toString f.bodies.length, [], none⟩
      else f.bodies[j]? := by
  simp only [addBlock, List.getElem?_append, List.getElem?_singleton]
  split
  · rw [if_neg (by omega)]
  · split
    · rw [if_pos (by omega)]
    · rw [if_neg (by omega), eq_comm, List.getElem?_eq_none]
      omega

@[simp] theorem length_append (b : Nat) (i : Instr) :
    (f.append b i).bodies.length = f.bodies.length := by
  simp [append]

@[simp] theorem length_close (b : Nat) (t : Terminator) :
    (f.close b t).bodies.length = f.bodies.length := by
  simp [close]

@[simp] theorem length_addBlock (label : String) :
    (f.addBlock label).bodies.length = f.bodies.length + 1 := by
  simp [addBlock]

theorem extends_takeRegister : f.Extends f.takeRegister :=
  { Extends.refl f with registers := Nat.le_succ _ }

theorem extends_append {b : Nat} {k : Block} (hk : f.bodies[b]? = some k)
    (ho : k.terminator = none) (i : Instr) : f.Extends (f.append b i) where
  signature := rfl
  id := rfl
  registers := Nat.le_refl _
  slots := List.prefix_refl _
  seeds := List.prefix_refl _
  blocks j l hl := by
    rw [bodies_append]
    by_cases hj : b = j
    · subst hj
      obtain rfl : k = l := by simpa [hk] using hl
      exact ⟨{ k with instrs := k.instrs ++ [i] }, by simp [hk],
        ⟨rfl, rfl, List.prefix_append _ _, fun h => absurd ho h⟩⟩
    · exact ⟨l, by simp [hj, hl], .refl l⟩

theorem extends_close {b : Nat} {k : Block} (hk : f.bodies[b]? = some k)
    (ho : k.terminator = none) (t : Terminator) : f.Extends (f.close b t) where
  signature := rfl
  id := rfl
  registers := Nat.le_refl _
  slots := List.prefix_refl _
  seeds := List.prefix_refl _
  blocks j l hl := by
    rw [bodies_close]
    by_cases hj : b = j
    · subst hj
      obtain rfl : k = l := by simpa [hk] using hl
      exact ⟨{ k with terminator := some t }, by simp [hk],
        ⟨rfl, rfl, List.prefix_refl _, fun h => absurd ho h⟩⟩
    · exact ⟨l, by simp [hj, hl], .refl l⟩

theorem extends_addBlock (label : String) : f.Extends (f.addBlock label) where
  signature := rfl
  id := rfl
  registers := Nat.le_refl _
  slots := List.prefix_refl _
  seeds := List.prefix_refl _
  blocks j l hl := by
    obtain ⟨hlt, -⟩ := List.getElem?_eq_some_iff.mp hl
    exact ⟨l, by rw [bodies_addBlock, if_neg (by omega), hl], .refl l⟩

theorem extends_addSlot (ty : Ty) : f.Extends (f.addSlot ty) :=
  { Extends.refl f with registers := Nat.le_succ _, slots := List.prefix_append _ _ }

theorem extends_addSeed (v p : Value) : f.Extends (f.addSeed v p) :=
  { Extends.refl f with seeds := List.prefix_append _ _ }

end Function

/-! ## Modules -/

structure Module.Extends (m n : Module) : Prop where
  functions : ∀ (j : Nat) (f : Function), m.function? j = some f →
    ∃ g, n.function? j = some g ∧ f.Extends g
  globals : m.globals <+: n.globals

namespace Module.Extends

variable {m n p : Module}

theorem refl (m : Module) : m.Extends m := ⟨fun _ f hf => ⟨f, hf, .refl f⟩, List.prefix_refl _⟩

theorem trans (h : m.Extends n) (h' : n.Extends p) : m.Extends p where
  functions j f hf := by
    obtain ⟨g, hg, hfg⟩ := h.functions j f hf
    obtain ⟨e, he, hge⟩ := h'.functions j g hg
    exact ⟨e, he, hfg.trans hge⟩
  globals := h.globals.trans h'.globals

theorem find? (h : m.Extends n) {name : String} {id : Nat} (hf : m.find? name = some id) :
    n.find? name = some id := by
  obtain ⟨f, hfind, rfl⟩ := Option.map_eq_some_iff.mp hf
  obtain ⟨hp, i, hi, rfl, hlt⟩ := List.find?_eq_some_iff_getElem.mp hfind
  obtain ⟨g, hg, hfg⟩ := h.functions i _ (List.getElem?_eq_getElem hi)
  obtain ⟨hin, rfl⟩ := List.getElem?_eq_some_iff.mp hg
  have hname : ∀ j (hj : j < i), n.functions[j].name = m.functions[j].name := by
    intro j hj
    obtain ⟨g', hg', hj'⟩ := h.functions j _ (List.getElem?_eq_getElem (by omega))
    obtain ⟨_, rfl⟩ := List.getElem?_eq_some_iff.mp hg'
    exact congrArg Signature.name hj'.signature
  refine Option.map_eq_some_iff.mpr ⟨n.functions[i], ?_, hfg.id⟩
  refine List.find?_eq_some_iff_getElem.mpr ⟨?_, i, hin, rfl, fun j hj => ?_⟩
  · rw [show n.functions[i].name = m.functions[i].name from congrArg Signature.name hfg.signature]
    exact hp
  · rw [hname j hj]
    exact hlt j hj

end Module.Extends

theorem Module.extends_setFunction {m : Module} {id : Nat} {f g : Function}
    (h : m.function? id = some f) (hg : f.Extends g) : m.Extends (m.setFunction id g) where
  functions j e he := by
    obtain ⟨hlt, -⟩ := List.getElem?_eq_some_iff.mp h
    by_cases hj : id = j
    · subst hj
      obtain rfl : f = e := by simpa [h] using he
      exact ⟨g, by simp [Module.function?, Module.setFunction, hlt], hg⟩
    · exact ⟨e, by simpa [Module.function?, Module.setFunction, hj] using he, .refl e⟩
  globals := List.prefix_refl _

theorem Module.extends_declare (m : Module) (sig : Signature) : m.Extends (m.declare sig) where
  functions j f hf := by
    obtain ⟨hlt, -⟩ := List.getElem?_eq_some_iff.mp hf
    exact ⟨f, by rw [← hf]; exact List.getElem?_append_left hlt, .refl f⟩
  globals := List.prefix_refl _

end TreeFlow
