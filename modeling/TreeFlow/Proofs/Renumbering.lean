import TreeFlow.Proofs.Assembly
import TreeFlow.Proofs.Views

/-!
# Functions under other identities

The order in which functions are registered decides their identities and with
them the callees of all calls. Two modules are paired when one has the
functions of the other at other places: a function that comes before the
intrinsic keeps its place, one that comes behind it moves up, and the intrinsic
comes last. Where each of them goes is read off the module in which the first
of two runs ends.
-/

set_option autoImplicit false

namespace TreeFlow

/-! ## Renumbered functions -/

def Instr.renumber (ρ : Nat → Nat) : Instr → Instr
  | .call d callee args => .call d (ρ callee) args
  | i => i

def Block.renumber (ρ : Nat → Nat) (k : Block) : Block :=
  { k with instrs := k.instrs.map (Instr.renumber ρ) }

def Function.renumber (ρ : Nat → Nat) (f : Function) : Function :=
  { f with id := ρ f.id, bodies := f.bodies.map (Block.renumber ρ) }

def Callee.renumber (ρ : Nat → Nat) (c : Callee) : Callee := { c with id := ρ c.id }

theorem map_modify {α β : Type} (form : α → β) {change : α → α} {change' : β → β}
    (h : ∀ a, form (change a) = change' (form a)) (l : List α) (b : Nat) :
    (l.modify b change).map form = (l.map form).modify b change' := by
  apply List.ext_getElem?
  intro j
  simp only [List.getElem?_map, List.getElem?_modify]
  cases l[j]? with
  | none => split <;> rfl
  | some a =>
    split
    · exact congrArg some (h a)
    · rfl

theorem Function.renumber_modify (ρ : Nat → Nat) (f : Function) (b : Nat)
    {change change' : Block → Block}
    (h : ∀ k, (change k).renumber ρ = change' (k.renumber ρ)) :
    Function.renumber ρ { f with bodies := f.bodies.modify b change } =
      { f.renumber ρ with bodies := (f.renumber ρ).bodies.modify b change' } := by
  simp only [Function.renumber, map_modify (Block.renumber ρ) h]

theorem Function.renumber_append (ρ : Nat → Nat) (f : Function) (b : Nat) (i : Instr) :
    (f.append b i).renumber ρ = (f.renumber ρ).append b (i.renumber ρ) :=
  f.renumber_modify ρ b fun k => by simp [Block.renumber]

theorem Function.renumber_close (ρ : Nat → Nat) (f : Function) (b : Nat) (t : Terminator) :
    (f.close b t).renumber ρ = (f.renumber ρ).close b t :=
  f.renumber_modify ρ b fun _ => rfl

theorem Function.renumber_addBlock (ρ : Nat → Nat) (f : Function) (label : String) :
    (f.addBlock label).renumber ρ = (f.renumber ρ).addBlock label := by
  simp [Function.renumber, Function.addBlock, Block.renumber]

def View.renumber (ρ : Nat → Nat) : View where
  shown := Function.renumber ρ
  instr := Instr.renumber ρ
  domain _ := True
  registers _ := rfl
  length _ := List.length_map _
  block _ _ := ⟨Block.renumber ρ, fun _ => rfl, List.getElem?_map⟩
  takeRegister _ := rfl
  append f b i := f.renumber_append ρ b i
  close f b t := f.renumber_close ρ b t
  addBlock f label _ := f.renumber_addBlock ρ label
  domain_takeRegister _ := trivial
  domain_append _ _ _ := trivial
  domain_close _ _ _ := trivial
  domain_addBlock _ _ := trivial

/-! ## Places -/

def Function.isIntrinsic (f : Function) : Bool := decide (f.toSignature = Intrinsic.signature)

namespace Module

def intrinsicPlace (m : Module) : Nat := m.functions.findIdx Function.isIntrinsic

def sourceFunctions (m : Module) : List Function := m.functions.filter fun f => !f.isIntrinsic

def rankTo (m : Module) (last id : Nat) : Nat :=
  if id < m.intrinsicPlace then id else if id = m.intrinsicPlace then last else id - 1

def rank (m : Module) (id : Nat) : Nat := m.rankTo m.sourceFunctions.length id

/-- The module with the intrinsic as its last function. -/
def intrinsicLast (m : Module) : Module :=
  { m with
    functions :=
      (m.sourceFunctions ++ m.functions.filter Function.isIntrinsic).map
        (Function.renumber m.rank) }

theorem function?_declared (m : Module) (sig : Signature) :
    (m.declare sig).function? m.functions.length = some (.declare m.functions.length sig) := by
  rw [Module.function?_declare, if_pos rfl]

def Keeps (m m' : Module) : Prop :=
  ∀ id f, m.function? id = some f → ∃ g, m'.function? id = some g ∧ g.toSignature = f.toSignature

namespace Keeps

variable {m m' m'' : Module}

theorem refl (m : Module) : m.Keeps m := fun _ f hf => ⟨f, hf, rfl⟩

theorem trans (h : m.Keeps m') (h' : m'.Keeps m'') : m.Keeps m'' := by
  intro id f hf
  obtain ⟨g, hg, hsig⟩ := h id f hf
  obtain ⟨e, he, hsig'⟩ := h' id g hg
  exact ⟨e, he, hsig'.trans hsig⟩

theorem set {id : Nat} {f g : Function} (hf : m.function? id = some f)
    (hsig : g.toSignature = f.toSignature) : m.Keeps (m.setFunction id g) := by
  intro j e he
  rw [Module.function?_setFunction hf]
  by_cases hj : j = id
  · subst hj
    obtain rfl : f = e := Option.some.inj (hf.symm.trans he)
    exact ⟨g, if_pos rfl, hsig⟩
  · exact ⟨e, by rw [if_neg hj]; exact he, rfl⟩

theorem declare (m : Module) (sig : Signature) : m.Keeps (m.declare sig) := by
  intro j e he
  obtain ⟨hlt, -⟩ := List.getElem?_eq_some_iff.mp he
  exact ⟨e, by rw [Module.function?_declare, if_neg (by omega)]; exact he, rfl⟩

end Keeps

theorem Extends.keeps {m m' : Module} (h : m.Extends m') : m.Keeps m' := by
  intro id f hf
  obtain ⟨g, hg, hext⟩ := h.functions id f hf
  exact ⟨g, hg, hext.signature⟩

def Lacks (m : Module) (name : String) : Prop := ∀ id f, m.function? id = some f → f.name ≠ name

theorem find?_eq_none {m : Module} {name : String} : m.find? name = none ↔ m.Lacks name := by
  unfold Module.find?
  rw [Option.map_eq_none_iff, List.find?_eq_none]
  constructor
  · intro h id f hf hname
    exact h f (List.mem_of_getElem? hf) (beq_iff_eq.mpr hname)
  · intro h f hf hname
    obtain ⟨id, hid⟩ := List.getElem?_of_mem hf
    exact h id f hid (beq_iff_eq.mp hname)

namespace Lacks

variable {m m' : Module} {name : String}

theorem kept (h : m'.Lacks name) (hk : m.Keeps m') : m.Lacks name := by
  intro id f hf hname
  obtain ⟨g, hg, hsig⟩ := hk id f hf
  exact h id g hg ((congrArg Signature.name hsig).trans hname)

theorem set (h : m.Lacks name) {id : Nat} {f g : Function} (hf : m.function? id = some f)
    (hname : g.name = f.name) : (m.setFunction id g).Lacks name := by
  intro j e he
  rw [Module.function?_setFunction hf] at he
  split at he
  · cases he
    rw [hname]
    exact h id f hf
  · exact h j e he

end Lacks

theorem lacks_declare {m : Module} {sig : Signature} {name : String} :
    (m.declare sig).Lacks name ↔ m.Lacks name ∧ sig.name ≠ name := by
  constructor
  · intro h
    refine ⟨h.kept (.declare m sig), ?_⟩
    exact h _ _ (m.function?_declared sig)
  · rintro ⟨h, hne⟩ j e he
    rw [Module.function?_declare] at he
    split at he
    · cases he
      exact hne
    · exact h j e he

theorem isIntrinsic_place (m : Module) {f : Function}
    (hf : m.function? m.intrinsicPlace = some f) : f.isIntrinsic = true := by
  obtain ⟨hlt, rfl⟩ := List.getElem?_eq_some_iff.mp hf
  exact List.findIdx_getElem

theorem Distinct.place {m : Module} (h : m.Distinct) {id : Nat} {f : Function}
    (hf : m.function? id = some f) (hi : f.isIntrinsic = true) : m.intrinsicPlace = id := by
  obtain ⟨hlt, hget⟩ := List.getElem?_eq_some_iff.mp hf
  have hplace : m.intrinsicPlace < m.functions.length :=
    List.findIdx_lt_length_of_exists ⟨f, List.mem_of_getElem? hf, hi⟩
  have hthere : (m.functions[m.intrinsicPlace]).isIntrinsic = true :=
    List.findIdx_getElem
  have hname : ∀ g : Function, g.isIntrinsic = true → g.name = Intrinsic.name := by
    intro g hg
    have hsig := of_decide_eq_true hg
    exact congrArg Signature.name hsig
  exact h _ _ _ _ (List.getElem?_eq_getElem hplace) hf ((hname _ hthere).trans (hname f hi).symm)

end Module

/-! ## Paired modules -/

/-- The second module has the functions of the first one at the places that
they take in the end, where `M` is the module in which the first run ends. The
second one has all `n` functions of the source, the first one has `d` of them. -/
structure Module.Pairs (M : Module) (n d : Nat) (m₁ m₂ : Module) : Prop where
  whole : M.Distinct
  globals : m₂.globals = m₁.globals
  target : m₂.target = m₁.target
  numbered₁ : m₁.Numbered
  numbered₂ : m₂.Numbered
  distinct₁ : m₁.Distinct
  distinct₂ : m₂.Distinct
  found : ∀ id f, m₁.function? id = some f →
    m₂.function? (M.rankTo n id) = some (f.renumber (M.rankTo n))
  lengths : m₁.functions.length ≤ M.intrinsicPlace ∧ m₁.functions.length = d ∧
      m₂.functions.length = n ∨
    M.intrinsicPlace < m₁.functions.length ∧ m₁.functions.length = d + 1 ∧
      m₂.functions.length = n + 1
  intrinsic : M.intrinsicPlace < M.functions.length → m₁.Lacks Intrinsic.name →
    m₂.Lacks Intrinsic.name

namespace Module.Pairs

variable {M m₁ m₂ : Module} {n d : Nat}

theorem find? (h : M.Pairs n d m₁ m₂) {name : String} {id : Nat} (hf : m₁.find? name = some id) :
    m₂.find? name = some (M.rankTo n id) := by
  obtain ⟨f, hid, rfl⟩ := h.numbered₁.find? hf
  exact h.distinct₂.find? (f := f.renumber (M.rankTo n)) h.numbered₂ (h.found id f hid)

theorem apart (h : M.Pairs n d m₁ m₂) {i j : Nat} {f g : Function} (hf : m₁.function? i = some f)
    (hg : m₁.function? j = some g) (hrank : M.rankTo n i = M.rankTo n j) : i = j := by
  have hfound := h.found i f hf
  rw [hrank, h.found j g hg] at hfound
  have hname : g.name = f.name := congrArg (·.name) (Option.some.inj hfound)
  exact h.distinct₁ i j f g hf hg hname.symm

theorem set (h : M.Pairs n d m₁ m₂) {id : Nat} {f g : Function} (hf : m₁.function? id = some f)
    (hsig : g.toSignature = f.toSignature) (hid : g.id = f.id) :
    M.Pairs n d (m₁.setFunction id g)
      (m₂.setFunction (M.rankTo n id) (g.renumber (M.rankTo n))) where
  whole := h.whole
  globals := h.globals
  target := h.target
  numbered₁ := h.numbered₁.setFunction hf hid
  numbered₂ := h.numbered₂.setFunction (h.found id f hf) (congrArg (M.rankTo n) hid)
  distinct₁ := h.distinct₁.setFunction hf (congrArg Signature.name hsig)
  distinct₂ := h.distinct₂.setFunction (h.found id f hf) (congrArg Signature.name hsig)
  found := by
    intro j e he
    rw [Module.function?_setFunction hf] at he
    rw [Module.function?_setFunction (h.found id f hf)]
    by_cases hj : j = id
    · rw [if_pos hj] at he
      cases he
      exact if_pos (congrArg (M.rankTo n) hj)
    · rw [if_neg hj] at he
      rw [if_neg fun hrank => hj (h.apart he hf hrank)]
      exact h.found j e he
  lengths := by
    have hlength₁ : (m₁.setFunction id g).functions.length = m₁.functions.length :=
      List.length_set
    have hlength₂ : (m₂.setFunction (M.rankTo n id) (g.renumber (M.rankTo n))).functions.length =
        m₂.functions.length := List.length_set
    rw [hlength₁, hlength₂]
    exact h.lengths
  intrinsic hlazy hlacks :=
    (h.intrinsic hlazy (hlacks.kept (.set hf hsig))).set (h.found id f hf)
      (congrArg Signature.name hsig)

theorem addBytes (h : M.Pairs n d m₁ m₂) (bytes : List UInt8) :
    M.Pairs n d (m₁.addBytes bytes) (m₂.addBytes bytes) :=
  { h with globals := by simp only [Module.addBytes, h.globals] }

theorem rank_of_lt {id : Nat} (h : id < M.intrinsicPlace) : M.rankTo n id = id := if_pos h

theorem rank_place : M.rankTo n M.intrinsicPlace = n := by
  rw [Module.rankTo, if_neg (Nat.lt_irrefl _), if_pos rfl]

theorem rank_of_gt {id : Nat} (h : M.intrinsicPlace < id) : M.rankTo n id = id - 1 := by
  rw [Module.rankTo, if_neg (by omega), if_neg (by omega)]

/-- Whoever declares the intrinsic first does so at the place that it has in
the end. -/
theorem intrinsic_declared (h : M.Pairs n d m₁ m₂) (hlacks : m₁.Lacks Intrinsic.name)
    (hkeeps : (m₁.declare Intrinsic.signature).Keeps M) :
    m₁.functions.length = M.intrinsicPlace ∧ m₂.Lacks Intrinsic.name ∧
      m₂.functions.length = n := by
  obtain ⟨g, hg, hsig⟩ := hkeeps _ _ (m₁.function?_declared Intrinsic.signature)
  have hplace := h.whole.place hg (decide_eq_true hsig)
  obtain ⟨hlt, -⟩ := List.getElem?_eq_some_iff.mp hg
  refine ⟨hplace.symm, h.intrinsic (by omega) hlacks, ?_⟩
  have hlengths := h.lengths
  omega

theorem declareIntrinsic (h : M.Pairs n d m₁ m₂) (hlacks : m₁.Lacks Intrinsic.name)
    (hkeeps : (m₁.declare Intrinsic.signature).Keeps M) :
    M.Pairs n d (m₁.declare Intrinsic.signature) (m₂.declare Intrinsic.signature) := by
  obtain ⟨hlength₁, hlacks₂, hlength₂⟩ := h.intrinsic_declared hlacks hkeeps
  have hrank : M.rankTo n m₁.functions.length = m₂.functions.length := by
    rw [hlength₁, rank_place, hlength₂]
  exact
    { whole := h.whole
      globals := h.globals
      target := h.target
      numbered₁ := h.numbered₁.declare _
      numbered₂ := h.numbered₂.declare _
      distinct₁ := h.distinct₁.declare (find?_eq_none.mpr hlacks)
      distinct₂ := h.distinct₂.declare (find?_eq_none.mpr hlacks₂)
      found := by
        intro id f hf
        rw [Module.function?_declare] at hf ⊢
        by_cases hid : id = m₁.functions.length
        · rw [if_pos hid] at hf
          cases hf
          rw [hid, if_pos hrank]
          rfl
        · rw [if_neg hid] at hf
          have hfound := h.found id f hf
          obtain ⟨hlt, -⟩ := List.getElem?_eq_some_iff.mp hfound
          rw [if_neg (by omega)]
          exact hfound
      lengths := by
        have hlengths := h.lengths
        simp only [Module.declare, List.length_append, List.length_singleton]
        omega
      intrinsic := by
        intro _ hnone
        exact absurd rfl (hnone _ _ (m₁.function?_declared Intrinsic.signature)) }

theorem declare (h : M.Pairs n d m₁ m₂) {sig : Signature} (hsource : sig.variadic = false)
    (hlacks : m₁.Lacks sig.name) (hpending : m₂.function? d = some (.declare d sig))
    (hkeeps : (m₁.declare sig).Keeps M) :
    M.rankTo n m₁.functions.length = d ∧ M.Pairs n (d + 1) (m₁.declare sig) m₂ := by
  have hplace : M.intrinsicPlace ≠ m₁.functions.length := by
    obtain ⟨g, hg, hsig⟩ := hkeeps _ _ (m₁.function?_declared sig)
    intro hplace
    have hintrinsic := of_decide_eq_true (M.isIntrinsic_place (hplace ▸ hg))
    have hvariadic : sig.variadic = true := by
      rw [show sig = Intrinsic.signature from hsig.symm.trans hintrinsic]
      rfl
    exact Bool.false_ne_true (hsource.symm.trans hvariadic)
  have hlengths := h.lengths
  have hrank : M.rankTo n m₁.functions.length = d := by
    rcases hlengths with ⟨hle, hd, -⟩ | ⟨hlt, hd, -⟩
    · rw [rank_of_lt (by omega), hd]
    · rw [rank_of_gt hlt, hd, Nat.add_sub_cancel]
  refine ⟨hrank, ?_⟩
  exact
    { whole := h.whole
      globals := h.globals
      target := h.target
      numbered₁ := h.numbered₁.declare _
      numbered₂ := h.numbered₂
      distinct₁ := h.distinct₁.declare (find?_eq_none.mpr hlacks)
      distinct₂ := h.distinct₂
      found := by
        intro id f hf
        rw [Module.function?_declare] at hf
        split at hf
        · cases hf
          rename_i hid
          rw [hid, hrank, hpending]
          simp only [Function.renumber, Function.declare, hrank, List.map_nil]
        · exact h.found id f hf
      lengths := by
        simp only [Module.declare, List.length_append, List.length_singleton]
        omega
      intrinsic := fun hlazy hnone => h.intrinsic hlazy (lacks_declare.mp hnone).1 }

end Module.Pairs

/-! ## Mirrored actions -/

structure LowerState.Pairs (M : Module) (n d : Nat) (s₁ s₂ : LowerState) : Prop where
  module : M.Pairs n d s₁.module s₂.module
  scope : s₂.scope = s₁.scope
  function : s₂.function = s₁.function.map (M.rankTo n)
  block : s₂.block = s₁.block
  loops : s₂.loops = s₁.loops
  depth : s₂.depth = s₁.depth

namespace Lower

variable {α β γ δ : Type} {M : Module} {n : Nat}

/-- Where the first action succeeds, on the way to `M`, the second one succeeds
in a paired state. -/
structure Mirrors (M : Module) (n : Nat) (view : α → β) (x : Lower α) (y : Lower β) : Prop where
  keeps : ∀ {s t : LowerState} {a : α}, x s = .ok a t → s.module.Keeps t.module
  run : ∀ {d : Nat} {s₁ s₂ t₁ : LowerState} {a : α}, s₁.Pairs M n d s₂ → x s₁ = .ok a t₁ →
    t₁.module.Keeps M → ∃ t₂, y s₂ = .ok (view a) t₂ ∧ t₁.Pairs M n d t₂

abbrev Mirrored (M : Module) (n : Nat) (x : Lower α) : Prop := Mirrors M n id x x

theorem Mirrors.bind {f : α → β} {g : γ → δ} {x : Lower α} {y : Lower β} {k : α → Lower γ}
    {l : β → Lower δ} (hx : Mirrors M n f x y) (hk : ∀ a, Mirrors M n g (k a) (l (f a))) :
    Mirrors M n g (x >>= k) (y >>= l) where
  keeps h := by
    obtain ⟨a, u, hu, hr⟩ := bind_ok.mp h
    exact (hx.keeps hu).trans ((hk a).keeps hr)
  run hp h hend := by
    obtain ⟨a, u, hu, hr⟩ := bind_ok.mp h
    obtain ⟨u₂, hu₂, hpu⟩ := hx.run hp hu (((hk a).keeps hr).trans hend)
    obtain ⟨t₂, ht₂, hpt⟩ := (hk a).run hpu hr hend
    exact ⟨t₂, bind_ok.mpr ⟨_, _, hu₂, ht₂⟩, hpt⟩

theorem Mirrored.bind {f : β → γ} {x : Lower α} {k : α → Lower β} {l : α → Lower γ}
    (hx : Mirrored M n x) (hk : ∀ a, Mirrors M n f (k a) (l a)) :
    Mirrors M n f (x >>= k) (x >>= l) := Mirrors.bind hx hk

theorem mirrors_pure (view : α → β) (a : α) : Mirrors M n view (pure a) (pure (view a)) where
  keeps h := by cases h; exact .refl _
  run hp h _ := by cases h; exact ⟨_, rfl, hp⟩

theorem mirrored_pure (a : α) : Mirrored M n (pure a : Lower α) := mirrors_pure id a

theorem mirrored_throw (e : LowerError) : Mirrored M n (throw e : Lower α) where
  keeps h := by cases h
  run _ h _ := by cases h

theorem mirrored_lift (x : Except LowerError α) : Mirrored M n (lift x) := by
  cases x with
  | ok a => exact mirrored_pure a
  | error e => exact mirrored_throw e

theorem mirrored_modify {change : LowerState → LowerState}
    (hmodule : ∀ s, (change s).module = s.module)
    (hpairs : ∀ {d s₁ s₂}, LowerState.Pairs M n d s₁ s₂ →
      LowerState.Pairs M n d (change s₁) (change s₂)) :
    Mirrored M n (modify change) where
  keeps h := by
    cases h
    rw [hmodule]
    exact .refl _
  run hp h _ := by
    cases h
    exact ⟨_, rfl, hpairs hp⟩

theorem mirrored_note (e : Event) : Mirrored M n (note e) :=
  mirrored_modify (fun _ => rfl) fun h => { h with }

theorem mirrors_ensuring {view : α → β} {x : Lower α} {y : Lower β}
    {after : LowerState → LowerState}
    (hmodule : ∀ s, (after s).module = s.module)
    (hpairs : ∀ {d s₁ s₂}, LowerState.Pairs M n d s₁ s₂ →
      LowerState.Pairs M n d (after s₁) (after s₂))
    (hx : Mirrors M n view x y) : Mirrors M n view (ensuring x after) (ensuring y after) where
  keeps h := by
    obtain ⟨u, hu, rfl⟩ := ensuring_ok.mp h
    rw [hmodule]
    exact hx.keeps hu
  run hp h hend := by
    obtain ⟨u, hu, rfl⟩ := ensuring_ok.mp h
    rw [hmodule] at hend
    obtain ⟨u₂, hu₂, hpu⟩ := hx.run hp hu hend
    exact ⟨_, ensuring_ok.mpr ⟨u₂, hu₂, rfl⟩, hpairs hpu⟩

theorem mirrors_nested {view : α → β} {x : Lower α} {y : Lower β} (site : Site)
    (hx : Mirrors M n view x y) : Mirrors M n view (nested site x) (nested site y) where
  keeps h := by
    obtain ⟨-, u, hu, rfl⟩ := nested_ok.mp h
    have hkeeps := hx.keeps hu
    exact hkeeps
  run hp h hend := by
    obtain ⟨hd, u, hu, rfl⟩ := nested_ok.mp h
    have hdeep : LowerState.Pairs M n _ (deeper _) (deeper _) :=
      { hp with depth := congrArg (· + 1) hp.depth }
    obtain ⟨u₂, hu₂, hpu⟩ := hx.run hdeep hu hend
    refine ⟨shallower u₂, nested_ok.mpr ⟨by rw [hp.depth]; exact hd, u₂, hu₂, rfl⟩, ?_⟩
    exact { hpu with depth := congrArg (· - 1) hpu.depth }

theorem mirrors_inLoop {view : α → β} {x : Lower α} {y : Lower β} (l : LoopTargets)
    (hx : Mirrors M n view x y) : Mirrors M n view (inLoop l x) (inLoop l y) :=
  (mirrored_modify (fun _ => rfl) fun h => { h with loops := congrArg (l :: ·) h.loops } :
    Mirrored M n (pushLoop l)).bind fun _ =>
      mirrors_ensuring (fun _ => rfl)
        (fun h => { h with loops := congrArg List.tail h.loops }) hx

/-! ### Operations of the builder -/

/-- A builder operation keeps signature and identity, and can be carried out
under other identities. -/
structure Renames (ρ : Nat → Nat) (x y : Build α) : Prop where
  respects : (View.renumber ρ).Respects x y
  same : ∀ {f g : Function} {a : α}, x f = .ok a g → g.toSignature = f.toSignature ∧ g.id = f.id

theorem mirrors_inFunction {x y : Build α} (h : Renames (M.rankTo n) x y) :
    Mirrors M n id (inFunction x) (inFunction y) where
  keeps hr := by
    obtain ⟨id, f, g, hin, hact, rfl⟩ := inFunction_ok.mp hr
    exact .set hin.found (h.same hact).1
  run {d s₁ s₂ t₁ a} hp hr _ := by
    obtain ⟨j, f, g, hin, hact, rfl⟩ := inFunction_ok.mp hr
    have hin₂ : s₂.In (M.rankTo n j) (f.renumber (M.rankTo n)) :=
      ⟨by rw [hp.function, hin.function]; rfl, hp.module.found j f hin.found⟩
    have hact₂ : y (f.renumber (M.rankTo n)) = .ok a (g.renumber (M.rankTo n)) := by
      have hrun := (h.respects f trivial).1
      rw [hact] at hrun
      exact hrun
    refine ⟨s₂.put (M.rankTo n j) (g.renumber (M.rankTo n)),
      inFunction_ok.mpr ⟨_, _, _, hin₂, hact₂, rfl⟩, ?_⟩
    obtain ⟨hsig, hid⟩ := h.same hact
    exact { hp with module := hp.module.set hin.found hsig hid }

theorem mirrors_inBlock {x y : Nat → Build α} (h : ∀ b, Renames (M.rankTo n) (x b) (y b)) :
    Mirrors M n id (inBlock x) (inBlock y) where
  keeps hr := by
    obtain ⟨id, f, b, g, hin, -, hact, rfl⟩ := inBlock_ok.mp hr
    exact .set hin.found ((h b).same hact).1
  run {d s₁ s₂ t₁ a} hp hr hend := by
    cases hb : s₁.block with
    | none =>
      obtain ⟨_, _, b, _, -, hblock, -⟩ := inBlock_ok.mp hr
      rw [hb] at hblock
      cases hblock
    | some b =>
      rw [inBlock_of hb] at hr
      rw [inBlock_of (hp.block.trans hb)]
      exact (mirrors_inFunction (h b)).run hp hr hend

section Renames

variable {ρ : Nat → Nat}

theorem renames_newBlock (label : String) :
    Renames ρ (Build.newBlock label) (Build.newBlock label) where
  respects := (View.renumber ρ).newBlock label
  same h := by cases h; exact ⟨rfl, rfl⟩

theorem renames_perform {i j : Instr} (hi : i.renumber ρ = j) (b : Nat) :
    Renames ρ (Build.perform b i) (Build.perform b j) where
  respects := hi ▸ (View.renumber ρ).perform b i
  same h := by
    obtain ⟨_, -, -, rfl⟩ := Build.perform_ok.mp h
    exact ⟨rfl, rfl⟩

theorem renames_define {make make' : Nat → Instr} (hmake : ∀ d, (make d).renumber ρ = make' d)
    (b : Nat) (ty : Ty) : Renames ρ (Build.define b ty make) (Build.define b ty make') where
  respects := by
    have h := (View.renumber ρ).define b ty make
    rw [show (fun d => (View.renumber ρ).instr (make d)) = make' from funext hmake] at h
    exact h
  same h := by
    obtain ⟨_, -, -, -, rfl⟩ := Build.define_ok.mp h
    exact ⟨rfl, rfl⟩

theorem renames_terminate (b : Nat) (t : Terminator) :
    Renames ρ (Build.terminate b t) (Build.terminate b t) where
  respects := (View.renumber ρ).terminate b t
  same h := by
    obtain ⟨-, _, -, -, rfl⟩ := Build.terminate_ok.mp h
    exact ⟨rfl, rfl⟩

theorem renames_call (b callee : Nat) (ret : Ty) (args : List Value) :
    Renames ρ (Build.call b callee ret args) (Build.call b (ρ callee) ret args) where
  respects := (View.renumber ρ).call (fun _ => rfl) b ret
  same h := by
    obtain ⟨_, -, -, h⟩ := Build.call_ok.mp h
    split at h
    · obtain ⟨-, rfl⟩ := h
      exact ⟨rfl, rfl⟩
    · obtain ⟨-, rfl⟩ := h
      exact ⟨rfl, rfl⟩

theorem renames_alloca (ty : Ty) : Renames ρ (Build.alloca ty) (Build.alloca ty) where
  respects f _ := by
    refine ⟨?_, trivial⟩
    change Build.alloca ty (f.renumber ρ) = seen _ (Function.renumber ρ) (Build.alloca ty f)
    cases hf : f.bodies with
    | nil =>
      have hnil : (f.renumber ρ).bodies = [] := by simp [Function.renumber, hf]
      rw [Build.alloca_of_empty hf, Build.alloca_of_empty hnil]
      rfl
    | cons k ks =>
      have hcons : (f.renumber ρ).bodies ≠ [] := by simp [Function.renumber, hf]
      have hne : f.bodies ≠ [] := by rw [hf]; exact List.cons_ne_nil k ks
      rw [Build.alloca_of hcons, Build.alloca_of hne]
      rfl
  same {f g a} h := by
    cases hf : f.bodies with
    | nil =>
      rw [Build.alloca_of_empty hf] at h
      cases h
    | cons k ks =>
      rw [Build.alloca_of (by rw [hf]; exact List.cons_ne_nil k ks)] at h
      cases h
      exact ⟨rfl, rfl⟩

theorem renames_seed (v p : Value) : Renames ρ (Build.seed v p) (Build.seed v p) where
  respects f _ := by
    refine ⟨?_, trivial⟩
    change Build.seed v p (f.renumber ρ) = seen _ (Function.renumber ρ) (Build.seed v p f)
    cases hf : f.bodies with
    | nil =>
      have hnil : (f.renumber ρ).bodies = [] := by simp [Function.renumber, hf]
      rw [Build.seed_of_empty hf, Build.seed_of_empty hnil]
      rfl
    | cons k ks =>
      have hcons : (f.renumber ρ).bodies ≠ [] := by simp [Function.renumber, hf]
      have hne : f.bodies ≠ [] := by rw [hf]; exact List.cons_ne_nil k ks
      rw [Build.seed_of hcons, Build.seed_of hne]
      rfl
  same {f g a} h := by
    cases hf : f.bodies with
    | nil =>
      rw [Build.seed_of_empty hf] at h
      cases h
    | cons k ks =>
      rw [Build.seed_of (by rw [hf]; exact List.cons_ne_nil k ks)] at h
      cases h
      exact ⟨rfl, rfl⟩

end Renames

theorem mirrored_newBlock (label : String) : Mirrored M n (newBlock label) :=
  (mirrors_inFunction (renames_newBlock label)).bind fun b =>
    (mirrored_note _).bind fun _ => mirrored_pure b

theorem mirrored_setBlock (b : Nat) : Mirrored M n (setBlock b) :=
  (mirrored_note _).bind fun _ => mirrored_modify (fun _ => rfl) fun h => { h with block := rfl }

theorem mirrored_alloca (ty : Ty) : Mirrored M n (alloca ty) :=
  mirrors_inFunction (renames_alloca ty)

theorem mirrored_seed (v p : Value) : Mirrored M n (seed v p) :=
  mirrors_inFunction (renames_seed v p)

theorem mirrored_store (v p : Value) : Mirrored M n (store v p) :=
  mirrors_inBlock fun b => renames_perform rfl b

theorem mirrored_terminated : Mirrored M n terminated :=
  mirrors_inBlock fun b =>
    { respects := (View.renumber _).terminated b
      same := by
        intro f g a h
        cases ht : f.terminated? b with
        | ok c =>
          rw [ht] at h
          cases h
          exact ⟨rfl, rfl⟩
        | error e =>
          rw [ht] at h
          cases h }

/-! ### Calls and names -/

theorem mirrored_lookup (name : String) : Mirrored M n (lookup name) where
  keeps h := by cases h; exact .refl _
  run {d s₁ s₂ t₁ a} hp h _ := by
    rw [lookup_run] at h
    cases h
    exact ⟨s₂, by rw [lookup_run, hp.scope]; rfl, hp⟩

theorem mirrored_addBytes (bytes : List UInt8) : Mirrored M n (addBytes bytes) where
  keeps h := by cases h; exact .refl _
  run {d s₁ s₂ t₁ a} hp h _ := by
    cases h
    have hglobals : s₂.module.globals.length = s₁.module.globals.length := by
      rw [hp.module.globals]
    refine ⟨{ s₂ with module := s₂.module.addBytes bytes }, ?_,
      { hp with module := hp.module.addBytes bytes }⟩
    change EStateM.Result.ok (Module.address s₂.module.globals.length) _ = _
    rw [hglobals]
    rfl

theorem mirrors_findCallee (site : Site) :
    Mirrors M n (M.rankTo n) (findCallee site) (findCallee site) where
  keeps {s t id} h := by
    cases hf : s.module.find? site.name with
    | some j =>
      rw [findCallee_of_some hf] at h
      cases h
      exact .refl _
    | none =>
      by_cases hname : site.name = Intrinsic.name
      · rw [findCallee_of_intrinsic hf hname] at h
        cases h
        exact .declare _ _
      · rw [findCallee_of_none hf hname] at h
        cases h
  run {d s₁ s₂ t₁ id} hp h hend := by
    cases hf : s₁.module.find? site.name with
    | some j =>
      rw [findCallee_of_some hf] at h
      cases h
      exact ⟨s₂, findCallee_of_some (hp.module.find? hf), hp⟩
    | none =>
      by_cases hname : site.name = Intrinsic.name
      · rw [findCallee_of_intrinsic hf hname] at h
        cases h
        have hlacks : s₁.module.Lacks Intrinsic.name := by
          rw [← hname]
          exact Module.find?_eq_none.mp hf
        obtain ⟨hlength₁, hlacks₂, hlength₂⟩ := hp.module.intrinsic_declared hlacks hend
        have hf₂ : s₂.module.find? site.name = none := by
          rw [hname]
          exact Module.find?_eq_none.mpr hlacks₂
        refine ⟨withIntrinsic s₂, ?_,
          { hp with module := hp.module.declareIntrinsic hlacks hend }⟩
        rw [findCallee_of_intrinsic hf₂ hname, hlength₁, Module.Pairs.rank_place, hlength₂]
      · rw [findCallee_of_none hf hname] at h
        cases h

theorem mirrors_function {id : Nat} {e : BuildFault} {e' : BuildFault} {view : α → β}
    {k : Function → Lower α} {l : Function → Lower β}
    (h : ∀ f, Mirrors M n view (k f) (l (f.renumber (M.rankTo n)))) :
    Mirrors M n view
      (get >>= fun s => match s.module.function? id with
        | none => refuse e
        | some f => k f)
      (get >>= fun s => match s.module.function? (M.rankTo n id) with
        | none => refuse e'
        | some f => l f) where
  keeps {s t a} hr := by
    rw [get_bind] at hr
    cases hf : s.module.function? id with
    | none => rw [hf] at hr; cases hr
    | some f =>
      rw [hf] at hr
      exact (h f).keeps hr
  run {d s₁ s₂ t₁ a} hp hr hend := by
    rw [get_bind] at hr ⊢
    cases hf : s₁.module.function? id with
    | none => rw [hf] at hr; cases hr
    | some f =>
      rw [hf] at hr
      rw [hp.module.found id f hf]
      exact (h f).run hp hr hend

theorem mirrors_callee (site : Site) (k : Nat) :
    Mirrors M n (Callee.renumber (M.rankTo n)) (callee site k) (callee site k) := by
  refine (mirrors_findCallee site).bind fun id => mirrors_function fun f => ?_
  by_cases h : (f.variadic && site.name == Intrinsic.name) = true
  · have h' : ((f.renumber (M.rankTo n)).variadic && site.name == Intrinsic.name) = true := h
    simp only [if_pos h, if_pos h']
    refine (mirrored_addBytes _).bind fun format => (mirrored_pure [format]).bind fun leading => ?_
    exact (mirrored_lift _).bind fun _ => mirrors_pure (Callee.renumber (M.rankTo n)) _
  · have h' : ¬ ((f.renumber (M.rankTo n)).variadic && site.name == Intrinsic.name) = true := h
    simp only [if_neg h, if_neg h']
    refine (mirrored_pure []).bind fun leading => ?_
    exact (mirrored_lift _).bind fun _ => mirrors_pure (Callee.renumber (M.rankTo n)) _

theorem mirrors_call (j : Nat) (args : List Value) :
    Mirrors M n id (call j args) (call (M.rankTo n j) args) :=
  mirrors_function fun f => mirrors_inBlock fun b => renames_call b j f.ret args

end Lower

end TreeFlow
