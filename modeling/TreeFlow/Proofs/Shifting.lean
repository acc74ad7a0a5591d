import TreeFlow.Proofs.Formats

/-!
# Shifted formats

A call of the intrinsic refers to its format by the position that the format has
in the module. Where one of two modules has got more formats so far, all that is
lowered from then on refers to later positions. Nothing else in a function
depends on what has been lowered before it, except that the intrinsic may have
been declared already.
-/

set_option autoImplicit false

namespace TreeFlow

/-! ## Other positions -/

section Map

variable (σ τ : Value → Value)

theorem Instr.map_map (i : Instr) : (i.map σ).map τ = i.map (τ ∘ σ) := by
  cases i <;> simp [Instr.map]

theorem Terminator.map_map (x : Terminator) : (x.map σ).map τ = x.map (τ ∘ σ) := by
  cases x <;> simp [Terminator.map]

theorem Terminator.successors_map (x : Terminator) : (x.map σ).successors = x.successors := by
  cases x <;> rfl

def Scope.map (c : Scope) : Scope :=
  { c with locals := c.locals.map fun b => (b.1, b.2.map σ) }

theorem Scope.local?_map (c : Scope) (name : String) :
    (c.map σ).local? name = (c.local? name).map (Storage.map σ) := by
  obtain ⟨locals, constants⟩ := c
  unfold Scope.local? Scope.map
  dsimp only
  induction locals with
  | nil => rfl
  | cons b bs ih =>
    rw [List.map_cons, List.lookup_cons, List.lookup_cons]
    cases name == b.1 with
    | true => rfl
    | false => exact ih

theorem Scope.lookup_map (c : Scope) (name : String) :
    (c.map σ).lookup name = (c.lookup name).map (Binding.map σ) := by
  unfold Scope.lookup
  rw [Scope.local?_map]
  cases c.local? name with
  | some storage => rfl
  | none =>
    show (c.constant? name).map .constant = ((c.constant? name).map .constant).map (Binding.map σ)
    cases c.constant? name <;> rfl

end Map

def Value.shift (d : Nat) : Value → Value
  | .global g ty => .global (g + d) ty
  | v => v

theorem Value.shift_shift (a d : Nat) (v : Value) : (v.shift d).shift a = v.shift (d + a) := by
  cases v with
  | global g ty => simp only [Value.shift, Nat.add_assoc]
  | _ => rfl

theorem Value.ty_shift (d : Nat) (v : Value) : (v.shift d).ty = v.ty := by
  cases v <;> rfl

def Seed.shift (d : Nat) (s : Seed) : Seed := ⟨s.value.shift d, s.pointer.shift d⟩

def Block.shift (d : Nat) (l : Block) : Block :=
  { l with
    instrs := l.instrs.map (Instr.map (Value.shift d))
    terminator := l.terminator.map (Terminator.map (Value.shift d)) }

def Function.shift (d : Nat) (f : Function) : Function :=
  { f with seeds := f.seeds.map (Seed.shift d), bodies := f.bodies.map (Block.shift d) }

namespace Function

variable (d : Nat) (f : Function)

theorem shift_shift (a : Nat) : (f.shift d).shift a = f.shift (d + a) := by
  have hvalue : Value.shift a ∘ Value.shift d = Value.shift (d + a) :=
    funext (Value.shift_shift a d)
  have hinstr : Instr.map (Value.shift a) ∘ Instr.map (Value.shift d) =
      Instr.map (Value.shift (d + a)) := by
    rw [← hvalue]
    exact funext (Instr.map_map _ _)
  have hterminator : Terminator.map (Value.shift a) ∘ Terminator.map (Value.shift d) =
      Terminator.map (Value.shift (d + a)) := by
    rw [← hvalue]
    exact funext (Terminator.map_map _ _)
  have hseed : Seed.shift a ∘ Seed.shift d = Seed.shift (d + a) := by
    funext s
    simp only [Function.comp, Seed.shift, Value.shift_shift]
  have hblock : Block.shift a ∘ Block.shift d = Block.shift (d + a) := by
    funext l
    simp only [Function.comp, Block.shift, List.map_map, Option.map_map, hinstr, hterminator]
  simp only [shift, List.map_map, hseed, hblock]

theorem shift_modify (b : Nat) {change change' : Block → Block}
    (h : ∀ l, (change l).shift d = change' (l.shift d)) :
    Function.shift d { f with bodies := f.bodies.modify b change } =
      { f.shift d with bodies := (f.shift d).bodies.modify b change' } := by
  simp only [shift, map_modify (Block.shift d) h]

theorem shift_append (b : Nat) (i : Instr) :
    (f.append b i).shift d = (f.shift d).append b (i.map (Value.shift d)) :=
  f.shift_modify d b fun l => by simp [Block.shift]

theorem shift_close (b : Nat) (x : Terminator) :
    (f.close b x).shift d = (f.shift d).close b (x.map (Value.shift d)) :=
  f.shift_modify d b fun _ => rfl

theorem shift_addBlock (label : String) :
    (f.addBlock label).shift d = (f.shift d).addBlock label := by
  simp [shift, addBlock, Block.shift]

theorem shift_addSeed (v p : Value) :
    (f.addSeed v p).shift d = (f.shift d).addSeed (v.shift d) (p.shift d) := by
  simp [shift, addSeed, Seed.shift]

variable {d f}

theorem block_shift {b : Nat} {l : Block} (h : f.bodies[b]? = some l) :
    (f.shift d).bodies[b]? = some (l.shift d) := by
  rw [shift, List.getElem?_map, h]
  rfl

theorem shift_ne_nil (h : f.bodies ≠ []) : (f.shift d).bodies ≠ [] :=
  fun hnil => h (List.map_eq_nil_iff.mp hnil)

theorem length_shift : (f.shift d).bodies.length = f.bodies.length := List.length_map _

end Function

theorem Block.shift_open {d : Nat} {l : Block} (h : l.terminator = none) :
    (l.shift d).terminator = none := by
  rw [Block.shift, h]
  rfl

theorem Block.terminated_shift (d : Nat) (l : Block) : (l.shift d).terminated = l.terminated :=
  Option.isSome_map

/-! ## Shifted modules -/

/-- Of `n` functions of the source, those before `k` are the same in both modules
and those behind `k` are shifted in the second one, which has `d` more formats.
Of function `k` only the signature counts. -/
structure Module.Shifted (k n d : Nat) (m m' : Module) : Prop where
  left : m.Registry n
  right : m'.Registry n
  signature : ∀ j f f', m.function? j = some f → m'.function? j = some f' →
    f'.toSignature = f.toSignature
  before : ∀ j, j < k → m'.function? j = m.function? j
  behind : ∀ j, k < j → j < n → m'.function? j = (m.function? j).map (Function.shift d)
  globals : m'.globals.length = m.globals.length + d

def Module.Free (n : Nat) (m : Module) : Prop :=
  ∀ j f, j < n → m.function? j = some f → f.name ≠ Intrinsic.name

theorem Module.Registry.found {m : Module} {n j : Nat} (h : m.Registry n) (hj : j < n) :
    ∃ f, m.function? j = some f :=
  ⟨_, List.getElem?_eq_getElem (Nat.lt_of_lt_of_le hj h.length)⟩

theorem Module.Registry.function?_declare {m : Module} {n j : Nat} (h : m.Registry n)
    (hlacks : m.Lacks Intrinsic.name) (hj : j < n) :
    (m.declare Intrinsic.signature).function? j = m.function? j := by
  rw [Module.function?_declare, h.length_of_lacks hlacks, if_neg (Nat.ne_of_lt hj)]

theorem Module.Registry.lacks_iff {m : Module} {n : Nat} (h : m.Registry n) (hfree : m.Free n) :
    m.Lacks Intrinsic.name ↔ m.functions.length = n := by
  constructor
  · exact h.length_of_lacks
  · intro hlength j f hf
    obtain ⟨hlt, -⟩ := List.getElem?_eq_some_iff.mp hf
    exact hfree j f (hlength ▸ hlt) hf

namespace Module.Shifted

variable {m m' : Module} {k n d : Nat}

theorem free (h : m.Shifted k n d m') (hfree : m.Free n) : m'.Free n := by
  intro j f' hj hf'
  obtain ⟨f, hf⟩ := h.left.found hj
  rw [h.signature j f f' hf hf']
  exact hfree j f hj hf

theorem set (h : m.Shifted k n d m') {id : Nat} {f g : Function} (hk : k < id) (hid : id < n)
    (hf : m.function? id = some f) (hsig : g.toSignature = f.toSignature) (hg : g.id = f.id) :
    (m.setFunction id g).Shifted k n d (m'.setFunction id (g.shift d)) := by
  have hf' : m'.function? id = some (f.shift d) := by
    rw [h.behind id hk hid, hf]
    rfl
  refine ⟨h.left.set hf hid hsig hg, h.right.set hf' hid hsig hg, ?_, ?_, ?_, h.globals⟩
  · intro j e e' he he'
    rw [Module.function?_setFunction hf] at he
    rw [Module.function?_setFunction hf'] at he'
    by_cases hj : j = id
    · rw [if_pos hj] at he he'
      cases he
      cases he'
      rfl
    · rw [if_neg hj] at he he'
      exact h.signature j e e' he he'
  · intro j hj
    have hne : j ≠ id := by omega
    rw [Module.function?_setFunction hf, Module.function?_setFunction hf', if_neg hne, if_neg hne]
    exact h.before j hj
  · intro j hkj hjn
    rw [Module.function?_setFunction hf, Module.function?_setFunction hf']
    by_cases hj : j = id
    · rw [if_pos hj, if_pos hj]
      rfl
    · rw [if_neg hj, if_neg hj]
      exact h.behind j hkj hjn

theorem addBytes (h : m.Shifted k n d m') (bytes : List UInt8) :
    (m.addBytes bytes).Shifted k n d (m'.addBytes bytes) :=
  { h with
    left := h.left.addBytes bytes
    right := h.right.addBytes bytes
    globals := by
      show (m'.globals ++ [_]).length = (m.globals ++ [_]).length + d
      rw [List.length_append, List.length_append, h.globals]
      simp only [List.length_singleton]
      omega }

theorem congr {e e' : Module} (h : m.Shifted k n d m') (hk : k < n) (hleft : e.Registry n)
    (hright : e'.Registry n) (hold : ∀ j, j < n → e.function? j = m.function? j)
    (hold' : ∀ j, j < n → e'.function? j = m'.function? j) (hglobals : e.globals = m.globals)
    (hglobals' : e'.globals = m'.globals) : e.Shifted k n d e' := by
  refine ⟨hleft, hright, ?_, ?_, ?_, hglobals ▸ hglobals' ▸ h.globals⟩
  · intro j f f' hf hf'
    by_cases hj : j < n
    · exact h.signature j f f' (hold j hj ▸ hf) (hold' j hj ▸ hf')
    · rw [(hleft.intrinsic j f hf (Nat.le_of_not_lt hj)).2,
        (hright.intrinsic j f' hf' (Nat.le_of_not_lt hj)).2]
  · intro j hj
    have hjn := Nat.lt_trans hj hk
    rw [hold j hjn, hold' j hjn]
    exact h.before j hj
  · intro j hkj hjn
    rw [hold j hjn, hold' j hjn]
    exact h.behind j hkj hjn

theorem declareLeft (h : m.Shifted k n d m') (hk : k < n) (hlacks : m.Lacks Intrinsic.name) :
    (m.declare Intrinsic.signature).Shifted k n d m' :=
  h.congr hk (h.left.declare hlacks) h.right (fun _ hj => h.left.function?_declare hlacks hj)
    (fun _ _ => rfl) rfl rfl

theorem declareRight (h : m.Shifted k n d m') (hk : k < n) (hlacks : m'.Lacks Intrinsic.name) :
    m.Shifted k n d (m'.declare Intrinsic.signature) :=
  h.congr hk h.left (h.right.declare hlacks) (fun _ _ => rfl)
    (fun _ hj => h.right.function?_declare hlacks hj) rfl rfl

end Module.Shifted

/-! ## Coupled states -/

/-- A function behind `k` is being lowered in both states, and in the second one
every position of a global is shifted. The logs may differ. The second module has
at least `i` functions. -/
structure LowerState.Shifted (k n d i : Nat) (s s' : LowerState) : Prop where
  module : s.module.Shifted k n d s'.module
  enough : i ≤ s'.module.functions.length
  inside : ∃ id, s.function = some id ∧ k < id ∧ id < n
  function : s'.function = s.function
  scope : s'.scope = s.scope.map (Value.shift d)
  block : s'.block = s.block
  loops : s'.loops = s.loops
  depth : s'.depth = s.depth

namespace LowerState.Shifted

variable {s s' : LowerState} {k n d i : Nat}

theorem behind (h : s.Shifted k n d i s') {id : Nat} {f : Function} (hin : s.In id f) :
    k < id ∧ id < n := by
  obtain ⟨id', hid', hlt⟩ := h.inside
  obtain rfl : id' = id := Option.some.inj (hid'.symm.trans hin.function)
  exact hlt

theorem into (h : s.Shifted k n d i s') {id : Nat} {f : Function} (hin : s.In id f) :
    s'.In id (f.shift d) := by
  obtain ⟨hk, hn⟩ := h.behind hin
  refine ⟨h.function.trans hin.function, ?_⟩
  rw [h.module.behind id hk hn, hin.found]
  rfl

theorem onto (h : s.Shifted k n d i s') {id b : Nat} {f : Function} {l : Block}
    (hat : s.At id f b l) : s'.At id (f.shift d) b (l.shift d) :=
  ⟨h.into hat.toIn, h.block.trans hat.cursor, Function.block_shift hat.block⟩

theorem put (h : s.Shifted k n d i s') {id : Nat} {f g : Function} (hin : s.In id f)
    (hsig : g.toSignature = f.toSignature) (hid : g.id = f.id) :
    (s.put id g).Shifted k n d i (s'.put id (g.shift d)) := by
  obtain ⟨hk, hn⟩ := h.behind hin
  have henough : i ≤ (s'.module.setFunction id (g.shift d)).functions.length := by
    rw [Module.setFunction, List.length_set]
    exact h.enough
  exact { h with module := h.module.set hk hn hin.found hsig hid, enough := henough }

end LowerState.Shifted

/-! ## Calls -/

theorem Build.call_shift {d b j : Nat} {ret : Ty} {args : List Value} {v : Option Value}
    {f g : Function} (h : Build.call b j ret args f = .ok v g) :
    Build.call b j ret (args.map (Value.shift d)) (f.shift d) =
        .ok (v.map (Value.shift d)) (g.shift d) ∧
      g.toSignature = f.toSignature ∧ g.id = f.id := by
  obtain ⟨l, hl, hopen, hcall⟩ := Build.call_ok.mp h
  rw [Build.call_ok]
  cases hvoid : ret.isVoid with
  | true =>
    rw [hvoid] at hcall
    obtain ⟨rfl, rfl⟩ := hcall
    exact ⟨⟨_, Function.block_shift hl, Block.shift_open hopen, rfl, f.shift_append d b _⟩,
      rfl, rfl⟩
  | false =>
    rw [hvoid] at hcall
    obtain ⟨rfl, rfl⟩ := hcall
    exact ⟨⟨_, Function.block_shift hl, Block.shift_open hopen, rfl,
      f.takeRegister.shift_append d b _⟩, rfl, rfl⟩

namespace Lower

variable {s s' t : LowerState} {k n d i : Nat}

def withIntrinsicAt (n : Nat) (s : LowerState) : LowerState :=
  if s.module.functions.length = n then withIntrinsic s else s

theorem function?_withIntrinsicAt (h : s.module.Registry n) :
    (withIntrinsicAt n s).module.function? n = some (.declare n Intrinsic.signature) := by
  unfold withIntrinsicAt
  by_cases hlength : s.module.functions.length = n
  · rw [if_pos hlength]
    have hdeclared := s.module.function?_declared Intrinsic.signature
    rwa [hlength] at hdeclared
  · rw [if_neg hlength]
    have hlt : n < s.module.functions.length := Nat.lt_of_le_of_ne h.length (Ne.symm hlength)
    have hf := List.getElem?_eq_getElem hlt
    obtain ⟨-, hf'⟩ := h.intrinsic n _ hf (Nat.le_refl n)
    rw [hf'] at hf
    exact hf

theorem findCallee_iff {site : Site} {id : Nat} (h : s.module.Registry n) :
    findCallee site s = .ok id t ↔
      id < n ∧ t = s ∧ (∃ f, s.module.function? id = some f ∧ f.name = site.name) ∨
        id = n ∧ site.name = Intrinsic.name ∧ s.module.Free n ∧ t = withIntrinsicAt n s := by
  rw [findCallee_ok h.numbered h.distinct]
  constructor
  · rintro (⟨rfl, f, hf, hname⟩ | ⟨hlacks, hname, rfl, rfl⟩)
    · by_cases hid : id < n
      · exact .inl ⟨hid, rfl, f, hf, hname⟩
      · obtain ⟨rfl, hintrinsic⟩ := h.name_of_ge hf (Nat.le_of_not_lt hid)
        obtain ⟨hlt, -⟩ := List.getElem?_eq_some_iff.mp hf
        refine .inr ⟨rfl, hname.symm.trans hintrinsic, fun j g hj hg hgname => ?_, ?_⟩
        · exact Nat.ne_of_lt hj (h.distinct j id g f hg hf (hgname.trans hintrinsic.symm))
        · exact (if_neg (Nat.ne_of_gt hlt)).symm
    · rw [hname] at hlacks
      have hlength := h.length_of_lacks hlacks
      exact .inr ⟨hlength, hname, fun j f _ => hlacks j f, (if_pos hlength).symm⟩
  · rintro (⟨-, rfl, hf⟩ | ⟨rfl, hname, hfree, rfl⟩)
    · exact .inl ⟨rfl, hf⟩
    · have hfound := function?_withIntrinsicAt h
      unfold withIntrinsicAt at hfound ⊢
      by_cases hlength : s.module.functions.length = id
      · rw [if_pos hlength, hname]
        exact .inr ⟨(h.lacks_iff hfree).mpr hlength, rfl, hlength.symm, rfl⟩
      · rw [if_neg hlength] at hfound ⊢
        exact .inl ⟨rfl, _, hfound, hname.symm⟩

theorem shifted_withIntrinsicAt (h : s.Shifted k n d i s') (hfree : s.module.Free n) :
    (withIntrinsicAt n s).Shifted k n d i (withIntrinsicAt n s') := by
  obtain ⟨id, hid, hk, hn⟩ := h.inside
  have hkn := Nat.lt_trans hk hn
  have hleft : (withIntrinsicAt n s).Shifted k n d i s' := by
    unfold withIntrinsicAt
    by_cases hlength : s.module.functions.length = n
    · rw [if_pos hlength]
      have hlacks := (h.module.left.lacks_iff hfree).mpr hlength
      exact { h with module := h.module.declareLeft hkn hlacks }
    · rw [if_neg hlength]
      exact h
  unfold withIntrinsicAt at hleft ⊢
  by_cases hlength : s'.module.functions.length = n
  · rw [if_pos hlength]
    have hlacks := (h.module.right.lacks_iff (h.module.free hfree)).mpr hlength
    have henough : i ≤ (s'.module.declare Intrinsic.signature).functions.length := by
      rw [Module.declare, List.length_append]
      exact Nat.le_add_right_of_le h.enough
    exact { hleft with module := hleft.module.declareRight hkn hlacks, enough := henough }
  · rw [if_neg hlength]
    exact hleft

theorem findCallee_shifted {site : Site} {j : Nat} (h : s.Shifted k n d i s')
    (hr : findCallee site s = .ok j t) :
    ∃ t' f', findCallee site s' = .ok j t' ∧ t'.module.function? j = some f' ∧
      t.Shifted k n d (max i (j + 1)) t' := by
  have hend : ∀ {u u' : LowerState} {f' : Function}, u.Shifted k n d i u' →
      u'.module.function? j = some f' → u.Shifted k n d (max i (j + 1)) u' := by
    intro u u' f' hshifted hf'
    obtain ⟨hlt, -⟩ := List.getElem?_eq_some_iff.mp hf'
    exact { hshifted with enough := Nat.max_le.mpr ⟨hshifted.enough, hlt⟩ }
  rcases (findCallee_iff h.module.left).mp hr with
    ⟨hj, rfl, f, hf, hname⟩ | ⟨rfl, hname, hfree, rfl⟩
  · obtain ⟨f', hf'⟩ := h.module.right.found hj
    have hsig := h.module.signature j f f' hf hf'
    have hname' := (congrArg Signature.name hsig).trans hname
    have hr' := (findCallee_iff h.module.right).mpr (.inl ⟨hj, rfl, f', hf', hname'⟩)
    exact ⟨s', f', hr', hf', hend h hf'⟩
  · have hr' := (findCallee_iff h.module.right).mpr
      (.inr ⟨rfl, hname, h.module.free hfree, rfl⟩)
    have hf' := function?_withIntrinsicAt h.module.right
    exact ⟨_, _, hr', hf', hend (shifted_withIntrinsicAt h hfree) hf'⟩

theorem callee_shifted {site : Site} {given : Nat} {c : Callee} (h : s.Shifted k n d i s')
    (hr : callee site given s = .ok c t) :
    ∃ t', callee site given s' = .ok (c.map (Value.shift d)) t' ∧
      t.Shifted k n d (max i (c.id + 1)) t' := by
  obtain ⟨u, f, hu, hf, hleads, hcount, hname, hparams⟩ := callee_ok.mp hr
  obtain ⟨u', f', hu', hf', hshifted⟩ := findCallee_shifted h hu
  have hsig := hshifted.module.signature _ f f' hf hf'
  have hvariadic : f'.variadic = f.variadic := congrArg Signature.variadic hsig
  have hparams' : f'.params = f.params := congrArg Signature.params hsig
  have hcount' : checkCount site f'.variadic
      (f'.params.length - (c.leading.map (Value.shift d)).length) given = .ok () := by
    rw [hvariadic, hparams', List.length_map]
    exact hcount
  have hend : ∀ t', Leads (f'.variadic && site.name == Intrinsic.name) u'
      (c.leading.map (Value.shift d)) t' →
        callee site given s' = .ok (c.map (Value.shift d)) t' := fun t' hleads' =>
    callee_ok.mpr ⟨u', f', hu', hf', hleads', hcount', hname, by rw [hparams']; exact hparams⟩
  rw [hvariadic] at hend
  cases hi : f.variadic && site.name == Intrinsic.name with
  | true =>
    rw [hi] at hleads hend
    obtain ⟨hleading, rfl⟩ := hleads
    refine ⟨withFormat u', hend _ ⟨?_, rfl⟩, { hshifted with module := hshifted.module.addBytes _ }⟩
    rw [hleading, hshifted.module.globals]
    rfl
  | false =>
    rw [hi] at hleads hend
    obtain ⟨hleading, rfl⟩ := hleads
    refine ⟨u', hend _ ⟨?_, rfl⟩, hshifted⟩
    rw [hleading]
    rfl

theorem call_shifted {j : Nat} {args : List Value} {v : Option Value}
    (h : s.Shifted k n d (max i (j + 1)) s') (hr : call j args s = .ok v t) :
    ∃ t', call j (args.map (Value.shift d)) s' = .ok (v.map (Value.shift d)) t' ∧
      t.Shifted k n d i t' := by
  obtain ⟨henough, hlt⟩ := Nat.max_le.mp h.enough
  have he' := List.getElem?_eq_getElem hlt
  obtain ⟨e, id, f, b, g, he, hin, hb, hcall, rfl⟩ := call_ok.mp hr
  obtain ⟨hcall', hsig, hid⟩ := Build.call_shift (d := d) hcall
  have hret : (s'.module.functions[j]).ret = e.ret :=
    congrArg Signature.ret (h.module.signature j e _ he he')
  rw [← hret] at hcall'
  have hsame : s.Shifted k n d i s' := { h with enough := henough }
  exact ⟨_, call_ok.mpr ⟨_, id, _, b, _, he', h.into hin, h.block.trans hb, hcall', rfl⟩,
    hsame.put hin hsig hid⟩

def shifting (k n d : Nat) : Coupling Nat where
  rel i s s' := s.Shifted k n d i s'
  value := Value.shift d
  value_ty := Value.ty_shift d
  value_const _ _ := rfl
  note e := by
    intro i s s' t a h hr
    cases hr
    exact ⟨_, rfl, { h with }⟩
  nested site hx := by
    intro i s s' t a h hr
    obtain ⟨hd, u, hu, rfl⟩ := nested_ok.mp hr
    have hdeeper : (deeper s).Shifted k n d i (deeper s') :=
      { h with depth := congrArg (· + 1) h.depth }
    obtain ⟨u', hu', h'⟩ := hx hdeeper hu
    exact ⟨_, nested_ok.mpr ⟨h.depth ▸ hd, u', hu', rfl⟩,
      { h' with depth := congrArg (· - 1) h'.depth }⟩
  inLoop l hx := by
    intro i s s' t a h hr
    obtain ⟨u, hu, rfl⟩ := inLoop_ok hr
    have hinside : LowerState.Shifted k n d i { s with loops := l :: s.loops }
        { s' with loops := l :: s'.loops } := { h with loops := congrArg (l :: ·) h.loops }
    obtain ⟨u', hu', h'⟩ := hx hinside hu
    exact ⟨_, inLoop_of_ok hu', { h' with loops := congrArg List.tail h'.loops }⟩
  innermostLoop := by
    intro i s s' t a h hr
    cases hr
    exact ⟨s', congrArg (fun l => EStateM.Result.ok (List.head? l) s') h.loops, h⟩
  lookup name := by
    intro i s s' t a h hr
    cases hr
    refine ⟨s', ?_, h⟩
    rw [lookup_run, h.scope, Scope.lookup_map]
  bind name storage := by
    intro i s s' t a h hr
    cases hr
    have hscope : s'.scope.bind name (storage.map (Value.shift d)) =
        (s.scope.bind name storage).map (Value.shift d) := by
      rw [h.scope]
      rfl
    exact ⟨_, rfl, { h with scope := hscope }⟩
  newBlock label := by
    intro i s s' t b h hr
    obtain ⟨id, f, hin, rfl, rfl⟩ := newBlock_ok.mp hr
    have hput := h.put (g := f.addBlock label) hin rfl rfl
    rw [f.shift_addBlock d label] at hput
    exact ⟨_, newBlock_ok.mpr ⟨id, _, h.into hin, Function.length_shift.symm, rfl⟩, { hput with }⟩
  setBlock b := by
    intro i s s' t a h hr
    cases hr
    exact ⟨_, rfl, { h with block := rfl }⟩
  alloca ty := by
    intro i s s' t v h hr
    obtain ⟨id, f, hin, hne, rfl, rfl⟩ := alloca_ok.mp hr
    exact ⟨_, alloca_ok.mpr ⟨id, _, h.into hin, Function.shift_ne_nil hne, rfl, rfl⟩,
      h.put (g := f.addSlot ty) hin rfl rfl⟩
  seed v p := by
    intro i s s' t a h hr
    obtain ⟨id, f, hin, hne, rfl⟩ := seed_ok.mp hr
    have hput := h.put (g := f.addSeed v p) hin rfl rfl
    rw [f.shift_addSeed d v p] at hput
    exact ⟨_, seed_ok.mpr ⟨id, _, h.into hin, Function.shift_ne_nil hne, rfl⟩, hput⟩
  define ty make _ := by
    intro i s s' t v h hr
    obtain ⟨id, f, b, l, hat, hopen, rfl, rfl⟩ := define_ok.mp hr
    have hput := h.put (g := f.takeRegister.append b (make f.registers)) hat.toIn rfl rfl
    rw [f.takeRegister.shift_append d b] at hput
    exact ⟨_, define_ok.mpr ⟨id, _, b, _, h.onto hat, Block.shift_open hopen, rfl, rfl⟩, hput⟩
  store v p := by
    intro i s s' t a h hr
    obtain ⟨id, f, b, l, hat, hopen, rfl⟩ := perform_ok.mp hr
    have hput := h.put (g := f.append b (.store v p)) hat.toIn rfl rfl
    rw [f.shift_append d b] at hput
    exact ⟨_, perform_ok.mpr ⟨id, _, b, _, h.onto hat, Block.shift_open hopen, rfl⟩, hput⟩
  terminate x := by
    intro i s s' t a h hr
    obtain ⟨id, f, b, l, hat, hopen, hblocks, rfl⟩ := terminate_ok.mp hr
    have hput := h.put (g := f.close b x) hat.toIn rfl rfl
    rw [f.shift_close d b x] at hput
    refine ⟨_, terminate_ok.mpr ⟨id, _, b, _, h.onto hat, Block.shift_open hopen, ?_, rfl⟩, hput⟩
    rw [Terminator.successors_map, Function.length_shift]
    exact hblocks
  terminated := by
    intro i s s' t c h hr
    obtain ⟨id, f, b, l, hat, rfl, rfl⟩ := terminated_ok.mp hr
    exact ⟨s', terminated_ok.mpr ⟨id, _, b, _, h.onto hat, (l.terminated_shift d).symm, rfl⟩, h⟩
  functionCall site ts hts := by
    intro i s s' t v h hr
    obtain ⟨c, u, hu, hr⟩ := bind_ok.mp hr
    obtain ⟨args, w, hw, hr⟩ := bind_ok.mp hr
    obtain ⟨u', hu', hcallee⟩ := callee_shifted h hu
    obtain ⟨w', hw', harguments⟩ := follows_arguments (Value.ty_shift d) hts c c.leading hcallee hw
    obtain ⟨t', ht', hcall⟩ := call_shifted harguments hr
    exact ⟨t', bind_ok.mpr ⟨_, u', hu', bind_ok.mpr ⟨_, w', hw', ht'⟩⟩, hcall⟩

end Lower

end TreeFlow
