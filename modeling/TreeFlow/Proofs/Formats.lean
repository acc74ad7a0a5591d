import TreeFlow.Proofs.Coupling
import TreeFlow.Proofs.Renumbering
import TreeFlow.Proofs.SingleAssignment

/-!
# Formats of intrinsic calls

If all functions of the source are registered first, the intrinsic can only come
behind them. Each call of it takes a format of its own. The format is added
before the arguments of the call are lowered and the call itself behind them, so
between two statements there are as many new formats as new calls.
-/

set_option autoImplicit false

namespace TreeFlow

/-! ## Registered functions -/

/-- The first `n` functions come from the source, and only the intrinsic may
follow. -/
structure Module.Registry (n : Nat) (m : Module) : Prop where
  numbered : m.Numbered
  distinct : m.Distinct
  length : n ≤ m.functions.length
  source : ∀ j f, m.function? j = some f → j < n → f.variadic = false
  intrinsic : ∀ j f, m.function? j = some f → n ≤ j → j = n ∧ f = .declare n Intrinsic.signature

namespace Module.Registry

variable {m : Module} {n : Nat}

theorem set (h : m.Registry n) {id : Nat} {f g : Function} (hf : m.function? id = some f)
    (hid : id < n) (hsig : g.toSignature = f.toSignature) (hg : g.id = f.id) :
    (m.setFunction id g).Registry n where
  numbered := h.numbered.setFunction hf hg
  distinct := h.distinct.setFunction hf (congrArg Signature.name hsig)
  length := by
    rw [Module.setFunction, List.length_set]
    exact h.length
  source j e he hj := by
    rw [Module.function?_setFunction hf] at he
    split at he
    · cases he
      exact (congrArg Signature.variadic hsig).trans (h.source id f hf hid)
    · exact h.source j e he hj
  intrinsic j e he hj := by
    rw [Module.function?_setFunction hf, if_neg (by omega)] at he
    exact h.intrinsic j e he hj

theorem addBytes (h : m.Registry n) (bytes : List UInt8) : (m.addBytes bytes).Registry n :=
  { h with }

theorem length_of_lacks (h : m.Registry n) (hlacks : m.Lacks Intrinsic.name) :
    m.functions.length = n := by
  refine Nat.le_antisymm (Nat.le_of_not_lt fun hlt => ?_) h.length
  have hf := List.getElem?_eq_getElem hlt
  refine hlacks n _ hf ?_
  rw [(h.intrinsic n _ hf (Nat.le_refl n)).2]
  rfl

theorem declare (h : m.Registry n) (hlacks : m.Lacks Intrinsic.name) :
    (m.declare Intrinsic.signature).Registry n where
  numbered := h.numbered.declare _
  distinct := h.distinct.declare (Module.find?_eq_none.mpr hlacks)
  length := by
    simp only [Module.declare, List.length_append, h.length_of_lacks hlacks]
    omega
  source j f hf hj := by
    rw [Module.function?_declare, h.length_of_lacks hlacks, if_neg (Nat.ne_of_lt hj)] at hf
    exact h.source j f hf hj
  intrinsic j f hf hj := by
    rw [Module.function?_declare, h.length_of_lacks hlacks] at hf
    by_cases hjn : j = n
    · rw [if_pos hjn] at hf
      obtain rfl := hjn
      cases hf
      exact ⟨rfl, rfl⟩
    · rw [if_neg hjn] at hf
      exact h.intrinsic j f hf hj

theorem variadic_iff (h : m.Registry n) {j : Nat} {f : Function} (hf : m.function? j = some f) :
    f.variadic = true ↔ j = n := by
  constructor
  · intro hv
    refine (h.intrinsic j f hf (Nat.le_of_not_lt fun hlt => ?_)).1
    exact Bool.false_ne_true ((h.source j f hf hlt).symm.trans hv)
  · rintro rfl
    rw [(h.intrinsic j f hf (Nat.le_refl j)).2]
    rfl

theorem name_of_ge (h : m.Registry n) {j : Nat} {f : Function} (hf : m.function? j = some f)
    (hj : n ≤ j) : j = n ∧ f.name = Intrinsic.name := by
  obtain ⟨rfl, rfl⟩ := h.intrinsic j f hf hj
  exact ⟨rfl, rfl⟩

theorem formatted_iff (h : m.Registry n) {j : Nat} {f : Function} {name : String}
    (hf : m.function? j = some f) (hname : f.name = name) :
    (f.variadic && name == Intrinsic.name) = true ↔ j = n := by
  rw [Bool.and_eq_true, h.variadic_iff hf, beq_iff_eq, and_iff_left_iff_imp]
  rintro rfl
  rw [← hname]
  exact (h.name_of_ge hf (Nat.le_refl j)).2

end Module.Registry

/-! ## Calls -/

namespace Lower

variable {s t u : LowerState} {n : Nat}

theorem findCallee_ok {site : Site} {id : Nat} (hn : s.module.Numbered) (hd : s.module.Distinct) :
    findCallee site s = .ok id u ↔
      u = s ∧ (∃ f, s.module.function? id = some f ∧ f.name = site.name) ∨
        s.module.Lacks site.name ∧ site.name = Intrinsic.name ∧ id = s.module.functions.length ∧
          u = withIntrinsic s := by
  cases hfind : s.module.find? site.name with
  | some j =>
    obtain ⟨f, hf, hname⟩ := hn.find? hfind
    rw [findCallee_of_some hfind]
    constructor
    · intro h
      cases h
      exact .inl ⟨rfl, f, hf, hname⟩
    · rintro (⟨rfl, g, hg, hgname⟩ | ⟨hlacks, -⟩)
      · rw [hd id j g f hg hf (hgname.trans hname.symm)]
      · exact absurd hname (hlacks j f hf)
  | none =>
    have hlacks := Module.find?_eq_none.mp hfind
    have hfound : ¬ ∃ f, s.module.function? id = some f ∧ f.name = site.name := by
      rintro ⟨f, hf, hname⟩
      exact hlacks id f hf hname
    by_cases hname : site.name = Intrinsic.name
    · rw [findCallee_of_intrinsic hfind hname]
      constructor
      · intro h
        cases h
        exact .inr ⟨hlacks, hname, rfl, rfl⟩
      · rintro (⟨-, h⟩ | ⟨-, -, rfl, rfl⟩)
        · exact absurd h hfound
        · rfl
    · rw [findCallee_of_none hfind hname]
      constructor
      · intro h
        cases h
      · rintro (⟨-, h⟩ | ⟨-, h, -⟩)
        · exact absurd h hfound
        · exact absurd h hname

def Leads (formatted : Bool) (s : LowerState) (leading : List Value) (t : LowerState) : Prop :=
  if formatted then leading = [Module.address s.module.globals.length] ∧ t = withFormat s
  else leading = [] ∧ t = s

theorem callee_ok {site : Site} {given : Nat} {c : Callee} :
    callee site given s = .ok c t ↔ ∃ u f, findCallee site s = .ok c.id u ∧
      u.module.function? c.id = some f ∧
        Leads (f.variadic && site.name == Intrinsic.name) u c.leading t ∧
          checkCount site f.variadic (f.params.length - c.leading.length) given = .ok () ∧
            c.name = site.name ∧ c.params = f.params.map (·.ty) := by
  constructor
  · intro h
    obtain ⟨id, u, hu, h₁⟩ := bind_ok.mp h
    rw [get_bind] at h₁
    cases hf : u.module.function? id with
    | none =>
      rw [hf] at h₁
      cases h₁
    | some f =>
      cases hi : f.variadic && site.name == Intrinsic.name with
      | true =>
        rw [callee_of_intrinsic hu hf hi] at h
        cases hcount : checkCount site f.variadic (f.params.length - 1) given with
        | error e =>
          rw [hcount] at h
          cases h
        | ok x =>
          rw [hcount] at h
          cases h
          exact ⟨_, f, hu, hf, by rw [hi]; exact ⟨rfl, rfl⟩, hcount, rfl, rfl⟩
      | false =>
        rw [callee_of_plain hu hf hi] at h
        cases hcount : checkCount site f.variadic f.params.length given with
        | error e =>
          rw [hcount] at h
          cases h
        | ok x =>
          rw [hcount] at h
          cases h
          exact ⟨_, f, hu, hf, by rw [hi]; exact ⟨rfl, rfl⟩, hcount, rfl, rfl⟩
  · obtain ⟨id, name, params, leading⟩ := c
    rintro ⟨u, f, hu, hf, hleads, hcount, rfl, rfl⟩
    cases hi : f.variadic && site.name == Intrinsic.name with
    | true =>
      rw [hi] at hleads
      obtain ⟨rfl, rfl⟩ := hleads
      have hone : checkCount site f.variadic (f.params.length - 1) given = .ok () := hcount
      rw [callee_of_intrinsic hu hf hi, hone]
    | false =>
      rw [hi] at hleads
      obtain ⟨rfl, rfl⟩ := hleads
      have hnone : checkCount site f.variadic f.params.length given = .ok () := hcount
      rw [callee_of_plain hu hf hi, hnone]

theorem call_ok {j : Nat} {args : List Value} {v : Option Value} :
    call j args s = .ok v t ↔ ∃ e id f b g, s.module.function? j = some e ∧ s.In id f ∧
      s.block = some b ∧ Build.call b j e.ret args f = .ok v g ∧ t = s.put id g := by
  unfold call
  rw [get_bind]
  cases he : s.module.function? j with
  | none =>
    constructor
    · intro h
      cases h
    · rintro ⟨_, _, _, _, _, h, -⟩
      cases h
  | some e =>
    dsimp only
    rw [inBlock_ok]
    constructor
    · rintro ⟨id, f, b, g, hin, hb, hcall, rfl⟩
      exact ⟨e, id, f, b, g, rfl, hin, hb, hcall, rfl⟩
    · rintro ⟨_, id, f, b, g, h, hin, hb, hcall, rfl⟩
      cases h
      exact ⟨id, f, b, g, hin, hb, hcall, rfl⟩

end Lower

/-! ## Formats and calls -/

def Instr.callsTo (n : Nat) : Instr → Bool
  | .call _ callee _ => callee == n
  | _ => false

theorem Instr.callsTo_of_isCall {i : Instr} (h : i.isCall = false) (n : Nat) :
    i.callsTo n = false := by
  cases i with
  | call => cases h
  | _ => rfl

namespace Function

def callsTo (f : Function) (n : Nat) : Nat :=
  (f.bodies.flatMap Block.instrs).countP (Instr.callsTo n)

variable {f : Function} {n b : Nat} {k : Block}

theorem callsTo_append (hk : f.bodies[b]? = some k) (i : Instr) :
    (f.append b i).callsTo n = f.callsTo n + if i.callsTo n then 1 else 0 := by
  unfold callsTo
  rw [show (f.append b i).bodies = f.bodies.modify b fun k => { k with instrs := k.instrs ++ [i] }
    from rfl, (flatMap_append_instr hk i).countP_eq, List.countP_cons]

theorem callsTo_close (x : Terminator) : (f.close b x).callsTo n = f.callsTo n :=
  congrArg (List.countP _) flatMap_close

theorem callsTo_addBlock (label : String) : (f.addBlock label).callsTo n = f.callsTo n := by
  simp [callsTo, addBlock]

end Function

namespace Lower

/-- Function `id` is under the cursor, and there are `i` formats more than it has
calls of function `n`. -/
structure Balanced (n id i : Nat) (s : LowerState) : Prop where
  registry : s.module.Registry n
  source : id < n
  even : ∃ f, s.In id f ∧ s.module.globals.length = i + f.callsTo n

namespace Balanced

variable {n id i : Nat} {s t : LowerState}

theorem congr (h : Balanced n id i s) (hm : t.module = s.module) (hf : t.function = s.function) :
    Balanced n id i t := by
  obtain ⟨registry, hid, f, hin, heven⟩ := h
  exact ⟨hm ▸ registry, hid, f, ⟨hf.trans hin.function, hm ▸ hin.found⟩, hm ▸ heven⟩

theorem put {i' : Nat} (h : Balanced n id i s) {j : Nat} {f g : Function} (hin : s.In j f)
    (hsig : g.toSignature = f.toSignature) (hid : g.id = f.id)
    (hcalls : i' + g.callsTo n = i + f.callsTo n) : Balanced n id i' (s.put j g) := by
  obtain ⟨registry, hlt, f', hin', heven⟩ := h
  obtain ⟨rfl, rfl⟩ := hin.unique hin'
  exact ⟨registry.set hin.found hlt hsig hid, hlt, g, hin.put g, heven.trans hcalls.symm⟩

theorem findCallee (h : Balanced n id i s) {site : Site} {j : Nat}
    (hr : findCallee site s = .ok j t) : Balanced n id i t ∧
      ∃ f, t.module.function? j = some f ∧ f.name = site.name := by
  rcases (findCallee_ok h.registry.numbered h.registry.distinct).mp hr with
    ⟨rfl, hf⟩ | ⟨hlacks, hname, rfl, rfl⟩
  · exact ⟨h, hf⟩
  · rw [hname] at hlacks
    obtain ⟨registry, hid, f, hin, heven⟩ := h
    refine ⟨⟨registry.declare hlacks, hid, f, ⟨hin.function, ?_⟩, heven⟩,
      _, Module.function?_declared _ _, hname.symm⟩
    obtain ⟨hlt, -⟩ := List.getElem?_eq_some_iff.mp hin.found
    show (s.module.declare Intrinsic.signature).function? id = some f
    rw [Module.function?_declare, if_neg (Nat.ne_of_lt hlt)]
    exact hin.found

theorem callee (h : Balanced n id i s) {site : Site} {given : Nat} {c : Callee}
    (hr : callee site given s = .ok c t) :
    Balanced n id (i + if c.id = n then 1 else 0) t := by
  obtain ⟨u, f, hu, hf, hleads, -⟩ := callee_ok.mp hr
  obtain ⟨hbalanced, f', hf', hname⟩ := h.findCallee hu
  obtain rfl : f = f' := Option.some.inj (hf.symm.trans hf')
  have hiff := hbalanced.registry.formatted_iff hf hname
  cases hi : f.variadic && site.name == Intrinsic.name with
  | true =>
    rw [hi] at hleads
    obtain ⟨-, rfl⟩ := hleads
    rw [if_pos (hiff.mp hi)]
    obtain ⟨registry, hid, g, hin, heven⟩ := hbalanced
    refine ⟨registry.addBytes _, hid, g, ⟨hin.function, hin.found⟩, ?_⟩
    show (u.module.globals ++ [_]).length = _
    rw [List.length_append, heven, List.length_singleton]
    omega
  | false =>
    rw [hi] at hleads
    obtain ⟨-, rfl⟩ := hleads
    rw [if_neg fun hid => Bool.false_ne_true (hi.symm.trans (hiff.mpr hid))]
    exact hbalanced

theorem call {j : Nat} (h : Balanced n id (i + if j = n then 1 else 0) s) {args : List Value}
    {v : Option Value} (hr : call j args s = .ok v t) : Balanced n id i t := by
  obtain ⟨e, _, f, b, g, he, hin, hb, hcall, rfl⟩ := call_ok.mp hr
  obtain ⟨k, hk, -, hcall⟩ := Build.call_ok.mp hcall
  split at hcall
  · obtain ⟨-, rfl⟩ := hcall
    refine h.put hin rfl rfl ?_
    rw [Function.callsTo_append hk]
    simp only [Instr.callsTo, beq_iff_eq]
    omega
  · obtain ⟨-, rfl⟩ := hcall
    refine h.put hin rfl rfl ?_
    rw [Function.callsTo_append (f := f.takeRegister) hk]
    simp only [Instr.callsTo, beq_iff_eq]
    have : f.takeRegister.callsTo n = f.callsTo n := rfl
    omega

theorem same (h : Balanced n id i s) {j : Nat} {f g : Function} (hin : s.In j f)
    (hsig : g.toSignature = f.toSignature) (hid : g.id = f.id)
    (hcalls : g.callsTo n = f.callsTo n) : Balanced n id i (s.put j g) :=
  h.put hin hsig hid (congrArg (i + ·) hcalls)

end Balanced

def Diagonal {ι : Type} (I : ι → LowerState → Prop) (i : ι) (s s' : LowerState) : Prop :=
  s' = s ∧ I i s

theorem follows_diagonal {ι α : Type} {I : ι → LowerState → Prop} {x : Lower α}
    (h : ∀ ⦃i : ι⦄ ⦃s t : LowerState⦄ ⦃a : α⦄, I i s → x s = .ok a t → I i t) :
    Follows (Diagonal I) id x x := by
  rintro i s _ t a ⟨rfl, hI⟩ hr
  exact ⟨t, hr, rfl, h hI hr⟩

theorem Follows.diagonal {ι α : Type} {I : ι → LowerState → Prop} {x y : Lower α}
    (h : Follows (Diagonal I) id x y) {i : ι} {s t : LowerState} {a : α} (hI : I i s)
    (hr : x s = .ok a t) : I i t := by
  obtain ⟨_, -, -, hI'⟩ := h ⟨rfl, hI⟩ hr
  exact hI'

def balance (n c : Nat) : Coupling Nat where
  rel := Diagonal (Balanced n c)
  value := id
  value_ty _ := rfl
  value_const _ _ := rfl
  note e := follows_diagonal fun _ _ _ _ h hr => by
    cases hr
    exact h.congr rfl rfl
  nested site hx := by
    rintro i _ s t a ⟨rfl, h⟩ hr
    obtain ⟨hd, u, hu, rfl⟩ := nested_ok.mp hr
    have hdeeper : Balanced n c i (deeper s) := h.congr rfl rfl
    obtain ⟨_, hu', rfl, h'⟩ := hx ⟨rfl, hdeeper⟩ hu
    exact ⟨_, nested_ok.mpr ⟨hd, _, hu', rfl⟩, rfl, h'.congr rfl rfl⟩
  inLoop l hx := by
    rintro i _ s t a ⟨rfl, h⟩ hr
    obtain ⟨u, hu, rfl⟩ := inLoop_ok hr
    have hinside : Balanced n c i { s with loops := l :: s.loops } := h.congr rfl rfl
    obtain ⟨_, hu', rfl, h'⟩ := hx ⟨rfl, hinside⟩ hu
    exact ⟨_, inLoop_of_ok hu', rfl, h'.congr rfl rfl⟩
  innermostLoop := follows_diagonal fun _ _ _ _ h hr => by
    cases hr
    exact h
  lookup name := by
    rw [show Binding.map id = id from funext Binding.map_id, Option.map_id]
    exact follows_diagonal fun _ _ _ _ h hr => by
      cases hr
      exact h
  bind name storage := by
    rw [Storage.map_id]
    exact follows_diagonal fun _ _ _ _ h hr => by
      cases hr
      exact h.congr rfl rfl
  newBlock label := follows_diagonal fun _ _ _ _ h hr => by
    obtain ⟨id, f, hin, -, rfl⟩ := newBlock_ok.mp hr
    have hsame := h.same (g := f.addBlock label) hin rfl rfl (Function.callsTo_addBlock label)
    exact hsame.congr rfl rfl
  setBlock b := follows_diagonal fun _ _ _ _ h hr => by
    cases hr
    exact h.congr rfl rfl
  alloca ty := follows_diagonal fun _ _ _ _ h hr => by
    obtain ⟨id, f, hin, -, -, rfl⟩ := alloca_ok.mp hr
    exact h.same hin rfl rfl rfl
  seed v p := follows_diagonal fun _ _ _ _ h hr => by
    obtain ⟨id, f, hin, -, rfl⟩ := seed_ok.mp hr
    exact h.same hin rfl rfl rfl
  define ty make hcall := by
    simp only [Instr.map_id]
    exact follows_diagonal fun _ _ _ _ h hr => by
      obtain ⟨id, f, b, k, hat, -, -, rfl⟩ := define_ok.mp hr
      refine h.same hat.toIn rfl rfl ?_
      rw [Function.callsTo_append (f := f.takeRegister) hat.block,
        Instr.callsTo_of_isCall (hcall _)]
      rfl
  store v p := follows_diagonal fun _ _ _ _ h hr => by
    obtain ⟨id, f, b, k, hat, -, rfl⟩ := perform_ok.mp hr
    exact h.same hat.toIn rfl rfl (Function.callsTo_append hat.block _)
  terminate x := by
    rw [Terminator.map_id]
    exact follows_diagonal fun _ _ _ _ h hr => by
      obtain ⟨id, f, b, k, hat, -, -, rfl⟩ := terminate_ok.mp hr
      exact h.same hat.toIn rfl rfl (Function.callsTo_close x)
  terminated := follows_diagonal fun _ _ _ _ h hr => by
    obtain ⟨_, _, _, _, -, -, rfl⟩ := terminated_ok.mp hr
    exact h
  functionCall site ts hts := by
    rw [Option.map_id]
    refine follows_diagonal fun i s t v h hr => ?_
    obtain ⟨e, u, hu, hr⟩ := bind_ok.mp hr
    obtain ⟨args, w, hw, hr⟩ := bind_ok.mp hr
    have harguments : Follows (Diagonal (Balanced n c)) (List.map id) (arguments e e.leading ts)
        (arguments (e.map id) (e.leading.map id) ts) := follows_arguments (fun _ => rfl) hts _ _
    rw [List.map_id_fun] at harguments
    exact (harguments.diagonal (h.callee hu) hw).call hr

/-- The body of a function adds as many formats as calls of the intrinsic. -/
theorem body_balanced {n id : Nat} {s v : LowerState} {f : Function} {site : Site} {c : Tree}
    {x : Unit} (h : s.module.Registry n) (hf : s.module.function? id = some f) (hid : id < n)
    (hfresh : f.callsTo n = 0) (hr : body site id c s = .ok x v) :
    v.module.Registry n ∧ ∃ g, v.module.function? id = some g ∧
      v.module.globals.length = s.module.globals.length + g.callsTo n := by
  obtain ⟨u, hu, rfl⟩ := (body_ok hf).mp hr
  have hopened : Balanced n id s.module.globals.length (opened site s id f) := by
    refine ⟨h.set hf hid rfl rfl, hid, _, opened_in hf, ?_⟩
    rw [Function.callsTo_addBlock, hfresh]
    rfl
  obtain ⟨registry, -, g, hin, heven⟩ :=
    ((balance n id).bodyCode site _ _ c).diagonal hopened hu
  exact ⟨registry, g, hin.found, heven⟩

end Lower

end TreeFlow
