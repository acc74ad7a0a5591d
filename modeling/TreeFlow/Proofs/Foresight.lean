import TreeFlow.Proofs.Registry

/-!
# Names that come too early

A run that registers all functions at first knows more names than one that
registers each function when it comes to it. The second run then misses the names
of functions that are declared later, and it takes a name that is the intrinsic's
for the intrinsic. The code that the two runs put out may differ in the types of
calls, but a value that both of them have is of the same type, and blocks are ended
in both at the same points. So the second run fails only where it misses a name, or
where a function has the name of the intrinsic that it has already called.
-/

set_option autoImplicit false

namespace TreeFlow

/-! ## Functions and values -/

def Function.shape (f : Function) : List Bool := f.bodies.map Block.terminated

namespace Function

variable {f g : Function}

theorem shape_append (b : Nat) (i : Instr) : (f.append b i).shape = f.shape := by
  have hsame : ∀ k : Block, Block.terminated { k with instrs := k.instrs ++ [i] } =
      (fun ended => ended) k.terminated := fun _ => rfl
  exact (map_modify Block.terminated hsame f.bodies b).trans (List.modify_id b f.shape)

theorem shape_close (b : Nat) (x : Terminator) :
    (f.close b x).shape = f.shape.modify b fun _ => true :=
  map_modify Block.terminated (fun _ => rfl) f.bodies b

theorem shape_addBlock (label : String) : (f.addBlock label).shape = f.shape ++ [false] := by
  simp [shape, addBlock, Block.terminated]

theorem length_of_shape (h : g.shape = f.shape) : g.bodies.length = f.bodies.length := by
  have hlength := congrArg List.length h
  rwa [shape, shape, List.length_map, List.length_map] at hlength

theorem nonempty_of_shape (h : g.shape = f.shape) (hf : f.bodies ≠ []) : g.bodies ≠ [] := by
  rw [← List.length_pos_iff] at hf ⊢
  rwa [length_of_shape h]

theorem block_of_shape (h : g.shape = f.shape) {b : Nat} {k : Block} (hk : f.bodies[b]? = some k) :
    ∃ l, g.bodies[b]? = some l ∧ l.terminated = k.terminated := by
  have hget : (g.shape)[b]? = some k.terminated := by
    rw [h, shape, List.getElem?_map, hk]
    rfl
  rw [shape, List.getElem?_map, Option.map_eq_some_iff] at hget
  exact hget

end Function

def Value.SameTy (v w : Value) : Prop := w.ty = v.ty

theorem Terminator.Related.successors {R : Value → Value → Prop} {x y : Terminator}
    (h : x.Related R y) : y.successors = x.successors := by
  cases h <;> rfl

/-! ## Modules -/

namespace Module

/-- The first module has the functions of the second one. What the second one lacks
is declared `later`, and it has the intrinsic only if this has been `called`. -/
structure Foresees (later : List String) (called : Prop) (m m' : Module) : Prop where
  numbered : m.Numbered
  distinct : m.Distinct
  numbered' : m'.Numbered
  distinct' : m'.Distinct
  returns : ∀ sig ∈ m.signatures, sig.ret = .i32 ∨ sig.ret = .void
  known : ∀ sig ∈ m'.signatures, sig = Intrinsic.signature ∧ called ∨
    sig.variadic = false ∧ sig.name ∉ later ∧ sig ∈ m.signatures
  lacking : ∀ sig ∈ m.signatures, m'.Lacks sig.name → sig.name = Intrinsic.name ∨ sig.name ∈ later

theorem signatures_declare (m : Module) (sig : Signature) :
    (m.declare sig).signatures = m.signatures ++ [sig] := by
  rw [signatures, declare, List.map_append]
  rfl

theorem mem_signatures {m : Module} {j : Nat} {f : Function} (hf : m.function? j = some f) :
    f.toSignature ∈ m.signatures :=
  List.mem_map_of_mem (List.mem_of_getElem? hf)

namespace Foresees

variable {later : List String} {called : Prop} {m m' : Module}

theorem mono (h : m.Foresees later called m') {called' : Prop} (hcalled : called → called') :
    m.Foresees later called' m' :=
  { h with known := fun sig hsig => (h.known sig hsig).imp_left fun hi => ⟨hi.1, hcalled hi.2⟩ }

theorem set (h : m.Foresees later called m') {id id' : Nat} {f g f' g' : Function}
    (hf : m.function? id = some f) (hsig : g.toSignature = f.toSignature) (hid : g.id = f.id)
    (hf' : m'.function? id' = some f') (hsig' : g'.toSignature = f'.toSignature)
    (hid' : g'.id = f'.id) :
    (m.setFunction id g).Foresees later called (m'.setFunction id' g') where
  numbered := h.numbered.setFunction hf hid
  distinct := h.distinct.setFunction hf (congrArg Signature.name hsig)
  numbered' := h.numbered'.setFunction hf' hid'
  distinct' := h.distinct'.setFunction hf' (congrArg Signature.name hsig')
  returns := by
    rw [signatures_set hf hsig]
    exact h.returns
  known := by
    rw [signatures_set hf hsig, signatures_set hf' hsig']
    exact h.known
  lacking sig hmem hlacks := by
    rw [signatures_set hf hsig] at hmem
    exact h.lacking sig hmem (hlacks.kept (.set hf' hsig'))

theorem declareLeft (h : m.Foresees later called m') (hlacks : m.Lacks Intrinsic.name) :
    (m.declare Intrinsic.signature).Foresees later called m' where
  numbered := h.numbered.declare _
  distinct := h.distinct.declare (find?_eq_none.mpr hlacks)
  numbered' := h.numbered'
  distinct' := h.distinct'
  returns sig hsig := by
    rw [signatures_declare, List.mem_append, List.mem_singleton] at hsig
    rcases hsig with hsig | rfl
    · exact h.returns sig hsig
    · exact .inl rfl
  known sig hsig := by
    rw [signatures_declare]
    exact (h.known sig hsig).imp_right fun hk => ⟨hk.1, hk.2.1, List.mem_append_left _ hk.2.2⟩
  lacking sig hsig hlacks := by
    rw [signatures_declare, List.mem_append, List.mem_singleton] at hsig
    rcases hsig with hsig | rfl
    · exact h.lacking sig hsig hlacks
    · exact .inl rfl

theorem declareRight (h : m.Foresees later called m') (hlacks : m'.Lacks Intrinsic.name)
    (hcalled : called) : m.Foresees later called (m'.declare Intrinsic.signature) where
  numbered := h.numbered
  distinct := h.distinct
  numbered' := h.numbered'.declare _
  distinct' := h.distinct'.declare (find?_eq_none.mpr hlacks)
  returns := h.returns
  known sig hsig := by
    rw [signatures_declare, List.mem_append, List.mem_singleton] at hsig
    rcases hsig with hsig | rfl
    · exact h.known sig hsig
    · exact .inl ⟨rfl, hcalled⟩
  lacking sig hsig hlacks := h.lacking sig hsig (hlacks.kept (.declare m' _))

theorem declareSource {name : String} (h : m.Foresees (name :: later) called m') {sig : Signature}
    (hname : sig.name = name) (hlater : name ∉ later) (hv : sig.variadic = false)
    (hsig : sig ∈ m.signatures) (hlacks : m'.Lacks name) :
    m.Foresees later called (m'.declare sig) where
  numbered := h.numbered
  distinct := h.distinct
  numbered' := h.numbered'.declare sig
  distinct' := h.distinct'.declare (find?_eq_none.mpr (hname ▸ hlacks))
  returns := h.returns
  known sig' hsig' := by
    rw [signatures_declare, List.mem_append, List.mem_singleton] at hsig'
    rcases hsig' with hsig' | rfl
    · refine (h.known sig' hsig').imp_right fun hk => ⟨hk.1, ?_, hk.2.2⟩
      exact fun hmem => hk.2.1 (List.mem_cons_of_mem _ hmem)
    · exact .inr ⟨hv, hname ▸ hlater, hsig⟩
  lacking sig' hsig' hlacks' := by
    obtain ⟨hlacks₁, hne⟩ := lacks_declare.mp hlacks'
    refine (h.lacking sig' hsig' hlacks₁).imp_right fun hmem => ?_
    rcases List.mem_cons.mp hmem with heq | hmem
    · exact absurd (hname.trans heq.symm) hne
    · exact hmem

theorem signature_eq (h : m.Foresees later called m') {j id : Nat} {f' f : Function}
    (hf' : m'.function? j = some f') (hf : m.function? id = some f) (hname : f'.name = f.name)
    (hne : f'.toSignature ≠ Intrinsic.signature) :
    f'.toSignature = f.toSignature ∧ f'.variadic = false := by
  rcases h.known _ (mem_signatures hf') with ⟨hsig, -⟩ | ⟨hv, -, hmem⟩
  · exact absurd hsig hne
  · obtain ⟨g, hg, hsig⟩ := List.mem_map.mp hmem
    obtain ⟨i, hi⟩ := List.getElem?_of_mem hg
    obtain rfl := h.distinct i id g f hi hf ((congrArg Signature.name hsig).trans hname)
    obtain rfl : g = f := Option.some.inj (hi.symm.trans hf)
    exact ⟨hsig.symm, hv⟩

end Foresees

end Module

/-! ## States -/

def Module.Shaped (m m' : Module) (i i' : Option Nat) : Prop :=
  ∃ id id' f f', i = some id ∧ m.function? id = some f ∧ i' = some id' ∧
    m'.function? id' = some f' ∧ f'.shape = f.shape

theorem Module.function?_of_declare {m : Module} {sig : Signature} {j : Nat} {f : Function}
    (hf : m.function? j = some f) : (m.declare sig).function? j = some f :=
  (List.getElem?_append_left (List.getElem?_eq_some_iff.mp hf).1).trans hf

theorem Module.Shaped.kept {m m' n n' : Module} {i i' : Option Nat} (h : m.Shaped m' i i')
    (hm : ∀ j f, m.function? j = some f → n.function? j = some f)
    (hm' : ∀ j f, m'.function? j = some f → n'.function? j = some f) : n.Shaped n' i i' := by
  obtain ⟨id, id', f, f', hi, hf, hi', hf', hshape⟩ := h
  exact ⟨id, id', f, f', hi, hm id f hf, hi', hm' id' f' hf', hshape⟩

/-- A run that knows all functions is ahead of one that knows those that it has come
to. -/
structure LowerState.Ahead (later : List String) (called : Prop) (s s' : LowerState) : Prop where
  module : s.module.Foresees later called s'.module
  constants : s'.scope.constants = s.scope.constants
  /-- The intrinsic does not come unnoticed. -/
  noted : Intrinsic.signature ∈ s'.module.signatures →
    Event.intrinsicDeclared Intrinsic.name ∈ s'.log

structure LowerState.Foresees (later : List String) (called : Prop) (s s' : LowerState) : Prop
    extends LowerState.Ahead later called s s' where
  function : s.module.Shaped s'.module s.function s'.function
  locals : ∀ x, (s.scope.local? x).Rel (Storage.Related Value.SameTy) (s'.scope.local? x)
  block : s'.block = s.block
  loops : s'.loops = s.loops
  depth : s'.depth = s.depth

namespace LowerState.Foresees

variable {later : List String} {called : Prop} {s s' : LowerState} {id id' b : Nat}
  {f g f' g' : Function}

theorem inside (h : s.Foresees later called s') (hin : s.In id f) :
    ∃ id' f', s'.In id' f' ∧ f'.shape = f.shape := by
  obtain ⟨i, i', e, e', hi, he, hi', he', hshape⟩ := h.function
  obtain ⟨rfl, rfl⟩ := hin.unique ⟨hi, he⟩
  exact ⟨i', e', ⟨hi', he'⟩, hshape⟩

theorem cursor (h : s.Foresees later called s') {k : Block} (hat : s.At id f b k) :
    ∃ id' f' k', s'.At id' f' b k' ∧ f'.shape = f.shape ∧ k'.terminated = k.terminated := by
  obtain ⟨id', f', hin', hshape⟩ := h.inside hat.toIn
  obtain ⟨k', hk', hended⟩ := Function.block_of_shape hshape hat.block
  exact ⟨id', f', k', ⟨hin', h.block.trans hat.cursor, hk'⟩, hshape, hended⟩

theorem opening (h : s.Foresees later called s') {k : Block} (hat : s.At id f b k)
    (hopen : k.terminator = none) :
    ∃ id' f' k', s'.At id' f' b k' ∧ f'.shape = f.shape ∧ k'.terminator = none := by
  obtain ⟨id', f', k', hat', hshape, hended⟩ := h.cursor hat
  refine ⟨id', f', k', hat', hshape, ?_⟩
  rw [Block.terminated, Block.terminated, hopen] at hended
  exact Option.isSome_eq_false_iff.mp hended |> Option.isNone_iff_eq_none.mp

theorem put (h : s.Foresees later called s') (hin : s.In id f) (hin' : s'.In id' f')
    (hsig : g.toSignature = f.toSignature) (hid : g.id = f.id)
    (hsig' : g'.toSignature = f'.toSignature) (hid' : g'.id = f'.id) (hshape : g'.shape = g.shape) :
    (s.put id g).Foresees later called (s'.put id' g') where
  module := h.module.set hin.found hsig hid hin'.found hsig' hid'
  function := ⟨id, id', g, g', hin.function, (hin.put g).found, hin'.function, (hin'.put g').found,
    hshape⟩
  constants := h.constants
  locals := h.locals
  block := h.block
  loops := h.loops
  depth := h.depth
  noted := by
    rw [LowerState.put, Module.signatures_set hin'.found hsig']
    exact h.noted

theorem note (h : s.Foresees later called s') (e e' : Event) :
    LowerState.Foresees later called { s with log := s.log ++ [e] }
      { s' with log := s'.log ++ [e'] } :=
  { h with noted := fun hi => List.mem_append_left _ (h.noted hi) }

theorem intrinsicLeft (h : s.Foresees later called s') (hlacks : s.module.Lacks Intrinsic.name) :
    (Lower.withIntrinsic s).Foresees later called s' :=
  { h with
    module := h.module.declareLeft hlacks
    function := h.function.kept (fun _ _ => Module.function?_of_declare) fun _ _ => id }

theorem intrinsicRight (h : s.Foresees later called s') (hlacks : s'.module.Lacks Intrinsic.name)
    (hcalled : called) : s.Foresees later called (Lower.withIntrinsic s') :=
  { h with
    module := h.module.declareRight hlacks hcalled
    function := h.function.kept (fun _ _ => id) fun _ _ => Module.function?_of_declare
    noted := fun _ => List.mem_append_right _ (List.mem_singleton.mpr rfl) }

theorem formatLeft (h : s.Foresees later called s') :
    (Lower.withFormat s).Foresees later called s' :=
  { h with module := { h.module with } }

theorem formatRight (h : s.Foresees later called s') :
    s.Foresees later called (Lower.withFormat s') :=
  { h with module := { h.module with } }

end LowerState.Foresees

namespace Lower

/-! ## Calls -/

def Missing (later : List String) (calls : Tree → Prop) (e : LowerError) : Prop :=
  ∃ n, calls n ∧ n.name ∈ later ∧ e = n.site.fault (.undefinedFunction n.name)

def Accepts (c c' : Callee) : Prop :=
  ∀ i v w site, Value.SameTy v w → checkArgument c site (c.leading.length + i) v = .ok () →
    checkArgument c' site (c'.leading.length + i) w = .ok ()

def Answers (m m' : Module) (j j' : Nat) : Prop :=
  ∃ e e', m.function? j = some e ∧ m'.function? j' = some e' ∧
    (e.ret.isVoid = false → e'.ret = e.ret)

theorem Answers.kept {m m' n n' : Module} {j j' : Nat} (h : Answers m m' j j') (hm : m.Keeps n)
    (hm' : m'.Keeps n') : Answers n n' j j' := by
  obtain ⟨e, e', he, he', hret⟩ := h
  obtain ⟨g, hg, hsig⟩ := hm j e he
  obtain ⟨g', hg', hsig'⟩ := hm' j' e' he'
  refine ⟨g, g', hg, hg', ?_⟩
  rw [show g.ret = e.ret from congrArg Signature.ret hsig,
    show g'.ret = e'.ret from congrArg Signature.ret hsig']
  exact hret

section Calls

variable {later : List String} {called : Prop} {s s' t u : LowerState} {site : Site} {given : Nat}

theorem findCallee_left (h : s.Foresees later called s') {j : Nat}
    (hr : findCallee site s = .ok j u) :
    u.Foresees later called s' ∧ ∃ f, u.module.function? j = some f ∧ f.name = site.name := by
  rcases (findCallee_ok h.module.numbered h.module.distinct).mp hr with
    ⟨rfl, hf⟩ | ⟨hlacks, hname, rfl, rfl⟩
  · exact ⟨h, hf⟩
  · exact ⟨h.intrinsicLeft (hname ▸ hlacks), _, Module.function?_declared _ _, hname.symm⟩

theorem leads_left {formatted : Bool} {leading : List Value} (h : s.Foresees later called s')
    (hleads : Leads formatted s leading t) :
    t.Foresees later called s' ∧ ∀ j, t.module.function? j = s.module.function? j := by
  cases formatted with
  | true =>
    obtain ⟨-, rfl⟩ := hleads
    exact ⟨h.formatLeft, fun _ => rfl⟩
  | false =>
    obtain ⟨-, rfl⟩ := hleads
    exact ⟨h, fun _ => rfl⟩

theorem callee_intrinsic (h : t.Foresees later called s') {c : Callee} {j : Nat}
    {f f' : Function} (hf : t.module.function? c.id = some f) (hname : site.name = Intrinsic.name)
    (hfind : findCallee site s = .ok j s') (hf' : s'.module.function? j = some f')
    (hsig : f'.toSignature = Intrinsic.signature) :
    ∃ c', callee site given s = .ok c' (withFormat s') ∧ t.Foresees later called (withFormat s') ∧
      Answers t.module (withFormat s').module c.id c'.id ∧ Accepts c c' := by
  have hv : f'.variadic = true := congrArg Signature.variadic hsig
  have hparams : f'.params = [⟨"format", .ptr .i8⟩] := congrArg Signature.params hsig
  have hret : f'.ret = .i32 := congrArg Signature.ret hsig
  refine ⟨⟨j, site.name, f'.params.map (·.ty), [Module.address s'.module.globals.length]⟩,
    callee_ok.mpr ⟨s', f', hfind, hf', ?_, ?_, rfl, rfl⟩, h.formatRight,
    ⟨f, f', hf, hf', fun hvalue => ?_⟩, ?_⟩
  · rw [hv, hname, Bool.true_and, beq_self_eq_true]
    exact ⟨rfl, rfl⟩
  · rw [hv, hparams]
    rfl
  · rw [hret]
    rcases h.module.returns _ (Module.mem_signatures hf) with hint | hvoid
    · exact hint.symm
    · rw [show f.ret = .void from hvoid] at hvalue
      cases hvalue
  · intro i v w site' _ _
    rw [hparams]
    unfold checkArgument
    rw [List.getElem?_eq_none (by simp)]

theorem callee_same {c : Callee} {j : Nat} {f f' : Function} {leads : Bool}
    (hf : t.module.function? c.id = some f) (hname : c.name = site.name)
    (hparams : c.params = f.params.map (·.ty)) (hleads : Leads (f.variadic && leads) u c.leading t)
    (hcount : checkCount site f.variadic (f.params.length - c.leading.length) given = .ok ())
    (hfind : findCallee site s = .ok j s') (hf' : s'.module.function? j = some f')
    (hsig : f'.toSignature = f.toSignature) (hv : f'.variadic = false) :
    ∃ c', callee site given s = .ok c' s' ∧ Answers t.module s'.module c.id c'.id ∧
      Accepts c c' := by
  have hparams' : f'.params = f.params := congrArg Signature.params hsig
  have hvariadic : f.variadic = false := (congrArg Signature.variadic hsig).symm.trans hv
  rw [hvariadic, Bool.false_and] at hleads
  obtain ⟨hlead, -⟩ := hleads
  rw [hvariadic, hlead] at hcount
  refine ⟨⟨j, site.name, f'.params.map (·.ty), []⟩,
    callee_ok.mpr ⟨s', f', hfind, hf', ?_, ?_, rfl, rfl⟩,
    ⟨f, f', hf, hf', fun _ => congrArg Signature.ret hsig⟩, ?_⟩
  · rw [hv, Bool.false_and]
    exact ⟨rfl, rfl⟩
  · rw [hv, hparams']
    exact hcount
  · intro i v w site' hty hcheck
    unfold checkArgument at hcheck ⊢
    rw [hlead, hparams, hname] at hcheck
    rw [show w.ty = v.ty from hty, hparams']
    exact hcheck

/-- The second run finds a callee for that of the first one, or it misses a name. -/
theorem callee_tracked {calls : Tree → Prop} {n : Tree} (h : s.Foresees later called s')
    (hn : calls n) (hcalled : n.name = Intrinsic.name → called) {c : Callee}
    (hr : callee n.site given s = .ok c t) :
    (∃ c' t', callee n.site given s' = .ok c' t' ∧ t.Foresees later called t' ∧
        Answers t.module t'.module c.id c'.id ∧ Accepts c c') ∨
      ∃ e t', callee n.site given s' = .error e t' ∧ Missing later calls e := by
  obtain ⟨u, f, hu, hf, hleads, hcount, hname, hparams⟩ := callee_ok.mp hr
  obtain ⟨hforesees, f₁, hf₁, hfname⟩ := findCallee_left h hu
  obtain rfl : f₁ = f := Option.some.inj (hf₁.symm.trans hf)
  obtain ⟨ht, hsame⟩ := leads_left hforesees hleads
  have hft := (hsame c.id).trans hf
  -- To the second run the name is the intrinsic's, that of a function it has come to, or new.
  cases hfind : s'.module.find? n.site.name with
  | some j =>
    obtain ⟨f', hf', hname'⟩ := h.module.numbered'.find? hfind
    have hfound := findCallee_of_some hfind
    by_cases hsig : f'.toSignature = Intrinsic.signature
    · have hintrinsic := hname'.symm.trans (congrArg Signature.name hsig)
      obtain ⟨c', hc', hrest⟩ := callee_intrinsic ht hft hintrinsic hfound hf' hsig
      exact .inl ⟨c', _, hc', hrest⟩
    · obtain ⟨hsig, hv⟩ := ht.module.signature_eq hf' hft (hname'.trans hfname.symm) hsig
      obtain ⟨c', hc', hrest⟩ := callee_same hft hname hparams hleads hcount hfound hf' hsig hv
      exact .inl ⟨c', s', hc', ht, hrest⟩
  | none =>
    have hlacks := Module.find?_eq_none.mp hfind
    by_cases hintrinsic : n.site.name = Intrinsic.name
    · have hright := ht.intrinsicRight (hintrinsic ▸ hlacks) (hcalled hintrinsic)
      have hfound := findCallee_of_intrinsic hfind hintrinsic
      obtain ⟨c', hc', hrest⟩ := callee_intrinsic hright hft hintrinsic hfound
        (Module.function?_declared _ _) rfl
      exact .inl ⟨c', _, hc', hrest⟩
    · refine .inr ⟨_, s', bind_of_error (findCallee_of_none hfind hintrinsic), n, hn, ?_, rfl⟩
      have hsig := Module.mem_signatures hf
      rcases hforesees.module.lacking _ hsig (hfname ▸ hlacks) with hi | hlater
      · exact absurd (hfname.symm.trans hi) hintrinsic
      · rw [show n.name = f₁.name from hfname.symm]
        exact hlater

theorem call_runs {id b j : Nat} {f e : Function} {k : Block} (hat : s.At id f b k)
    (hopen : k.terminator = none) (he : s.module.function? j = some e) (args : List Value) :
    ∃ v g, call j args s = .ok v (s.put id g) ∧ g.toSignature = f.toSignature ∧ g.id = f.id ∧
      g.shape = f.shape ∧ v.map Value.ty = if e.ret.isVoid then none else some e.ret := by
  cases hv : e.ret.isVoid with
  | true =>
    refine ⟨none, f.append b (.call none j args), call_ok.mpr ⟨e, id, f, b, _, he, hat.toIn,
      hat.cursor, Build.call_ok.mpr ⟨k, hat.block, hopen, ?_⟩, rfl⟩, rfl, rfl,
      Function.shape_append _ _, rfl⟩
    rw [hv]
    exact ⟨rfl, rfl⟩
  | false =>
    refine ⟨some (.reg f.registers e.ret),
      f.takeRegister.append b (.call (some f.registers) j args), call_ok.mpr ⟨e, id, f, b, _, he,
      hat.toIn, hat.cursor, Build.call_ok.mpr ⟨k, hat.block, hopen, ?_⟩, rfl⟩, rfl, rfl,
      Function.shape_append _ _, rfl⟩
    rw [hv]
    exact ⟨rfl, rfl⟩

theorem call_tracked (h : s.Foresees later called s') {j j' : Nat} {args : List Value}
    (hanswers : Answers s.module s'.module j j') {v : Option Value}
    (hr : call j args s = .ok v t) (args' : List Value) :
    ∃ v' t', call j' args' s' = .ok v' t' ∧ ResultsRelated Value.SameTy v v' ∧
      t.Foresees later called t' := by
  obtain ⟨e, id, f, b, _, he, hin, hb, hcall, -⟩ := call_ok.mp hr
  obtain ⟨k, hk, hopen, -⟩ := Build.call_ok.mp hcall
  obtain ⟨e₀, e', he₀, he', hret⟩ := hanswers
  obtain rfl : e₀ = e := Option.some.inj (he₀.symm.trans he)
  have hat : s.At id f b k := ⟨hin, hb, hk⟩
  obtain ⟨id', f', k', hat', hshape, hopen'⟩ := h.opening hat hopen
  obtain ⟨w, g, hg, hsig, hid, hgshape, hty⟩ := call_runs hat hopen he args
  obtain ⟨w', g', hg', hsig', hid', hgshape', hty'⟩ := call_runs hat' hopen' he' args'
  cases hr.symm.trans hg
  refine ⟨w', _, hg', ?_, h.put hin hat'.toIn hsig hid hsig' hid' ?_⟩
  · rintro a rfl
    cases hv : e₀.ret.isVoid with
    | true =>
      rw [hv] at hty
      cases hty
    | false =>
      rw [hv] at hty
      rw [hret hv, hv] at hty'
      obtain ⟨a', ha', haty⟩ := Option.map_eq_some_iff.mp hty'
      exact ⟨a', ha', haty.trans (Option.some.inj hty).symm⟩
  · rw [hgshape', hgshape]
    exact hshape

end Calls

/-! ## The comparison -/

section Compared

variable (later : List String) (called : Prop) (calls : Tree → Prop)

/-- The second run does what the first one does, unless it misses a name. -/
def foreseen (hcalled : ∀ n, calls n → n.name = Intrinsic.name → called) : Comparison where
  holds := Tracks (Missing later calls) fun _ : Unit => LowerState.Foresees later called
  value := Value.SameTy
  called := calls
  value_ty := id
  value_const _ _ := rfl
  pure := tracks_pure
  throw := tracks_throw
  bind := Tracks.bind
  note e := by
    intro _ s s' t a h hr
    cases hr
    exact .inl ⟨(), _, rfl, trivial, h.note e e⟩
  nestedValue site := Tracks.nested (fun h => h.depth)
    (fun h => { h with depth := congrArg (· + 1) h.depth })
    (fun h => { h with depth := congrArg (· - 1) h.depth }) site
  nested site := Tracks.nested (fun h => h.depth)
    (fun h => { h with depth := congrArg (· + 1) h.depth })
    (fun h => { h with depth := congrArg (· - 1) h.depth }) site
  inLoop l := Tracks.inLoop l (fun h => { h with loops := congrArg (l :: ·) h.loops })
    fun h => { h with loops := congrArg List.tail h.loops }
  innermostLoop := by
    intro _ s s' t a h hr
    cases hr
    exact .inl ⟨_, s', rfl, congrArg List.head? h.loops.symm, h⟩
  lookup name := by
    intro _ s s' t a h hr
    cases hr
    exact .inl ⟨_, s', rfl, Scope.lookup_related (h.locals name) h.constants, h⟩
  bindName name {_ _} hs := by
    intro _ s s' t a h hr
    cases hr
    refine .inl ⟨(), _, rfl, trivial, { h with locals := fun x => ?_ }⟩
    rw [Scope.local?_bind, Scope.local?_bind]
    split
    · exact .some hs
    · exact h.locals x
  newBlock label := by
    intro _ s s' t a h hr
    obtain ⟨id, f, hin, rfl, rfl⟩ := newBlock_ok.mp hr
    obtain ⟨id', f', hin', hshape⟩ := h.inside hin
    refine .inl ⟨_, _, newBlock_ok.mpr ⟨id', f', hin', rfl, rfl⟩,
      (Function.length_of_shape hshape).symm, ?_⟩
    have hput : (s.put id (f.addBlock label)).Foresees later called
        (s'.put id' (f'.addBlock label)) := by
      refine h.put hin hin' rfl rfl rfl rfl ?_
      rw [Function.shape_addBlock, Function.shape_addBlock, hshape]
    exact hput.note _ _
  setBlock b := by
    intro _ s s' t a h hr
    cases hr
    have hnote := h.note (.insertionPoint b) (.insertionPoint b)
    exact .inl ⟨(), _, rfl, trivial, { hnote with block := rfl }⟩
  alloca ty := by
    intro _ s s' t a h hr
    obtain ⟨id, f, hin, hne, rfl, rfl⟩ := alloca_ok.mp hr
    obtain ⟨id', f', hin', hshape⟩ := h.inside hin
    have hne' := Function.nonempty_of_shape hshape hne
    exact .inl ⟨_, _, alloca_ok.mpr ⟨id', f', hin', hne', rfl, rfl⟩, rfl,
      h.put hin hin' rfl rfl rfl rfl hshape⟩
  seed _ _ := by
    intro _ s s' t a h hr
    obtain ⟨id, f, hin, hne, rfl⟩ := seed_ok.mp hr
    obtain ⟨id', f', hin', hshape⟩ := h.inside hin
    have hne' := Function.nonempty_of_shape hshape hne
    exact .inl ⟨(), _, seed_ok.mpr ⟨id', f', hin', hne', rfl⟩, trivial,
      h.put hin hin' rfl rfl rfl rfl hshape⟩
  define ty {make make'} _ := by
    intro _ s s' t a h hr
    obtain ⟨id, f, b, k, hat, hopen, rfl, rfl⟩ := define_ok.mp hr
    obtain ⟨id', f', k', hat', hshape, hopen'⟩ := h.opening hat hopen
    refine .inl ⟨_, _, define_ok.mpr ⟨id', f', b, k', hat', hopen', rfl, rfl⟩, rfl,
      h.put hat.toIn hat'.toIn rfl rfl rfl rfl ?_⟩
    rw [Function.shape_append, Function.shape_append]
    exact hshape
  store _ _ := by
    intro _ s s' t a h hr
    obtain ⟨id, f, b, k, hat, hopen, rfl⟩ := perform_ok.mp hr
    obtain ⟨id', f', k', hat', hshape, hopen'⟩ := h.opening hat hopen
    refine .inl ⟨(), _, perform_ok.mpr ⟨id', f', b, k', hat', hopen', rfl⟩, trivial,
      h.put hat.toIn hat'.toIn rfl rfl rfl rfl ?_⟩
    rw [Function.shape_append, Function.shape_append]
    exact hshape
  terminate {x y} hx := by
    intro _ s s' t a h hr
    obtain ⟨id, f, b, k, hat, hopen, hsuccessors, rfl⟩ := terminate_ok.mp hr
    obtain ⟨id', f', k', hat', hshape, hopen'⟩ := h.opening hat hopen
    rw [← hx.successors, ← Function.length_of_shape hshape] at hsuccessors
    refine .inl ⟨(), _, terminate_ok.mpr ⟨id', f', b, k', hat', hopen', hsuccessors, rfl⟩, trivial,
      h.put hat.toIn hat'.toIn rfl rfl rfl rfl ?_⟩
    rw [Function.shape_close, Function.shape_close, hshape]
  terminated := by
    intro _ s s' t a h hr
    obtain ⟨id, f, b, k, hat, rfl, rfl⟩ := terminated_ok.mp hr
    obtain ⟨id', f', k', hat', -, hended⟩ := h.cursor hat
    exact .inl ⟨_, s', terminated_ok.mpr ⟨id', f', b, k', hat', rfl, rfl⟩, hended.symm, h⟩
  functionCall site ts hcall hts := by
    intro _ s s' t v h hr
    obtain ⟨c, u, hu, hr⟩ := bind_ok.mp hr
    obtain ⟨args, w, hw, hr⟩ := bind_ok.mp hr
    rcases callee_tracked h hcall (hcalled _ hcall) hu with
      ⟨c', u', hu', hrel, hanswers, haccepts⟩ | ⟨e, u', hu', he⟩
    · have hargs := tracks_arguments hts c.leading c'.leading haccepts
      rcases @hargs () u u' w args hrel hw with ⟨args', w', hw', -, hrel'⟩ | ⟨e, w', hw', he⟩
      · have hkept := hanswers.kept (arguments_keeps hw) (arguments_keeps hw')
        obtain ⟨v', t', hcall', hv, ht⟩ := call_tracked hrel' hkept hr args'
        exact .inl ⟨v', t', bind_ok.mpr ⟨c', u', hu', bind_ok.mpr ⟨args', w', hw', hcall'⟩⟩, hv, ht⟩
      · exact .inr ⟨e, w', (bind_of_ok hu').trans (bind_of_error hw'), he⟩
    · exact .inr ⟨e, u', bind_of_error hu', he⟩

end Compared

/-! ## Bodies and items -/

def functionNames (ts : List Tree) : List String :=
  (ts.filter (·.kind = .functionDeclaration)).map Tree.name

/-- A function among some items has a call of the intrinsic's name. -/
def CallsIntrinsic (ts : List Tree) : Prop :=
  ∃ d ∈ ts, d.kind = .functionDeclaration ∧
    ∃ n ∈ d.subtrees, n.kind = .functionCall ∧ n.name = Intrinsic.name

theorem CallsIntrinsic.behind {ts : List Tree} (c : Tree) (h : CallsIntrinsic ts) :
    CallsIntrinsic (ts ++ [c]) := by
  obtain ⟨d, hd, hcalls⟩ := h
  exact ⟨d, List.mem_append_left _ hd, hcalls⟩

/-- The errors of a run that comes to a name before its declaration: the call of a
function that is declared later, and the declaration of a function with the name of the
intrinsic, if this has been called before. -/
inductive Premature (ts : List Tree) (log : List Event) : LowerError → Prop
  | undefined {pre post : List Tree} {c d n : Tree} (items : ts = pre ++ c :: post)
      (caller : c.kind = .functionDeclaration) (inside : n ∈ c.subtrees)
      (call : n.kind = .functionCall) (later : d ∈ post)
      (declared : d.kind = .functionDeclaration) (name : d.name = n.name) :
      Premature ts log (n.site.fault (.undefinedFunction n.name))
  | duplicate {pre post : List Tree} {c : Tree} (items : ts = pre ++ c :: post)
      (declared : c.kind = .functionDeclaration) (name : c.name = Intrinsic.name)
      (called : CallsIntrinsic pre) (noted : Event.intrinsicDeclared Intrinsic.name ∈ log) :
      Premature ts log (c.site.fault (.duplicateFunction c.name))

section Items

variable {later : List String} {called : Prop} {calls : Tree → Prop} {s s' v : LowerState}

theorem opened_foresees (h : s.Ahead later called s') {site : Site} {id id' : Nat}
    {sig : Signature} (hf : s.module.function? id = some (.declare id sig))
    (hf' : s'.module.function? id' = some (.declare id' sig)) :
    (opened site s id (.declare id sig)).Foresees later called
      (opened site s' id' (.declare id' sig)) where
  module := h.module.set hf rfl rfl hf' rfl rfl
  constants := by
    rw [opened, opened, parameterScope_constants, parameterScope_constants]
    exact h.constants
  noted hmem := by
    rw [opened, Module.signatures_set (g := .addBlock (.declare id' sig) "entry") hf' rfl] at hmem
    exact List.mem_append_left _ (h.noted hmem)
  function := ⟨id, id', _, _, rfl, (opened_in hf).found, rfl, (opened_in hf').found, rfl⟩
  locals x := by
    have hscope : (opened site s' id' (.declare id' sig)).scope =
        (opened site s id (.declare id sig)).scope := by
      rw [opened, opened, parameterScope, parameterScope, Scope.clearLocals, Scope.clearLocals,
        h.constants]
      rfl
    rw [hscope]
    cases hx : (opened site s id (.declare id sig)).scope.local? x with
    | none => exact .none
    | some storage =>
      obtain ⟨w, -, rfl⟩ := mem_of_parameterScope hx
      exact .some (.register rfl)
  block := rfl
  loops := rfl
  depth := rfl

theorem body_tracked (hcalled : ∀ n, calls n → n.name = Intrinsic.name → called)
    (h : s.Ahead later called s') {site : Site} {id id' : Nat} {sig : Signature} {c : Tree}
    {x : Unit} (hf : s.module.function? id = some (.declare id sig))
    (hf' : s'.module.function? id' = some (.declare id' sig))
    (hc : ∀ n ∈ c.subtrees, n.kind = .functionCall → calls n) (hr : body site id c s = .ok x v) :
    (∃ v', body site id' c s' = .ok () v' ∧ v.Ahead later called v') ∨
      ∃ e v', body site id' c s' = .error e v' ∧ Missing later calls e := by
  obtain ⟨u, hu, rfl⟩ := (body_ok hf).mp hr
  have htracks := (foreseen later called calls hcalled).bodyCode site 0 sig.ret c hc
  rcases @htracks () _ _ _ _ (opened_foresees h hf hf') hu with
    ⟨_, u', hu', -, hrel⟩ | ⟨e, u', hu', he⟩
  · exact .inl ⟨_, (body_ok hf').mpr ⟨u', hu', rfl⟩, { hrel.toAhead with }⟩
  · exact .inr ⟨e, u', (body_eq hf').trans (bind_of_error hu'), he⟩

theorem declareFunction_duplicate {site : Site} {ts : List Tree} {sig : Signature}
    (hsig : signature site ts = .ok sig) (hfound : ¬s.module.Lacks site.name) :
    declareFunction site ts s = .error (site.fault (.duplicateFunction site.name)) s := by
  unfold declareFunction
  rw [bind_of_ok (lift_ok.mpr ⟨hsig, rfl⟩), get_bind]
  cases hfind : s.module.find? site.name with
  | none => exact absurd (Module.find?_eq_none.mp hfind) hfound
  | some j => rfl

theorem function_tracked {pre post : List Tree} {c : Tree} {d : Nat} {x : Unit}
    (hkind : c.kind = .functionDeclaration) (hfresh : c.name ∉ functionNames post)
    (h : s.Ahead (c.name :: functionNames post) (CallsIntrinsic pre) s') (hpending : Pending s c d)
    (hr : function c.site (some d) c.children s = .ok x v) :
    (∃ v', function c.site none c.children s' = .ok () v' ∧
        v.Ahead (functionNames post) (CallsIntrinsic (pre ++ [c])) v') ∨
      ∃ e v', function c.site none c.children s' = .error e v' ∧
        Premature (pre ++ c :: post) v'.log e := by
  rw [function_some] at hr
  obtain ⟨result, params, b, hchildren, hbody⟩ := bodyOf_ok hr
  obtain ⟨sig, hsig, hf⟩ := hpending
  obtain ⟨_, _, _, -, -, -, -, hname, hvariadic⟩ := signature_ok hsig
  rw [function_none]
  by_cases hlacks : s'.module.Lacks c.name
  · have hdeclare := declareFunction_run.mpr ⟨sig, hsig, hlacks, rfl, rfl⟩
    have hahead : s.Ahead (functionNames post) (CallsIntrinsic (pre ++ [c]))
        (declared s' c.site sig) := by
      refine ⟨(h.module.mono (.behind c)).declareSource hname hfresh hvariadic
        (Module.mem_signatures hf) hlacks, h.constants, fun hmem => ?_⟩
      rw [declared, Module.signatures_declare, List.mem_append, List.mem_singleton] at hmem
      rcases hmem with hmem | rfl
      · exact List.mem_append_left _ (h.noted hmem)
      · cases hvariadic
    have hcalls : ∀ n ∈ b.subtrees, n.kind = .functionCall →
        n ∈ c.subtrees ∧ n.kind = .functionCall := fun n hn hcall =>
      ⟨Tree.subtrees_child (by simp [hchildren]) hn, hcall⟩
    have hcalled : ∀ n, n ∈ c.subtrees ∧ n.kind = .functionCall → n.name = Intrinsic.name →
        CallsIntrinsic (pre ++ [c]) := fun n hn hintrinsic =>
      ⟨c, by simp, hkind, n, hn.1, hn.2, hintrinsic⟩
    rcases body_tracked hcalled hahead hf (Module.function?_declared _ _) hcalls hbody with
      ⟨v', hv', hrel⟩ | ⟨e, v', hv', n, ⟨hn, hcall⟩, hlater, rfl⟩
    · exact .inl ⟨v', bind_ok.mpr ⟨_, _, hdeclare, hchildren ▸ hv'⟩, hrel⟩
    · obtain ⟨e, he, hename⟩ := List.mem_map.mp hlater
      obtain ⟨hpost, hekind⟩ := List.mem_filter.mp he
      exact .inr ⟨_, v', (bind_of_ok hdeclare).trans (hchildren ▸ hv'),
        .undefined rfl hkind hn hcall hpost (of_decide_eq_true hekind) hename⟩
  · -- Of the functions that the second run knows, only the intrinsic is not yet declared.
    have herror := bind_of_error (k := bodyOf c.site c.children)
      (declareFunction_duplicate hsig hlacks)
    simp only [Module.Lacks, not_forall, not_not] at hlacks
    obtain ⟨j, f', hf', hfname⟩ := hlacks
    rcases h.module.known _ (Module.mem_signatures hf') with ⟨hintrinsic, hcalled⟩ | ⟨-, hlater, -⟩
    · refine .inr ⟨_, s', herror, .duplicate rfl hkind ?_ hcalled (h.noted ?_)⟩
      · exact hfname.symm.trans (congrArg Signature.name hintrinsic)
      · exact hintrinsic ▸ Module.mem_signatures hf'
    · exact absurd (hfname ▸ List.mem_cons_self ..) hlater

theorem directive_tracked (site : Site) (ts : List Tree) :
    Tracks (fun _ => False) (fun _ : Unit => LowerState.Ahead later called) (fun _ _ => True)
      (directive site ts) (directive site ts) := by
  unfold directive
  by_cases hname : site.name = "#define"
  · rw [if_pos hname]
    match ts with
    | [name, value] =>
      refine (tracks_lift _).bind fun _ _ _ => ?_
      by_cases hkind : value.kind ≠ .literal
      · simp only [if_pos hkind]
        exact tracks_throw _ _ _
      · simp only [if_neg hkind]
        refine (tracks_lift _).bind fun n _ hn => ?_
        obtain rfl := hn
        intro _ s s' v x h hr
        cases hr
        refine .inl ⟨(), _, rfl, trivial, h.module, congrArg ((name.name, n) :: ·) h.constants, ?_⟩
        exact fun hmem => List.mem_append_left _ (List.mem_append_left _ (h.noted hmem))
    | [] | [_] | _ :: _ :: _ :: _ => exact tracks_throw _ _ _
  · rw [if_neg hname]
    exact tracks_throw _ _ _

/-- One run over the items is ahead of the other one, until this comes to a name too
early. -/
theorem items_tracked {pre ts : List Tree} {d : Nat} {x : Unit}
    (h : s.Ahead (functionNames ts) (CallsIntrinsic pre) s') (hnames : (functionNames ts).Nodup)
    (hwait : Waiting s (ts.zip (numbering d ts)))
    (hr : items (ts.zip (numbering d ts)) s = .ok x v) :
    (∃ v', items (ts.zip (ts.map fun _ => none)) s' = .ok () v') ∨
      ∃ e v', items (ts.zip (ts.map fun _ => none)) s' = .error e v' ∧
        Premature (pre ++ ts) v'.log e := by
  induction ts generalizing pre d s s' with
  | nil => exact .inl ⟨s', rfl⟩
  | cons c ts ih =>
    have happend : pre ++ c :: ts = pre ++ [c] ++ ts := List.append_cons ..
    rw [List.map_cons, List.zip_cons_cons, items]
    by_cases hkind : c.kind = .functionDeclaration
    · have hi : ∀ r, item c r = function c.site r c.children := by
        intro r
        simp only [item, hkind]
      rw [numbering, if_pos hkind, List.zip_cons_cons] at hr hwait
      rw [functionNames, List.filter_cons_of_pos (by simp [hkind]), List.map_cons] at h hnames
      obtain ⟨hfresh, hnames⟩ := List.nodup_cons.mp hnames
      rw [items, hi] at hr
      obtain ⟨_, u, hu, hr⟩ := bind_ok.mp hr
      have hpending := hwait.pending _ (List.mem_cons_self ..)
      rw [hi]
      rcases function_tracked hkind hfresh h (hpending d rfl) hu with
        ⟨u', hu', hahead⟩ | ⟨e, u', hu', he⟩
      · obtain ⟨id, _, hid, hpass, -, -⟩ := function_compiles hkind hpending hu
        rw [bind_of_ok hu', happend]
        exact ih hahead hnames (hwait.tail hid hpass).1 hr
      · exact .inr ⟨e, u', bind_of_error hu', he⟩
    · rw [numbering, if_neg hkind, List.zip_cons_cons] at hr hwait
      rw [functionNames, List.filter_cons_of_neg (by simp [hkind])] at h hnames
      rw [items] at hr
      obtain ⟨_, u, hu, hr⟩ := bind_ok.mp hr
      rcases item_form c none with ⟨-, hi⟩ | ⟨hfunction, -⟩ | hi
      · rw [hi] at hu ⊢
        rcases @directive_tracked _ _ c.site c.children () s s' u _ h hu with
          ⟨_, u', hu', -, hahead⟩ | ⟨_, _, -, hfalse⟩
        · rw [bind_of_ok hu', happend]
          exact ih { hahead with module := hahead.module.mono (.behind c) } hnames
            (hwait.skip (directive_module hu)) hr
        · exact hfalse.elim
      · exact absurd hfunction hkind
      · rw [hi] at hu
        cases hu

end Items

theorem states_all {ts : List Tree} {sigs : List Signature} (h : List.Forall₂ States ts sigs) :
    sigs.map Signature.name = ts.map Tree.name ∧
      ∀ sig ∈ sigs, sig.ret = .i32 ∨ sig.ret = .void := by
  induction h with
  | nil => exact ⟨rfl, fun _ hsig => absurd hsig List.not_mem_nil⟩
  | @cons c sig ts sigs hstates _ ih =>
    obtain ⟨_, _, _, -, -, hret, -, hname, -⟩ := signature_ok hstates
    refine ⟨?_, List.forall_mem_cons.mpr ⟨?_, ih.2⟩⟩
    · rw [List.map_cons, List.map_cons, ih.1]
      exact congrArg (· :: _) hname
    · exact (Ty.ofName?_some (Ty.ofSite_ok hret).2).imp And.right And.right

theorem ahead_start {site : Site} {ts : List Tree} {ids : List (Option Nat)} {s : LowerState}
    (hr : declareAll 0 ts (started site ts) = .ok ids s) :
    s.Ahead (functionNames ts) (CallsIntrinsic []) (started site ts) := by
  have hchanges := (declareAll_changes hr).1
  obtain ⟨-, sigs, hsigs, hexact⟩ := declareAll_exact exact_empty hr
  obtain ⟨hnames, hrets⟩ := states_all hsigs
  have hmem : ∀ sig ∈ s.module.signatures, sig = Intrinsic.signature ∨ sig ∈ sigs := by
    intro sig hsig
    by_cases hne : sig = Intrinsic.signature
    · exact .inl hne
    · have hsource : sig ∈ s.module.signatures.filter (· ≠ Intrinsic.signature) :=
        List.mem_filter.mpr ⟨hsig, decide_eq_true hne⟩
      rw [hexact.formatted.source] at hsource
      exact .inr hsource
  refine ⟨⟨hchanges.numbered nofun, hchanges.distinct nofun, nofun, nofun, fun sig hsig => ?_,
    nofun, fun sig hsig _ => ?_⟩, ?_, nofun⟩
  · rcases hmem sig hsig with rfl | hsig
    · exact .inl rfl
    · exact hrets sig hsig
  · refine (hmem sig hsig).imp (congrArg Signature.name) fun hsig => ?_
    rw [functionNames, ← hnames]
    exact List.mem_map_of_mem hsig
  · rw [(declareAll_waiting hr).2.1]

end Lower

/-! ## Programs -/

theorem Tree.lower_functionNames {singlePass : Bool} {t : Tree} {m : Module}
    (h : (t.lower singlePass).result = .ok m) : (Lower.functionNames t.children).Nodup := by
  obtain ⟨sigs, hsigs, hexact⟩ := Tree.lower_exact h
  have hnames : Lower.functionNames t.children = m.sourceFunctions.map (·.name) := by
    rw [Lower.functionNames, ← (Lower.states_all hsigs).1, ← hexact.formatted.sourceFunctions_map,
      List.map_map]
    rfl
  rw [hnames]
  exact (Tree.lower_distinct h).names.sublist (List.filter_sublist.map _)

/-- If a program can be lowered when all functions are registered at first, registering
them as they come fails only for a name that comes too early. -/
theorem Tree.lower_premature {t : Tree} {m : Module} (h : (t.lower false).result = .ok m) :
    (∃ m', (t.lower true).result = .ok m') ∨
      ∃ e, (t.lower true).result = .error e ∧
        Lower.Premature t.children (t.lower true).log e := by
  have hnames := Tree.lower_functionNames h
  obtain ⟨u, hu⟩ := Tree.lower_ok h
  cases t with
  | node site ts =>
    obtain ⟨ids, s, v, hdeclare, hitems, rfl⟩ := Lower.program_default hu
    obtain ⟨-, rfl, -⟩ := Lower.declareAll_blank hdeclare fun _ _ hf => by cases hf
    have hwait := (Lower.declareAll_waiting hdeclare).2.2.1
    have hprogram := Lower.program_singlePass (Lower.program_kind hu) ts
    rcases Lower.items_tracked (Lower.ahead_start hdeclare) hnames hwait hitems with
      ⟨v', hv'⟩ | ⟨e, v', hv', he⟩
    · rw [Lower.bind_of_ok hv'] at hprogram
      exact .inl ⟨_, Tree.lower_of_run hprogram⟩
    · rw [Lower.bind_of_error hv'] at hprogram
      refine .inr ⟨e, ?_, ?_⟩
      · rw [Tree.lower, hprogram]
      · rw [Tree.lower, hprogram]
        exact he

def Tree.calledEarly (name : String) : Tree :=
  let param := bare .variableDeclaration "n" [bare .identifier "int" []]
  let declare (name : String) (ts : List Tree) := bare .functionDeclaration name
    [bare .identifier "void" [], bare .parameters "" [param], bare .block "" ts]
  bare .program ""
    [declare "f" [bare .functionCall name [bare .identifier "n" []]], declare name []]

/-- The name of the intrinsic is refused at the declaration, another one at the call. -/
theorem Tree.calledEarly_premature :
    (∃ m e, ((calledEarly "printf").lower false).result = .ok m ∧
      ((calledEarly "printf").lower true).result = .error e ∧
      e = (bare .functionDeclaration "printf" []).site.fault (.duplicateFunction "printf") ∧
      Lower.Premature (calledEarly "printf").children ((calledEarly "printf").lower true).log e) ∧
    ∃ m e, ((calledEarly "g").lower false).result = .ok m ∧
      ((calledEarly "g").lower true).result = .error e ∧
      e = (bare .functionCall "g" []).site.fault (.undefinedFunction "g") ∧
      Lower.Premature (calledEarly "g").children ((calledEarly "g").lower true).log e := by
  have hrejected : ∀ name e, ((calledEarly name).lower false).result.isOk = true →
      ((calledEarly name).lower true).result = .error e →
      ∃ m e', ((calledEarly name).lower false).result = .ok m ∧
        ((calledEarly name).lower true).result = .error e' ∧ e' = e ∧
        Lower.Premature (calledEarly name).children ((calledEarly name).lower true).log e' := by
    intro name e hok he
    obtain ⟨m, hm⟩ := Lower.except_of_isOk hok
    rcases lower_premature hm with ⟨m', hm'⟩ | ⟨e', he', hpremature⟩
    · cases hm'.symm.trans he
    · exact ⟨m, e', hm, he', Except.error.inj (he'.symm.trans he), hpremature⟩
  exact ⟨hrejected _ _ (by decide +kernel) (by decide +kernel),
    hrejected _ _ (by decide +kernel) (by decide +kernel)⟩

end TreeFlow
