import TreeFlow.Proofs.Isolation
import TreeFlow.Proofs.Filling
import TreeFlow.Proofs.Visits

/-!
# The registry of functions and the formats

A lowered module has the functions of its source in the order of their
declarations, and besides them at most the intrinsic. A call of the intrinsic
takes a format of its own before its arguments are lowered and is emitted behind
them, so inside the arguments the format is pending. Whatever happens there, the
globals that are used and those that are pending are together all globals, each
of them once.
-/

set_option autoImplicit false

namespace TreeFlow

/-! ## Uses of globals -/

def Value.global? : Value → Option Nat
  | .global k _ => some k
  | _ => none

def Instr.globals (i : Instr) : List Nat := i.operands.filterMap Value.global?

def Block.operands (k : Block) : List Value :=
  k.instrs.flatMap Instr.operands ++ k.terminator.toList.flatMap Terminator.operands

def Function.uses (f : Function) : List Nat :=
  (f.bodies.flatMap Block.instrs).flatMap Instr.globals

/-- A call of a variadic function has a format in front. Globals are used nowhere
else. -/
def Instr.Formatted (m : Module) : Instr → Prop
  | .call _ j args => ∃ f, m.function? j = some f ∧
      if f.variadic then
        ∃ k rest, args = Module.address k :: rest ∧ ∀ v ∈ rest, v.global? = none
      else ∀ v ∈ args, v.global? = none
  | i => ∀ v ∈ i.operands, v.global? = none

theorem Instr.Formatted.mono {m m' : Module} {i : Instr} (h : i.Formatted m) (hk : m.Keeps m') :
    i.Formatted m' := by
  cases i with
  | call d j args =>
    obtain ⟨f, hf, hargs⟩ := h
    obtain ⟨g, hg, hsig⟩ := hk j f hf
    refine ⟨g, hg, ?_⟩
    rw [show g.variadic = f.variadic from congrArg Signature.variadic hsig]
    exact hargs
  | _ => exact h

theorem Instr.formatted_of_isCall {m : Module} {i : Instr} (hcall : i.isCall = false)
    (h : ∀ v ∈ i.operands, v.global? = none) : i.Formatted m := by
  cases i with
  | call => cases hcall
  | _ => exact h

theorem Instr.globals_eq_nil {i : Instr} (h : ∀ v ∈ i.operands, v.global? = none) :
    i.globals = [] :=
  List.filterMap_eq_nil_iff.mpr h

structure Function.Formatted (m : Module) (f : Function) : Prop where
  instrs : ∀ i ∈ f.bodies.flatMap Block.instrs, i.Formatted m
  terminators : ∀ k ∈ f.bodies, ∀ x, k.terminator = some x → ∀ v ∈ x.operands, v.global? = none

namespace Function

variable {m : Module} {f g : Function} {b : Nat} {k : Block}

theorem mem_modify {ks : List Block} {change : Block → Block} {l : Block}
    (h : l ∈ ks.modify b change) : l ∈ ks ∨ ∃ k ∈ ks, l = change k := by
  obtain ⟨j, hj⟩ := List.getElem?_of_mem h
  rw [List.getElem?_modify] at hj
  split at hj
  · obtain ⟨k, hk, rfl⟩ := Option.map_eq_some_iff.mp hj
    exact .inr ⟨k, List.mem_of_getElem? hk, rfl⟩
  · rw [id_map'] at hj
    exact .inl (List.mem_of_getElem? hj)

namespace Formatted

theorem mono {m' : Module} (h : f.Formatted m) (hk : m.Keeps m') : f.Formatted m' :=
  ⟨fun i hi => (h.instrs i hi).mono hk, h.terminators⟩

theorem of_bodies (h : f.Formatted m) (hbodies : g.bodies = f.bodies) : g.Formatted m :=
  ⟨hbodies ▸ h.instrs, hbodies ▸ h.terminators⟩

theorem append (h : f.Formatted m) (hk : f.bodies[b]? = some k) {i : Instr}
    (hi : i.Formatted m) : (f.append b i).Formatted m where
  instrs j hj := by
    rcases List.mem_cons.mp ((flatMap_append_instr hk i).mem_iff.mp hj) with rfl | hj
    · exact hi
    · exact h.instrs j hj
  terminators l hl := by
    rcases mem_modify hl with hl | ⟨l', hl', rfl⟩
    · exact h.terminators l hl
    · exact h.terminators l' hl'

theorem close (h : f.Formatted m) {x : Terminator} (hx : ∀ v ∈ x.operands, v.global? = none) :
    (f.close b x).Formatted m where
  instrs i hi := h.instrs i (by rwa [Function.close, flatMap_close] at hi)
  terminators l hl y hy := by
    rcases mem_modify hl with hl | ⟨l', -, rfl⟩
    · exact h.terminators l hl y hy
    · cases hy
      exact hx

theorem addBlock (h : f.Formatted m) (label : String) : (f.addBlock label).Formatted m where
  instrs i hi := h.instrs i (by simpa [Function.addBlock] using hi)
  terminators l hl y hy := by
    rcases List.mem_append.mp hl with hl | hl
    · exact h.terminators l hl y hy
    · obtain rfl := List.mem_singleton.mp hl
      cases hy

end Formatted

theorem uses_append (hk : f.bodies[b]? = some k) (i : Instr) :
    (f.append b i).uses.Perm (i.globals ++ f.uses) :=
  (flatMap_append_instr hk i).flatMap_right Instr.globals

theorem uses_close (x : Terminator) : (f.close b x).uses = f.uses :=
  congrArg (List.flatMap Instr.globals) flatMap_close

theorem uses_addBlock (label : String) : (f.addBlock label).uses = f.uses := by
  simp [uses, addBlock]

end Function

theorem flatMap_set {α β : Type} (yield : α → List β) {l : List α} {j : Nat} {a : α}
    (h : l[j]? = some a) : ∃ rest, (l.flatMap yield).Perm (yield a ++ rest) ∧
      ∀ b, ((l.set j b).flatMap yield).Perm (yield b ++ rest) := by
  induction l generalizing j with
  | nil => cases h
  | cons c l ih =>
    cases j with
    | zero =>
      cases h
      exact ⟨l.flatMap yield, .refl _, fun b => .refl _⟩
    | succ j =>
      obtain ⟨rest, hl, hset⟩ := ih h
      have hmove : ∀ {part whole : List β}, whole.Perm (part ++ rest) →
          (yield c ++ whole).Perm (part ++ (yield c ++ rest)) := fun {part whole} hw =>
        (hw.append_left (yield c)).trans (List.perm_append_comm_assoc _ _ _)
      exact ⟨yield c ++ rest, hmove hl, fun b => hmove (hset b)⟩

/-! ## Modules -/

namespace Module

def signatures (m : Module) : List Signature := m.functions.map Function.toSignature

theorem signatures_set {m : Module} {id : Nat} {f g : Function} (hf : m.function? id = some f)
    (hsig : g.toSignature = f.toSignature) : (m.setFunction id g).signatures = m.signatures := by
  obtain ⟨hlt, rfl⟩ := List.getElem?_eq_some_iff.mp hf
  rw [signatures, setFunction, List.map_set, hsig]
  have hlt' : id < (m.functions.map Function.toSignature).length := by rwa [List.length_map]
  have hhere : (m.functions[id]).toSignature = (m.functions.map Function.toSignature)[id] :=
    (List.getElem_map _).symm
  rw [hhere, List.set_getElem_self]
  rfl

/-- The functions of the source have the signatures `sources`, in this order, all
code is formatted, and the globals are those that are used and those that are
pending. -/
structure Formatted (sources : List Signature) (pending : List Nat) (m : Module) : Prop where
  numbered : m.Numbered
  distinct : m.Distinct
  source : m.signatures.filter (· ≠ Intrinsic.signature) = sources
  plain : ∀ sig ∈ sources, sig.variadic = false
  bytes : ∀ k g, m.globals[k]? = some g → g = byteArray k Intrinsic.format
  code : ∀ f ∈ m.functions, f.Formatted m
  uses : (m.functions.flatMap Function.uses ++ pending).Perm (List.range m.globals.length)

namespace Formatted

variable {sources : List Signature} {pending pending' : List Nat} {m : Module}

theorem variadic_iff (h : m.Formatted sources pending) {j : Nat} {f : Function}
    (hf : m.function? j = some f) : f.variadic = true ↔ f.toSignature = Intrinsic.signature := by
  constructor
  · intro hv
    by_contra hne
    have hmem : f.toSignature ∈ m.signatures.filter (· ≠ Intrinsic.signature) := by
      refine List.mem_filter.mpr ⟨List.mem_map_of_mem (List.mem_of_getElem? hf), ?_⟩
      exact decide_eq_true hne
    rw [h.source] at hmem
    exact Bool.false_ne_true ((h.plain _ hmem).symm.trans hv)
  · intro hsig
    exact congrArg Signature.variadic hsig

theorem set (h : m.Formatted sources pending) {id : Nat} {f g : Function}
    (hf : m.function? id = some f) (hsig : g.toSignature = f.toSignature) (hid : g.id = f.id)
    (hg : g.Formatted m) (huses : (g.uses ++ pending').Perm (f.uses ++ pending)) :
    (m.setFunction id g).Formatted sources pending' where
  numbered := h.numbered.setFunction hf hid
  distinct := h.distinct.setFunction hf (congrArg Signature.name hsig)
  source := by
    rw [signatures_set hf hsig]
    exact h.source
  plain := h.plain
  bytes := h.bytes
  code e he := by
    rcases List.mem_or_eq_of_mem_set he with he | rfl
    · exact (h.code e he).mono (.set hf hsig)
    · exact hg.mono (.set hf hsig)
  uses := by
    obtain ⟨rest, hold, hnew⟩ := flatMap_set Function.uses hf
    have hmove : ∀ {part whole after : List Nat}, whole.Perm (part ++ rest) →
        (whole ++ after).Perm (rest ++ (part ++ after)) := fun {part whole after} hw =>
      (hw.append_right after).trans (by
        rw [← List.append_assoc]
        exact List.perm_append_comm.append_right after)
    refine (hmove (hnew g)).trans ((huses.append_left rest).trans ?_)
    exact (hmove hold).symm.trans h.uses

theorem keep (h : m.Formatted sources pending) {id : Nat} {f g : Function}
    (hf : m.function? id = some f) (hsig : g.toSignature = f.toSignature) (hid : g.id = f.id)
    (hg : g.Formatted m) (huses : g.uses = f.uses) :
    (m.setFunction id g).Formatted sources pending :=
  h.set hf hsig hid hg (by rw [huses])

theorem declare (h : m.Formatted sources pending) {sig : Signature} (hlacks : m.Lacks sig.name)
    (hv : sig ≠ Intrinsic.signature → sig.variadic = false) :
    (m.declare sig).Formatted (sources ++ [sig].filter (· ≠ Intrinsic.signature)) pending where
  numbered := h.numbered.declare sig
  distinct := h.distinct.declare (find?_eq_none.mpr hlacks)
  source := by
    rw [signatures, Module.declare, List.map_append, List.filter_append]
    exact congrArg (· ++ _) h.source
  plain sig' hsig' := by
    rcases List.mem_append.mp hsig' with hsig' | hsig'
    · exact h.plain sig' hsig'
    · obtain ⟨hmem, hne⟩ := List.mem_filter.mp hsig'
      obtain rfl := List.mem_singleton.mp hmem
      exact hv (of_decide_eq_true hne)
  bytes := h.bytes
  code e he := by
    rcases List.mem_append.mp he with he | he
    · exact (h.code e he).mono (.declare m sig)
    · obtain rfl := List.mem_singleton.mp he
      exact ⟨fun i hi => absurd hi List.not_mem_nil, fun k hk => absurd hk List.not_mem_nil⟩
  uses := by
    rw [Module.declare, List.flatMap_append]
    have hnone : [Function.declare m.functions.length sig].flatMap Function.uses = [] := rfl
    rw [hnone, List.append_nil]
    exact h.uses

theorem addBytes (h : m.Formatted sources pending) :
    (m.addBytes Intrinsic.format).Formatted sources (m.globals.length :: pending) where
  numbered := h.numbered
  distinct := h.distinct
  source := h.source
  plain := h.plain
  bytes k g hg := by
    rw [Module.addBytes, List.getElem?_append] at hg
    split at hg
    · exact h.bytes k g hg
    · rw [List.getElem?_singleton] at hg
      split at hg
      · cases hg
        rw [show k = m.globals.length by omega]
      · cases hg
  code f hf := (h.code f hf).mono fun _ e he => ⟨e, he, rfl⟩
  uses := by
    rw [Module.addBytes, List.length_append, List.length_singleton, List.range_succ]
    refine List.perm_middle.trans ?_
    exact (h.uses.cons _).trans (List.perm_append_singleton _ _).symm

end Formatted

end Module

/-! ## Lowering keeps the formats exact -/

def Value.Plain (v w : Value) : Prop := v = w ∧ v.global? = none

theorem Storage.Related.plain {s s' : Storage} (h : s.Related Value.Plain s') :
    s = s' ∧ s.Related Value.Plain s := by
  cases h with
  | register h =>
    obtain ⟨rfl, hv⟩ := h
    exact ⟨rfl, .register ⟨rfl, hv⟩⟩
  | slot h =>
    obtain ⟨rfl, hp⟩ := h
    exact ⟨rfl, .slot ⟨rfl, hp⟩⟩

theorem Instr.Related.plain {i i' : Instr} (h : i.Related Value.Plain i') :
    i = i' ∧ i.isCall = false ∧ ∀ v ∈ i.operands, v.global? = none := by
  cases h with
  | load h =>
    obtain ⟨rfl, hp⟩ := h
    exact ⟨rfl, rfl, by simpa [operands] using hp⟩
  | binary hl hr =>
    obtain ⟨rfl, hl⟩ := hl
    obtain ⟨rfl, hr⟩ := hr
    exact ⟨rfl, rfl, by simp [operands, hl, hr]⟩
  | icmp hl hr =>
    obtain ⟨rfl, hl⟩ := hl
    obtain ⟨rfl, hr⟩ := hr
    exact ⟨rfl, rfl, by simp [operands, hl, hr]⟩

theorem Terminator.Related.plain {x y : Terminator} (h : x.Related Value.Plain y) :
    x = y ∧ ∀ v ∈ x.operands, v.global? = none := by
  cases h with
  | br => exact ⟨rfl, nofun⟩
  | condBr h =>
    obtain ⟨rfl, hc⟩ := h
    exact ⟨rfl, by simpa [operands] using hc⟩
  | ret h =>
    cases h with
    | none => exact ⟨rfl, nofun⟩
    | some h =>
      obtain ⟨rfl, hv⟩ := h
      exact ⟨rfl, by simpa [operands] using hv⟩

namespace Lower

/-- The formats are exact but for those that are pending, the intrinsic is there
if and only if there are formats, and no name in scope stands for a global. -/
structure Formatting (sources : List Signature) (pending : List Nat) (s : LowerState) : Prop where
  module : s.module.Formatted sources pending
  called : Intrinsic.signature ∈ s.module.signatures ↔ s.module.globals ≠ []
  scope : ∀ x storage, s.scope.local? x = some storage → storage.Related Value.Plain storage

namespace Formatting

variable {sources : List Signature} {pending pending' : List Nat} {s t : LowerState}

theorem congr (h : Formatting sources pending s) (hm : t.module = s.module)
    (hs : t.scope = s.scope) : Formatting sources pending t :=
  ⟨hm ▸ h.module, hm ▸ h.called, hs ▸ h.scope⟩

theorem put (h : Formatting sources pending s) {id : Nat} {f g : Function} (hin : s.In id f)
    (hsig : g.toSignature = f.toSignature) (hid : g.id = f.id) (hg : g.Formatted s.module)
    (huses : (g.uses ++ pending').Perm (f.uses ++ pending)) :
    Formatting sources pending' (s.put id g) where
  module := h.module.set hin.found hsig hid hg huses
  called := by
    rw [LowerState.put, Module.signatures_set hin.found hsig]
    exact h.called
  scope := h.scope

theorem same (h : Formatting sources pending s) {id : Nat} {f g : Function} (hin : s.In id f)
    (hsig : g.toSignature = f.toSignature) (hid : g.id = f.id) (hbodies : g.bodies = f.bodies) :
    Formatting sources pending (s.put id g) :=
  h.put hin hsig hid ((h.module.code f (List.mem_of_getElem? hin.found)).of_bodies hbodies)
    (by rw [Function.uses, Function.uses, hbodies])

theorem append (h : Formatting sources pending s) {id b : Nat} {f g : Function} {k : Block}
    {i : Instr} (hin : s.In id f) (hsig : g.toSignature = f.toSignature) (hid : g.id = f.id)
    (hbodies : g.bodies = f.bodies) (hk : f.bodies[b]? = some k) (hi : i.Formatted s.module)
    (hpending : (i.globals ++ pending').Perm pending) :
    Formatting sources pending' (s.put id (g.append b i)) := by
  have hg := (h.module.code f (List.mem_of_getElem? hin.found)).of_bodies hbodies
  rw [← hbodies] at hk
  refine h.put hin hsig hid (hg.append hk hi) ?_
  have huses : g.uses = f.uses := by rw [Function.uses, Function.uses, hbodies]
  refine ((Function.uses_append hk i).append_right pending').trans ?_
  rw [huses]
  refine (List.perm_append_comm.append_right pending').trans ?_
  rw [List.append_assoc]
  exact hpending.append_left f.uses

theorem findCallee (h : Formatting sources pending s) {site : Site} {j : Nat}
    (hr : findCallee site s = .ok j t) : t.module.Formatted sources pending ∧
      t.scope = s.scope ∧ (∃ f, t.module.function? j = some f ∧ f.name = site.name ∧
        (f.variadic = false → t = s)) := by
  rcases (findCallee_ok h.module.numbered h.module.distinct).mp hr with
    ⟨rfl, f, hf, hname⟩ | ⟨hlacks, hname, rfl, rfl⟩
  · exact ⟨h.module, rfl, f, hf, hname, fun _ => rfl⟩
  · rw [hname] at hlacks
    have hdeclare : (s.module.declare Intrinsic.signature).Formatted _ pending :=
      h.module.declare hlacks fun hne => absurd rfl hne
    rw [show [Intrinsic.signature].filter (· ≠ Intrinsic.signature) = [] by simp,
      List.append_nil] at hdeclare
    exact ⟨hdeclare, rfl, _, Module.function?_declared _ _, hname.symm, nofun⟩

/-- The callee is a function of the source, or it is the intrinsic and a format for
it is pending. -/
theorem callee (h : Formatting sources pending s) {site : Site} {given : Nat} {c : Callee}
    (hr : callee site given s = .ok c t) :
    (∃ f, t.module.function? c.id = some f ∧ f.variadic = false) ∧ c.leading = [] ∧
        Formatting sources pending t ∨
      (∃ f, t.module.function? c.id = some f ∧ f.variadic = true) ∧
        ∃ k, c.leading = [Module.address k] ∧ Formatting sources (k :: pending) t := by
  obtain ⟨u, f, hu, hf, hleads, -⟩ := callee_ok.mp hr
  obtain ⟨hmodule, hscope, f', hf', hname, hsame⟩ := h.findCallee hu
  obtain rfl : f = f' := Option.some.inj (hf.symm.trans hf')
  cases hv : f.variadic with
  | false =>
    obtain rfl := hsame hv
    rw [hv, Bool.false_and] at hleads
    obtain ⟨hlead, rfl⟩ := hleads
    exact .inl ⟨⟨f, hf, hv⟩, hlead, h⟩
  | true =>
    have hsig := (hmodule.variadic_iff hf).mp hv
    have hintrinsic : site.name = Intrinsic.name := by
      rw [← hname]
      exact congrArg Signature.name hsig
    rw [hv, hintrinsic, Bool.true_and, beq_self_eq_true] at hleads
    obtain ⟨hlead, rfl⟩ := hleads
    refine .inr ⟨⟨f, hf, hv⟩, _, hlead, hmodule.addBytes, ?_, fun x storage hx => ?_⟩
    · refine iff_of_true ?_ (by simp [withFormat, Module.addBytes])
      rw [← hsig]
      exact List.mem_map_of_mem (List.mem_of_getElem? hf)
    · exact h.scope x storage (hscope ▸ hx)

theorem call (h : Formatting sources pending s) {j : Nat} {args : List Value} {v : Option Value}
    (hformatted : ∀ d, (Instr.call d j args).Formatted s.module)
    (hpending : (args.filterMap Value.global? ++ pending').Perm pending)
    (hr : call j args s = .ok v t) :
    Formatting sources pending' t ∧ ResultsRelated Value.Plain v v := by
  obtain ⟨e, _, f, b, g, he, hin, hb, hcall, rfl⟩ := call_ok.mp hr
  obtain ⟨k, hk, -, hcall⟩ := Build.call_ok.mp hcall
  split at hcall
  · obtain ⟨rfl, rfl⟩ := hcall
    exact ⟨h.append hin rfl rfl rfl hk (hformatted _) hpending, nofun⟩
  · obtain ⟨rfl, rfl⟩ := hcall
    refine ⟨h.append hin (g := f.takeRegister) rfl rfl rfl hk (hformatted _) hpending, ?_⟩
    rintro a ha
    cases ha
    exact ⟨_, rfl, rfl, rfl⟩

end Formatting

theorem arguments_keeps {s t : LowerState} {c : Callee} {args vs : List Value} {ts : List Tree}
    (h : arguments c args ts s = .ok vs t) : s.module.Keeps t.module :=
  (mirrors_arguments (M := s.module) (n := 0) (fun t _ => mirrored_expression t) c args).keeps h

theorem tracks_diagonal {ι α : Type} {I : ι → LowerState → Prop} {P : α → α → Prop} {x : Lower α}
    (h : ∀ ⦃i : ι⦄ ⦃s t : LowerState⦄ ⦃a : α⦄, I i s → x s = .ok a t → I i t ∧ P a a) :
    Tracks (fun _ => False) (Diagonal I) P x x := by
  rintro i s _ t a ⟨rfl, hI⟩ hr
  obtain ⟨hI', hP⟩ := h hI hr
  exact .inl ⟨a, t, hr, hP, rfl, hI'⟩

theorem Formatting.arguments {sources : List Signature} {pending : List Nat} {s t : LowerState}
    (h : Formatting sources pending s) {c : Callee} {ts : List Tree} {args : List Value}
    (hts : ∀ t ∈ ts, Tracks (fun _ => False) (Diagonal (Formatting sources)) Value.Plain
      (expression t) (expression t))
    (hr : arguments c c.leading ts s = .ok args t) :
    Formatting sources pending t ∧ ∃ vs, args = c.leading ++ vs ∧ ∀ v ∈ vs, v.global? = none := by
  have hcheck : ∀ i v w site, Value.Plain v w →
      checkArgument c site (c.leading.length + i) v = .ok () →
        checkArgument c site (c.leading.length + i) w = .ok () := fun _ _ _ _ hv hc => hv.1 ▸ hc
  have htracks := tracks_arguments hts c.leading c.leading hcheck
  rcases htracks ⟨rfl, h⟩ hr with ⟨_, _, -, ⟨vs, ws, rfl, -, hvs⟩, -, ht⟩ | ⟨_, _, -, hfalse⟩
  · refine ⟨ht, vs, rfl, ?_⟩
    clear hr
    induction hvs with
    | nil => exact fun _ hv => absurd hv List.not_mem_nil
    | cons hv _ ih => exact List.forall_mem_cons.mpr ⟨hv.2, ih⟩
  · exact hfalse.elim

def formatting (sources : List Signature) : Comparison where
  holds := Tracks (fun _ => False) (Diagonal (Formatting sources))
  value := Value.Plain
  called _ := True
  value_ty h := by rw [h.1]
  value_const _ _ := ⟨rfl, rfl⟩
  pure := tracks_pure
  throw := tracks_throw
  bind := Tracks.bind
  note e := tracks_diagonal fun _ _ _ _ h hr => by
    cases hr
    exact ⟨h.congr rfl rfl, trivial⟩
  nestedValue site := Tracks.nested (fun h => congrArg LowerState.depth h.1)
    (fun ⟨he, h⟩ => ⟨congrArg deeper he, h.congr rfl rfl⟩)
    (fun ⟨he, h⟩ => ⟨congrArg shallower he, h.congr rfl rfl⟩) site
  nested site := Tracks.nested (fun h => congrArg LowerState.depth h.1)
    (fun ⟨he, h⟩ => ⟨congrArg deeper he, h.congr rfl rfl⟩)
    (fun ⟨he, h⟩ => ⟨congrArg shallower he, h.congr rfl rfl⟩) site
  inLoop l := Tracks.inLoop l
    (fun ⟨he, h⟩ => ⟨by rw [he], h.congr rfl rfl⟩) (fun ⟨he, h⟩ => ⟨by rw [he], h.congr rfl rfl⟩)
  innermostLoop := tracks_diagonal fun _ _ _ _ h hr => by
    cases hr
    exact ⟨h, rfl⟩
  lookup name := tracks_diagonal fun _ s _ _ h hr => by
    cases hr
    refine ⟨h, Scope.lookup_related ?_ rfl⟩
    cases hx : s.scope.local? name with
    | none => exact .none
    | some storage => exact .some (h.scope name storage hx)
  bindName name {_ _} hs := by
    obtain ⟨rfl, hs⟩ := hs.plain
    refine tracks_diagonal fun _ _ _ _ h hr => ?_
    cases hr
    refine ⟨⟨h.module, h.called, fun x st hx => ?_⟩, trivial⟩
    rw [Scope.local?_bind] at hx
    split at hx
    · cases hx
      exact hs
    · exact h.scope x st hx
  newBlock label := tracks_diagonal fun _ _ _ _ h hr => by
    obtain ⟨id, f, hin, -, rfl⟩ := newBlock_ok.mp hr
    have hf := h.module.code f (List.mem_of_getElem? hin.found)
    have hput := h.put (g := f.addBlock label) hin rfl rfl (hf.addBlock label)
      (by rw [Function.uses_addBlock])
    exact ⟨hput.congr rfl rfl, rfl⟩
  setBlock b := tracks_diagonal fun _ _ _ _ h hr => by
    cases hr
    exact ⟨h.congr rfl rfl, trivial⟩
  alloca ty := tracks_diagonal fun _ _ _ _ h hr => by
    obtain ⟨id, f, hin, -, rfl, rfl⟩ := alloca_ok.mp hr
    exact ⟨h.same hin rfl rfl rfl, rfl, rfl⟩
  seed hv hp := by
    obtain ⟨rfl, -⟩ := hv
    obtain ⟨rfl, -⟩ := hp
    refine tracks_diagonal fun _ _ _ _ h hr => ?_
    obtain ⟨id, f, hin, -, rfl⟩ := seed_ok.mp hr
    exact ⟨h.same hin rfl rfl rfl, trivial⟩
  define ty {make make'} hmake := by
    obtain rfl : make = make' := funext fun d => (hmake d).plain.1
    refine tracks_diagonal fun _ _ _ _ h hr => ?_
    obtain ⟨id, f, b, k, hat, -, rfl, rfl⟩ := define_ok.mp hr
    obtain ⟨-, hcall, hplain⟩ := (hmake f.registers).plain
    refine ⟨h.append hat.toIn rfl rfl rfl hat.block (Instr.formatted_of_isCall hcall hplain) ?_,
      rfl, rfl⟩
    rw [Instr.globals_eq_nil hplain]
    exact .refl _
  store {v _ p _} hv hp := by
    obtain ⟨rfl, hv⟩ := hv
    obtain ⟨rfl, hp⟩ := hp
    refine tracks_diagonal fun _ _ _ _ h hr => ?_
    obtain ⟨id, f, b, k, hat, -, rfl⟩ := perform_ok.mp hr
    have hplain : ∀ u ∈ (Instr.store v p).operands, u.global? = none := by
      simp [Instr.operands, hv, hp]
    refine ⟨h.append hat.toIn rfl rfl rfl hat.block hplain ?_, trivial⟩
    rw [Instr.globals_eq_nil hplain]
    exact .refl _
  terminate {x _} hx := by
    obtain ⟨rfl, hplain⟩ := hx.plain
    refine tracks_diagonal fun _ _ _ _ h hr => ?_
    obtain ⟨id, f, b, k, hat, -, -, rfl⟩ := terminate_ok.mp hr
    have hf := h.module.code f (List.mem_of_getElem? hat.found)
    exact ⟨h.put hat.toIn rfl rfl (hf.close hplain) (by rw [Function.uses_close]), trivial⟩
  terminated := tracks_diagonal fun _ _ _ _ h hr => by
    obtain ⟨_, _, _, _, -, -, rfl⟩ := terminated_ok.mp hr
    exact ⟨h, rfl⟩
  functionCall site ts _ hts := by
    refine tracks_diagonal fun pending s t v h hr => ?_
    obtain ⟨c, u, hu, hr⟩ := bind_ok.mp hr
    obtain ⟨args, w, hw, hr⟩ := bind_ok.mp hr
    have hkeeps := arguments_keeps hw
    rcases h.callee hu with ⟨⟨f, hf, hv⟩, hlead, hI⟩ | ⟨⟨f, hf, hv⟩, k, hlead, hI⟩
    · obtain ⟨hI', vs, rfl, hvs⟩ := hI.arguments hts hw
      obtain ⟨g, hg, hsig⟩ := hkeeps _ f hf
      rw [hlead, List.nil_append] at hr
      refine hI'.call (fun d => ⟨g, hg, ?_⟩) ?_ hr
      · rw [show g.variadic = false from (congrArg Signature.variadic hsig).trans hv]
        exact hvs
      · rw [List.filterMap_eq_nil_iff.mpr hvs]
        exact .refl _
    · obtain ⟨hI', vs, rfl, hvs⟩ := hI.arguments hts hw
      obtain ⟨g, hg, hsig⟩ := hkeeps _ f hf
      rw [hlead, List.singleton_append] at hr
      refine hI'.call (fun d => ⟨g, hg, ?_⟩) ?_ hr
      · rw [show g.variadic = true from (congrArg Signature.variadic hsig).trans hv]
        exact ⟨k, vs, rfl, hvs⟩
      · rw [List.filterMap_cons, List.filterMap_eq_nil_iff.mpr hvs]
        exact .refl _

/-! ## Functions and items -/

structure Exact (sources : List Signature) (m : Module) : Prop where
  formatted : m.Formatted sources []
  called : Intrinsic.signature ∈ m.signatures ↔ m.globals ≠ []

def States (c : Tree) (sig : Signature) : Prop := signature c.site c.children = .ok sig

section Items

variable {sources : List Signature} {s t v : LowerState}

theorem opened_formatting {site : Site} {id : Nat} {f : Function} (h : Exact sources s.module)
    (hf : s.module.function? id = some f) : Formatting sources [] (opened site s id f) where
  module := by
    have hcode := h.formatted.code f (List.mem_of_getElem? hf)
    exact h.formatted.keep hf rfl rfl (hcode.addBlock "entry") (Function.uses_addBlock "entry")
  called := by
    rw [opened, Module.signatures_set (g := f.addBlock "entry") hf rfl]
    exact h.called
  scope x storage hx := by
    obtain ⟨w, hw, rfl⟩ := mem_of_parameterScope hx
    obtain ⟨i, p, -, -, rfl⟩ := Function.mem_arguments.mp hw
    exact .register ⟨rfl, rfl⟩

theorem body_exact {site : Site} {id : Nat} {f : Function} {c : Tree} {x : Unit}
    (h : Exact sources s.module) (hf : s.module.function? id = some f)
    (hr : body site id c s = .ok x v) : Exact sources v.module := by
  obtain ⟨u, hu, rfl⟩ := (body_ok hf).mp hr
  have hcode := (formatting sources).bodyCode site f.bodies.length f.ret c fun _ _ _ => trivial
  rcases hcode ⟨rfl, opened_formatting h hf⟩ hu with
    ⟨_, _, -, -, -, hformatting⟩ | ⟨_, _, -, hfalse⟩
  · exact ⟨hformatting.module, hformatting.called⟩
  · exact hfalse.elim

theorem declareFunction_exact {site : Site} {ts : List Tree} {id : Nat}
    (h : Exact sources s.module) (hr : declareFunction site ts s = .ok id t) :
    ∃ sig, signature site ts = .ok sig ∧ Exact (sources ++ [sig]) t.module := by
  obtain ⟨sig, hsig, hlacks, -, rfl⟩ := declareFunction_run.mp hr
  obtain ⟨_, _, _, -, -, -, -, hname, hvariadic⟩ := signature_ok hsig
  have hne : sig ≠ Intrinsic.signature := by
    rintro rfl
    cases hvariadic
  rw [← hname] at hlacks
  have hdeclare := h.formatted.declare hlacks fun _ => hvariadic
  rw [List.filter_cons_of_pos (by simp [hne]), List.filter_nil] at hdeclare
  refine ⟨sig, hsig, hdeclare, ?_⟩
  show Intrinsic.signature ∈ (s.module.functions ++ [_]).map Function.toSignature ↔ _
  rw [List.map_append, List.mem_append, List.map_singleton, List.mem_singleton]
  exact (or_iff_left fun he => hne he.symm).trans h.called

theorem items_exact {its : List (Tree × Option Nat)} {x : Unit} (h : Exact sources s.module)
    (hreg : ∀ i ∈ its, Registered s i.2) (hr : items its s = .ok x v) :
    ∃ sigs, List.Forall₂ States
        ((its.filter fun i => i.1.kind = .functionDeclaration ∧ i.2 = none).map Prod.fst) sigs ∧
      Exact (sources ++ sigs) v.module := by
  induction its generalizing sources s with
  | nil =>
    rw [items] at hr
    cases hr
    exact ⟨[], .nil, by rwa [List.append_nil]⟩
  | cons i its ih =>
    rw [items] at hr
    obtain ⟨_, u, hu, hr₁⟩ := bind_ok.mp hr
    have hchanges := item_changes (hreg i (by simp)) hu
    have hrest : ∀ j ∈ its, Registered u j.2 :=
      fun j hj => hchanges.registered (hreg j (by simp [hj]))
    rcases item_form i.1 i.2 with ⟨hkind, hi⟩ | ⟨hkind, hi⟩ | hi
    · rw [hi] at hu
      rw [← directive_module hu] at h
      rw [List.filter_cons_of_neg (by simp [hkind])]
      exact ih h hrest hr₁
    · rw [hi] at hu
      obtain ⟨_, _, b, id, f, w, -, hw, hf, hb⟩ := function_ok (hreg i (by simp)) hu
      rcases hw with ⟨hsome, rfl⟩ | ⟨hnone, hw⟩
      · rw [List.filter_cons_of_neg (by simp [hsome])]
        exact ih (body_exact h hf hb) hrest hr₁
      · obtain ⟨sig, hsig, hexact⟩ := declareFunction_exact h hw
        obtain ⟨sigs, hsigs, hexact'⟩ := ih (body_exact hexact hf hb) hrest hr₁
        rw [List.filter_cons_of_pos (by simp [hkind, hnone]), List.map_cons]
        refine ⟨sig :: sigs, .cons hsig hsigs, ?_⟩
        rwa [List.append_assoc] at hexact'
    · rw [hi] at hu
      cases hu

theorem declareAll_exact {k : Nat} {ts : List Tree} {ids : List (Option Nat)}
    (h : Exact sources s.module) (hr : declareAll k ts s = .ok ids v) :
    ((ts.zip ids).filter fun i => i.1.kind = .functionDeclaration ∧ i.2 = none) = [] ∧
      ∃ sigs, List.Forall₂ States (ts.filter (·.kind = .functionDeclaration)) sigs ∧
        Exact (sources ++ sigs) v.module := by
  induction ts generalizing k sources s ids with
  | nil =>
    cases hr
    exact ⟨rfl, [], .nil, by rwa [List.append_nil]⟩
  | cons c ts ih =>
    rcases declareAll_cons_ok hr with ⟨hkind, id, u, ids', hu, hw, rfl⟩ | ⟨hkind, ids', hw, rfl⟩
    · obtain ⟨sig, hsig, hexact⟩ := declareFunction_exact h hu
      obtain ⟨hnone, sigs, hsigs, hexact'⟩ := ih (s := u.enrol k id) hexact hw
      rw [List.zip_cons_cons, List.filter_cons_of_neg (by simp),
        List.filter_cons_of_pos (by simp [hkind])]
      refine ⟨hnone, sig :: sigs, .cons hsig hsigs, ?_⟩
      rwa [List.append_assoc] at hexact'
    · rw [List.zip_cons_cons, List.filter_cons_of_neg (by simp [hkind]),
        List.filter_cons_of_neg (by simp [hkind])]
      exact ih h hw

theorem registered_none (ts : List Tree) :
    ∀ i ∈ ts.zip (ts.map fun _ => none), Registered s i.2 := by
  intro i hi id hid
  have hmem := (List.of_mem_zip hi).2
  simp [hid] at hmem

theorem filter_none (ts : List Tree) :
    ((ts.zip (ts.map fun _ => (none : Option Nat))).filter
      fun i => i.1.kind = .functionDeclaration ∧ i.2 = none).map Prod.fst =
        ts.filter (·.kind = .functionDeclaration) := by
  induction ts with
  | nil => rfl
  | cons c ts ih =>
    rw [List.map_cons, List.zip_cons_cons]
    by_cases hkind : c.kind = .functionDeclaration
    · rw [List.filter_cons_of_pos (by simp [hkind]), List.filter_cons_of_pos (by simp [hkind]),
        List.map_cons, ih]
    · rw [List.filter_cons_of_neg (by simp [hkind]), List.filter_cons_of_neg (by simp [hkind]), ih]

theorem exact_empty : Exact [] .empty where
  formatted :=
    { numbered := nofun
      distinct := nofun
      source := rfl
      plain := nofun
      bytes := nofun
      code := nofun
      uses := .refl _ }
  called := by simp [Module.signatures, Module.empty]

end Items

end Lower

theorem Tree.lower_exact {singlePass : Bool} {t : Tree} {m : Module}
    (h : (t.lower singlePass).result = .ok m) :
    ∃ sigs, List.Forall₂ Lower.States (t.children.filter (·.kind = .functionDeclaration)) sigs ∧
      Lower.Exact sigs m := by
  obtain ⟨u, hu⟩ := Tree.lower_ok h
  cases t with
  | node site ts =>
    cases singlePass with
    | true =>
      obtain ⟨v, hitems, rfl⟩ := Lower.program_unregistered hu
      obtain ⟨sigs, hsigs, hexact⟩ := Lower.items_exact Lower.exact_empty
        (Lower.registered_none ts) hitems
      rw [Lower.filter_none] at hsigs
      exact ⟨sigs, hsigs, hexact⟩
    | false =>
      obtain ⟨ids, s, v, hdeclare, hitems, rfl⟩ := Lower.program_default hu
      obtain ⟨hnone, sigs, hsigs, hexact⟩ := Lower.declareAll_exact Lower.exact_empty hdeclare
      have hreg := (Lower.declareAll_waiting hdeclare).2.2.1.registered
      obtain ⟨sigs', hsigs', hexact'⟩ := Lower.items_exact hexact hreg hitems
      rw [hnone] at hsigs'
      cases hsigs'
      rw [List.append_nil] at hexact'
      exact ⟨sigs, hsigs, hexact'⟩

/-! ## Lowered modules -/

/-- A declaration gives a signature: a result type, parameters, which are numbers,
and no more arguments than these. -/
def Tree.Signs (c : Tree) (sig : Signature) : Prop :=
  ∃ result params body ret, c.children = [result, params, body] ∧
    Ty.ofName? result.name = some ret ∧
      sig = ⟨c.name, ret, params.children.map fun p => ⟨p.name, .i32⟩, false⟩

theorem Lower.States.signs {c : Tree} {sig : Signature} (h : States c sig) : c.Signs sig := by
  obtain ⟨result, params, body, hchildren, -, hret, hparams, hname, hvariadic⟩ := signature_ok h
  obtain ⟨hnames, hint⟩ := parameters_ok hparams
  have hsigned : sig.params = params.children.map fun p => ⟨p.name, .i32⟩ :=
    calc sig.params = sig.params.map fun p => ⟨p.name, .i32⟩ :=
          (List.map_id' _).symm.trans (List.map_congr_left fun p hp => by rw [← hint p hp])
      _ = (sig.params.map Param.name).map fun name => ⟨name, .i32⟩ := by
          rw [List.map_map]
          rfl
      _ = params.children.map fun p => ⟨p.name, .i32⟩ := by
          rw [hnames, List.map_map]
          rfl
  refine ⟨result, params, body, sig.ret, hchildren, (Ty.ofSite_ok hret).2, ?_⟩
  rw [← hsigned, ← hvariadic]
  exact congrArg (fun name => Signature.mk name _ _ _) hname

namespace Module

def instrs (m : Module) : List Instr := m.functions.flatMap fun f => f.blocks.flatMap Block.instrs

def operands (m : Module) : List Value :=
  m.functions.flatMap fun f => f.blocks.flatMap Block.operands

def callsTo (m : Module) (n : Nat) : List Instr := m.instrs.filter (Instr.callsTo n)

/-- The functions are those that the items declare, in their order, and at most the
intrinsic, which has no blocks. -/
structure Declares (m : Module) (ts : List Tree) : Prop where
  ids : ∀ k f, m.function? k = some f → f.id = k
  names : (m.functions.map (·.name)).Nodup
  source : List.Forall₂ (fun f c => f.blocks ≠ [] ∧ c.Signs f.toSignature)
    m.sourceFunctions (ts.filter (·.kind = .functionDeclaration))
  intrinsic : m.functions.filter Function.isIntrinsic = [] ∨
    m.functions.filter Function.isIntrinsic = [.declare m.intrinsicPlace Intrinsic.signature]

/-- The intrinsic is there for its calls. The globals are formats, each of them is the
first argument of one of these calls, and they are used nowhere else. -/
structure Formats (m : Module) : Prop where
  called : m.functions.filter Function.isIntrinsic ≠ [] ↔ m.callsTo m.intrinsicPlace ≠ []
  bytes : ∀ k (g : Global), m.globals[k]? = some g →
    g = ⟨k, ".str." ++ toString k, .array 4 .i8, [37, 100, 10, 0]⟩
  heads : ((m.callsTo m.intrinsicPlace).map fun i => i.operands.head?).Perm
    ((List.range m.globals.length).map fun k => some (address k))
  uses : (m.operands.filterMap Value.global?).Perm (List.range m.globals.length)

theorem Distinct.names {m : Module} (h : m.Distinct) : (m.functions.map (·.name)).Nodup := by
  rw [List.Nodup, List.pairwise_map, List.pairwise_iff_getElem]
  intro i j hi hj hij he
  have hsame := h i j (m.functions[i]) (m.functions[j]) (List.getElem?_eq_getElem hi)
    (List.getElem?_eq_getElem hj) he
  exact Nat.ne_of_lt hij hsame

theorem Registry.functions_eq {m : Module} {n : Nat} (h : m.Registry n) :
    m.functions = m.sourceFunctions ++ m.functions.filter Function.isIntrinsic := by
  rcases h.distinct.split with ⟨-, hsource, hnone⟩ | ⟨pre, x, post, hsplit, hpre, hsource, hone⟩
  · rw [hsource, hnone, List.append_nil]
  · have hpost : post = [] := by
      cases post with
      | nil => rfl
      | cons e post =>
        have hget : m.function? (n + 1) = some e := by
          have hn : pre.length = n := hpre.trans h.intrinsicPlace
          rw [Module.function?, hsplit, List.getElem?_append_right (by omega),
            show n + 1 - pre.length = 1 by omega]
          rfl
        exact absurd (h.intrinsic (n + 1) e hget (Nat.le_succ n)).1 (Nat.succ_ne_self n)
    rw [hsource, hone, hsplit, hpost, List.append_nil]

end Module

/-! ### From bodies to blocks -/

namespace Function

variable {m : Module} {f : Function}

theorem filter_prologue (n : Nat) : f.prologue.filter (Instr.callsTo n) = [] := by
  rw [List.filter_eq_nil_iff]
  intro i hi
  rcases List.mem_append.mp hi with hi | hi
  · obtain ⟨s, -, rfl⟩ := List.mem_map.mp hi
    exact Bool.false_ne_true
  · obtain ⟨s, -, rfl⟩ := List.mem_map.mp hi
    exact Bool.false_ne_true

theorem globals_prologue (h : ∀ s ∈ f.seeds, f.Seeds s) :
    f.prologue.flatMap Instr.globals = [] := by
  rw [List.flatMap_eq_nil_iff]
  intro i hi
  rcases List.mem_append.mp hi with hi | hi
  · obtain ⟨s, -, rfl⟩ := List.mem_map.mp hi
    rfl
  · obtain ⟨s, hs, rfl⟩ := List.mem_map.mp hi
    obtain ⟨⟨i, p, -, hv⟩, slot, -, hp, -⟩ := h s hs
    refine Instr.globals_eq_nil ?_
    simp [Seed.instr, Instr.operands, hv, hp, Slot.pointer, Value.global?]

theorem calls_blocks (n : Nat) :
    (f.blocks.flatMap Block.instrs).filter (Instr.callsTo n) =
      (f.bodies.flatMap Block.instrs).filter (Instr.callsTo n) := by
  unfold blocks
  cases f.bodies with
  | nil => rfl
  | cons k ks => simp only [List.flatMap_cons, List.filter_append, filter_prologue, List.nil_append]

theorem Formatted.block (h : f.Formatted m) {k : Block} (hk : k ∈ f.bodies) :
    k.operands.filterMap Value.global? = k.instrs.flatMap Instr.globals := by
  rw [Block.operands, List.filterMap_append, List.filterMap_flatMap]
  refine (congrArg (_ ++ ·) (List.filterMap_eq_nil_iff.mpr ?_)).trans (List.append_nil _)
  intro v hv
  obtain ⟨x, hx, hv⟩ := List.mem_flatMap.mp hv
  exact h.terminators k hk x (Option.mem_toList.mp hx) v hv

theorem Formatted.operands (h : f.Formatted m) (hseeds : ∀ s ∈ f.seeds, f.Seeds s) :
    (f.blocks.flatMap Block.operands).filterMap Value.global? = f.uses := by
  have hbodies : (f.bodies.flatMap Block.operands).filterMap Value.global? = f.uses := by
    rw [List.filterMap_flatMap, uses, List.flatMap_assoc]
    exact List.flatMap_congr fun k hk => h.block hk
  have hlead : (f.prologue.flatMap Instr.operands).filterMap Value.global? = [] := by
    rw [List.filterMap_flatMap]
    exact globals_prologue hseeds
  rw [← hbodies, blocks]
  cases f.bodies with
  | nil => rfl
  | cons k ks =>
    simp only [List.flatMap_cons, Block.operands, List.flatMap_append, List.filterMap_append,
      hlead, List.nil_append]

end Function

namespace Module.Formatted

variable {sources : List Signature} {m : Module}

theorem variadic_place (h : m.Formatted sources []) {j : Nat} {f : Function}
    (hf : m.function? j = some f) : f.variadic = true ↔ j = m.intrinsicPlace := by
  rw [h.variadic_iff hf]
  constructor
  · intro hsig
    exact (h.distinct.place hf (decide_eq_true hsig)).symm
  · rintro rfl
    exact of_decide_eq_true (isIntrinsic_place m hf)

theorem head (h : m.Formatted sources []) {i : Instr} (hi : i.Formatted m) :
    ([i].filter (Instr.callsTo m.intrinsicPlace)).map (fun i => i.operands.head?) =
      i.globals.map fun k => some (address k) := by
  cases i with
  | call d j args =>
    obtain ⟨f, hf, hargs⟩ := hi
    split at hargs
    · rename_i hv
      obtain ⟨k, rest, rfl, hrest⟩ := hargs
      have hglobals : Instr.globals (.call d j (address k :: rest)) = [k] :=
        congrArg (k :: ·) (List.filterMap_eq_nil_iff.mpr hrest)
      have hcalls : Instr.callsTo m.intrinsicPlace (.call d j (address k :: rest)) = true :=
        beq_iff_eq.mpr ((h.variadic_place hf).mp hv)
      rw [hglobals, List.filter_cons_of_pos hcalls]
      rfl
    · rename_i hv
      have hcalls : ¬Instr.callsTo m.intrinsicPlace (.call d j args) = true := fun hj =>
        hv ((h.variadic_place hf).mpr (beq_iff_eq.mp hj))
      have hglobals : Instr.globals (.call d j args) = [] := Instr.globals_eq_nil hargs
      rw [hglobals, List.filter_cons_of_neg hcalls]
      rfl
  | _ =>
    rw [Instr.globals_eq_nil hi]
    rfl

theorem heads (h : m.Formatted sources []) {is : List Instr} (his : ∀ i ∈ is, i.Formatted m) :
    (is.filter (Instr.callsTo m.intrinsicPlace)).map (fun i => i.operands.head?) =
      (is.flatMap Instr.globals).map fun k => some (address k) := by
  induction is with
  | nil => rfl
  | cons i is ih =>
    rw [List.forall_mem_cons] at his
    rw [← List.singleton_append, List.filter_append, List.map_append, h.head his.1, ih his.2,
      List.flatMap_append, List.map_append, List.flatMap_singleton]

theorem callsTo_heads (h : m.Formatted sources []) :
    ((m.callsTo m.intrinsicPlace).map fun i => i.operands.head?) =
      (m.functions.flatMap Function.uses).map fun k => some (address k) := by
  rw [callsTo, instrs, List.filter_flatMap, List.map_flatMap, List.map_flatMap]
  refine List.flatMap_congr fun f hf => ?_
  rw [Function.calls_blocks, h.heads (h.code f hf).instrs]
  rfl

theorem operands_uses (h : m.Formatted sources [])
    (hseeds : ∀ f ∈ m.functions, ∀ s ∈ f.seeds, f.Seeds s) :
    m.operands.filterMap Value.global? = m.functions.flatMap Function.uses := by
  rw [operands, List.filterMap_flatMap]
  exact List.flatMap_congr fun f hf => (h.code f hf).operands (hseeds f hf)

theorem sourceFunctions_map (h : m.Formatted sources []) :
    m.sourceFunctions.map Function.toSignature = sources := by
  rw [← h.source, signatures, List.filter_map, sourceFunctions]
  refine congrArg (List.map Function.toSignature) (List.filter_congr fun f _ => ?_)
  exact (decide_not (h := inferInstance)).symm

end Module.Formatted

theorem Lower.Exact.formats {sources : List Signature} {m : Module} (h : Exact sources m)
    (hseeds : ∀ f ∈ m.functions, ∀ s ∈ f.seeds, f.Seeds s) : m.Formats := by
  have huses : (m.functions.flatMap Function.uses).Perm (List.range m.globals.length) := by
    have huses := h.formatted.uses
    rwa [List.append_nil] at huses
  have hheads := h.formatted.callsTo_heads
  refine ⟨?_, h.formatted.bytes, hheads ▸ huses.map _, ?_⟩
  · have hfilter : m.functions.filter Function.isIntrinsic ≠ [] ↔
        Intrinsic.signature ∈ m.signatures := by
      rw [Ne, List.filter_eq_nil_iff, Module.signatures, List.mem_map]
      simp [Function.isIntrinsic]
    have hlength : (m.callsTo m.intrinsicPlace).length = m.globals.length := by
      have hperm := (huses.map fun k => some (Module.address k)).length_eq
      rwa [← hheads, List.length_map, List.length_map, List.length_range] at hperm
    rw [hfilter, h.called, ← List.length_pos_iff, ← List.length_pos_iff, hlength]
  · rw [h.formatted.operands_uses hseeds]
    exact huses

/-! ### The registry -/

section Registry

variable {singlePass : Bool} {t : Tree} {m : Module}

theorem Tree.lower_default_first (h : (t.lower false).result = .ok m) :
    m.functions = m.sourceFunctions ++ m.functions.filter Function.isIntrinsic := by
  obtain ⟨u, hu⟩ := Tree.lower_ok h
  cases t with
  | node site ts =>
    obtain ⟨ids, s, v, hdeclare, hitems, rfl⟩ := Lower.program_default hu
    obtain ⟨hblank, rfl, hlength⟩ := Lower.declareAll_blank hdeclare nofun
    have hawaits := hblank.awaits (Lower.declareAll_changes hdeclare).1
    have hn : 0 + Tree.functionCount ts ≤ s.module.functions.length := Nat.le_of_eq hlength.symm
    exact (Lower.items_awaits hawaits hn hitems).1.registry.functions_eq

theorem Tree.lower_blocks (h : (t.lower singlePass).result = .ok m) {f : Function}
    (hf : f ∈ m.sourceFunctions) : f.blocks ≠ [] := by
  obtain ⟨hmem, hsource⟩ := List.mem_filter.mp hf
  obtain ⟨j, hj⟩ := List.getElem?_of_mem hmem
  rcases Tree.lower_compiles h hj with ⟨cs, c, -, hcomp⟩ | rfl
  · rw [← List.length_pos_iff, Function.blocks_length, hcomp.made]
    omega
  · cases hsource

theorem Tree.lower_declares (h : (t.lower singlePass).result = .ok m) {sigs : List Signature}
    (hsigs : List.Forall₂ Lower.States (t.children.filter (·.kind = .functionDeclaration)) sigs)
    (hm : Lower.Exact sigs m) : m.Declares t.children where
  ids := Tree.lower_numbered h
  names := (Tree.lower_distinct h).names
  source := by
    rw [← hm.formatted.sourceFunctions_map, List.forall₂_map_right_iff] at hsigs
    refine (List.forall₂_and_left _ _).mpr ⟨fun f hf => Tree.lower_blocks h hf, ?_⟩
    exact (hsigs.imp fun _ _ hstates => hstates.signs).flip
  intrinsic := Tree.lower_intrinsic h

/-- The registry and the formats of a lowered module are exact: a function for each
declaration, the intrinsic if it is called, and a format for each of its calls. If
all functions are registered before any is lowered, the intrinsic is behind them. -/
theorem Tree.lower_registry_exact (h : (t.lower singlePass).result = .ok m) :
    m.Declares t.children ∧ m.Formats ∧
      (singlePass = false →
        m.functions = m.sourceFunctions ++ m.functions.filter Function.isIntrinsic) := by
  obtain ⟨sigs, hsigs, hexact⟩ := Tree.lower_exact h
  refine ⟨Tree.lower_declares h hsigs hexact, hexact.formats ?_, ?_⟩
  · intro f hf s hs
    obtain ⟨j, hj⟩ := List.getElem?_of_mem hf
    exact (Tree.lower_fits h hj).2.2 s hs
  · rintro rfl
    exact Tree.lower_default_first h

end Registry

def Tree.nestedPrints : Tree :=
  let int := bare .identifier "int" []
  let print (t : Tree) := bare .functionCall "printf" [t]
  let declare (name : String) (t : Tree) := bare .functionDeclaration name
    [int, bare .parameters "" [bare .variableDeclaration "n" [int]],
      bare .block "" [bare .returnStatement "" [t]]]
  bare .program ""
    [declare "f" (print (print (bare .identifier "n" []))), declare "g" (bare .identifier "n" [])]

/-- The outer call takes the first format and is emitted last. -/
theorem Tree.nestedPrints_exact :
    ∃ m, (nestedPrints.lower true).result = .ok m ∧
      m.functions.map (·.name) = ["f", "printf", "g"] ∧ m.globals.length = 2 ∧
      (m.callsTo 1).map (·.operands.head?) =
        [some (Module.address 1), some (Module.address 0)] ∧
      m.Declares nestedPrints.children ∧ m.Formats := by
  obtain ⟨m, hm⟩ : ∃ m, (nestedPrints.lower true).result = .ok m :=
    Lower.except_of_isOk (by decide +kernel)
  have hrun : ((nestedPrints.lower true).result.toOption.map fun m =>
      (m.functions.map (·.name), m.globals.length, (m.callsTo 1).map (·.operands.head?))) =
        some (["f", "printf", "g"], 2,
          [some (Module.address 1), some (Module.address 0)]) := by
    decide +kernel
  rw [hm] at hrun
  obtain ⟨hnames, hrest⟩ := Prod.mk.inj (Option.some.inj hrun)
  obtain ⟨hglobals, hheads⟩ := Prod.mk.inj hrest
  obtain ⟨hdeclares, hformats, -⟩ := lower_registry_exact hm
  exact ⟨m, hm, hnames, hglobals, hheads, hdeclares, hformats⟩

end TreeFlow
