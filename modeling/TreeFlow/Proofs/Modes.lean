import TreeFlow.Proofs.Linking
import TreeFlow.Proofs.Renumbering
import TreeFlow.Proofs.Comparison

/-!
# The two modes of lowering

A function is registered before all bodies or when its own body is reached. A
run of the second kind that succeeds is followed step by step by a run of the
first kind. It finds the functions further down already registered, so the two
modules are paired: a function has in the end the place of its declaration, and
the intrinsic comes behind all declared functions.
-/

set_option autoImplicit false

namespace TreeFlow

variable {ts : List Tree}

namespace Lower

variable {M : Module} {n : Nat}

/-! ## Bodies -/

section Bodies

variable {α β γ δ : Type}

/-- Where the first action succeeds, on the way to `M`, the second one succeeds in a
paired state and with a related result. -/
structure Matches (M : Module) (n : Nat) (P : α → β → Prop) (x : Lower α) (y : Lower β) :
    Prop where
  keeps : ∀ {s t : LowerState} {a : α}, x s = .ok a t → s.module.Keeps t.module ∧ ∃ b, P a b
  run : ∀ {d : Nat} {s₁ s₂ t₁ : LowerState} {a : α}, s₁.Pairs M n d s₂ → x s₁ = .ok a t₁ →
    t₁.module.Keeps M → ∃ b t₂, y s₂ = .ok b t₂ ∧ P a b ∧ t₁.Pairs M n d t₂

theorem Mirrors.matches {view : α → β} {P : α → β → Prop} {x : Lower α} {y : Lower β}
    (h : Mirrors M n view x y) (hP : ∀ a, P a (view a)) : Matches M n P x y where
  keeps {_ _ a} hr := ⟨h.keeps hr, view a, hP a⟩
  run {_ _ _ _ a} hp hr hend := by
    obtain ⟨t₂, ht₂, hpt⟩ := h.run hp hr hend
    exact ⟨view a, t₂, ht₂, hP a, hpt⟩

theorem Matches.mirrors {view : α → β} {P : α → β → Prop} {x : Lower α} {y : Lower β}
    (h : Matches M n P x y) (hP : ∀ a b, P a b → view a = b) : Mirrors M n view x y where
  keeps hr := (h.keeps hr).1
  run {_ _ _ _ a} hp hr hend := by
    obtain ⟨b, t₂, ht₂, hab, hpt⟩ := h.run hp hr hend
    exact ⟨t₂, by rw [hP a b hab, ht₂], hpt⟩

theorem Matches.mirrors_unit {P : Unit → Unit → Prop} {x y : Lower Unit} (h : Matches M n P x y) :
    Mirrors M n id x y :=
  h.mirrors fun _ _ _ => rfl

theorem Matches.bind {P : α → β → Prop} {Q : γ → δ → Prop} {x : Lower α} {y : Lower β}
    {k : α → Lower γ} {l : β → Lower δ} (hx : Matches M n P x y)
    (hk : ∀ a b, P a b → Matches M n Q (k a) (l b)) : Matches M n Q (x >>= k) (y >>= l) where
  keeps h := by
    obtain ⟨a, u, hu, hr⟩ := bind_ok.mp h
    obtain ⟨hkeeps, b, hab⟩ := hx.keeps hu
    obtain ⟨hkeeps', hQ⟩ := (hk a b hab).keeps hr
    exact ⟨hkeeps.trans hkeeps', hQ⟩
  run hp h hend := by
    obtain ⟨a, u, hu, hr⟩ := bind_ok.mp h
    obtain ⟨-, b₀, hab₀⟩ := hx.keeps hu
    have hendu := ((hk a b₀ hab₀).keeps hr).1.trans hend
    obtain ⟨b, u₂, hu₂, hab, hpu⟩ := hx.run hp hu hendu
    obtain ⟨c, t₂, ht₂, hQ, hpt⟩ := (hk a b hab).run hpu hr hend
    exact ⟨c, t₂, bind_ok.mpr ⟨b, u₂, hu₂, ht₂⟩, hQ, hpt⟩

theorem mirrors_arguments (h : ∀ t ∈ ts, Mirrored M n (expression t)) (c : Callee)
    (args : List Value) :
    Mirrors M n id (arguments c args ts) (arguments (c.renumber (M.rankTo n)) args ts) := by
  induction ts generalizing args with
  | nil =>
    rw [arguments, arguments]
    exact mirrored_pure args
  | cons t ts ih =>
    rw [arguments, arguments]
    refine (h t (by simp)).bind fun v => ?_
    refine (mirrored_lift (checkArgument c t.site args.length v)).bind fun _ => ?_
    exact ih (fun t ht => h t (by simp [ht])) _

theorem mirrored_innermostLoop : Mirrored M n innermostLoop where
  keeps h := by cases h; exact .refl _
  run {d s₁ s₂ t₁ a} hp h _ := by
    cases h
    exact ⟨s₂, congrArg (fun l => EStateM.Result.ok (List.head? l) s₂) hp.loops, hp⟩

theorem mirrored_bind (name : String) (storage : Storage) : Mirrored M n (bind name storage) :=
  mirrored_modify (fun _ => rfl) fun h =>
    { h with scope := congrArg (Scope.bind · name storage) h.scope }

theorem renumber_of_related {i j : Instr} (h : i.Related Eq j) (ρ : Nat → Nat) :
    i.renumber ρ = j := by
  cases h with
  | load h => rw [h]; rfl
  | binary hl hr => rw [hl, hr]; rfl
  | icmp hl hr => rw [hl, hr]; rfl

def modes (M : Module) (n : Nat) : Comparison where
  holds := Matches M n
  value := Eq
  called _ := True
  value_ty h := congrArg Value.ty h.symm
  value_const _ _ := rfl
  pure {_ _ _ _ b} h :=
    { keeps := fun hr => by
        cases hr
        exact ⟨.refl _, b, h⟩
      run := fun hp hr _ => by
        cases hr
        exact ⟨b, _, rfl, h, hp⟩ }
  throw _ _ _ :=
    { keeps := fun hr => by cases hr
      run := fun _ hr => by cases hr }
  bind := Matches.bind
  note e := (mirrored_note e).matches fun _ => trivial
  nestedValue site h := (mirrors_nested site (h.mirrors fun _ _ h => h)).matches fun _ => rfl
  nested site h := (mirrors_nested site h.mirrors_unit).matches fun _ => trivial
  inLoop l h := (mirrors_inLoop l h.mirrors_unit).matches fun _ => trivial
  innermostLoop := mirrored_innermostLoop.matches fun _ => rfl
  lookup name := (mirrored_lookup name).matches fun b => by
    cases b with
    | none => exact .none
    | some b => exact .some (b.related_refl fun _ => rfl)
  bindName name {storage _} hs := by
    obtain rfl := hs.eq
    exact (mirrored_bind name storage).matches fun _ => trivial
  newBlock label := (mirrored_newBlock label).matches fun _ => rfl
  setBlock b := (mirrored_setBlock b).matches fun _ => trivial
  alloca ty := (mirrored_alloca ty).matches fun _ => rfl
  seed {v _ p _} hv hp := by
    subst hv hp
    exact (mirrored_seed v p).matches fun _ => trivial
  define ty {make make'} hmake := by
    have hrenumber := fun d => renumber_of_related (hmake d) (M.rankTo n)
    exact (mirrors_inBlock fun b => renames_define hrenumber b ty).matches fun _ => rfl
  store {v _ p _} hv hp := by
    subst hv hp
    exact (mirrored_store v p).matches fun _ => trivial
  terminate {x _} hx := by
    obtain rfl := hx.eq
    exact (mirrors_inBlock fun b => renames_terminate b x).matches fun _ => trivial
  terminated := mirrored_terminated.matches fun _ => rfl
  functionCall site ts _ hts := by
    have hmirrored := fun t ht => (hts t ht).mirrors fun _ _ h => h
    have hcall : Mirrored M n (functionCall (.node site ts)) := by
      refine (mirrors_callee site _).bind fun c => ?_
      refine (mirrors_arguments hmirrored c c.leading).bind fun args => ?_
      exact mirrors_call c.id args
    exact hcall.matches fun v a ha => ⟨a, ha, rfl⟩

theorem mirrored_expression (t : Tree) : Mirrored M n (expression t) :=
  ((modes M n).expression t fun _ _ _ => trivial).mirrors fun _ _ h => h

end Bodies

/-! ## Items -/

section Items

variable {d : Nat} {s s₁ s₂ t t₁ : LowerState}

theorem mirrored_leave : Mirrored M n leave :=
  mirrored_modify (fun _ => rfl) fun h => { h with function := rfl, block := rfl }

theorem opened_pairs {site : Site} {j : Nat} {f : Function} (hp : s₁.Pairs M n d s₂)
    (hf : s₁.module.function? j = some f) :
    (opened site s₁ j f).Pairs M n d
      (opened site s₂ (M.rankTo n j) (f.renumber (M.rankTo n))) where
  module := by
    have hset := hp.module.set (g := f.addBlock "entry") hf rfl rfl
    rw [Function.renumber_addBlock] at hset
    exact hset
  scope := congrArg (parameterScope · f.arguments) hp.scope
  function := rfl
  block := congrArg some (List.length_map ..)
  loops := rfl
  depth := rfl

theorem body_mirrored {site : Site} {j : Nat} {f : Function} {c : Tree} {x : Unit}
    (hp : s₁.Pairs M n d s₂) (hf : s₁.module.function? j = some f)
    (hr : body site j c s₁ = .ok x t₁) (hend : t₁.module.Keeps M) :
    ∃ t₂, body site (M.rankTo n j) c s₂ = .ok x t₂ ∧ t₁.Pairs M n d t₂ := by
  have hlength : (f.renumber (M.rankTo n)).bodies.length = f.bodies.length :=
    List.length_map ..
  have hret : (f.renumber (M.rankTo n)).ret = f.ret := rfl
  rw [body_eq (hp.module.found j f hf), hlength, hret]
  rw [body_eq hf] at hr
  have hcode := (modes M n).bodyCode site f.bodies.length f.ret c fun _ _ _ => trivial
  have haction : Mirrored M n (bodyCode site f.bodies.length f.ret c >>= fun _ => leave) :=
    hcode.mirrors_unit.bind fun _ => mirrored_leave
  exact haction.run (opened_pairs hp hf) hr hend

theorem mirrored_define (name : String) (v : Int) : Mirrored M n (define name v) :=
  mirrored_modify (fun _ => rfl) fun h =>
    { h with scope := congrArg (Scope.define · name v) h.scope }

theorem mirrored_directive (site : Site) (ts : List Tree) : Mirrored M n (directive site ts) := by
  unfold directive
  by_cases hname : site.name = "#define"
  · rw [if_pos hname]
    match ts with
    | [name, value] =>
      refine (mirrored_lift _).bind fun _ => ?_
      by_cases hkind : value.kind ≠ .literal
      · simp only [if_pos hkind]
        exact mirrored_throw _
      · simp only [if_neg hkind]
        refine (mirrored_lift _).bind fun v => ?_
        exact (mirrored_note _).bind fun _ => mirrored_define _ v
    | [] | [_] | _ :: _ :: _ :: _ => exact mirrored_throw _
  · rw [if_neg hname]
    exact mirrored_throw _

/-! ## Registration -/

def declared (s : LowerState) (site : Site) (sig : Signature) : LowerState :=
  { s with module := s.module.declare sig, log := s.log ++ [.functionDeclared site.name] }

theorem declareFunction_run {site : Site} {id : Nat} :
    declareFunction site ts s = .ok id t ↔
      ∃ sig, signature site ts = .ok sig ∧ s.module.Lacks site.name ∧
        id = s.module.functions.length ∧ t = declared s site sig := by
  constructor
  · intro h
    obtain ⟨sig, u, hu, h₁⟩ := bind_ok.mp h
    obtain ⟨hsig, rfl⟩ := lift_ok.mp hu
    rw [get_bind] at h₁
    cases hf : u.module.find? site.name with
    | some j => simp [hf] at h₁
    | none =>
      simp only [hf, Option.isSome_none] at h₁
      cases h₁
      exact ⟨sig, hsig, Module.find?_eq_none.mp hf, rfl, rfl⟩
  · rintro ⟨sig, hsig, hlacks, rfl, rfl⟩
    refine bind_ok.mpr ⟨sig, s, lift_ok.mpr ⟨hsig, rfl⟩, ?_⟩
    rw [get_bind]
    simp only [Module.find?_eq_none.mpr hlacks, Option.isSome_none]
    rfl

/-- The identities of the functions among some items when they are registered
one after another. -/
def numbering : Nat → List Tree → List (Option Nat)
  | _, [] => []
  | d, t :: ts =>
    if t.kind = .functionDeclaration then some d :: numbering (d + 1) ts
    else none :: numbering d ts

/-- The functions among some items can be registered one after another. -/
inductive Admits : Module → List Tree → Prop
  | nil {m : Module} : Admits m []
  | other {m : Module} {t : Tree} {ts : List Tree} (kind : t.kind ≠ .functionDeclaration)
      (rest : Admits m ts) : Admits m (t :: ts)
  | function {m : Module} {t : Tree} {ts : List Tree} {sig : Signature}
      (kind : t.kind = .functionDeclaration) (signature : signature t.site t.children = .ok sig)
      (absent : m.Lacks t.name) (rest : Admits (m.declare sig) ts) : Admits m (t :: ts)

theorem Admits.mono {m m' : Module} (h : Admits m' ts)
    (hnames : ∀ name, m'.Lacks name → m.Lacks name) : Admits m ts := by
  induction h generalizing m with
  | nil => exact .nil
  | other kind _ ih => exact .other kind (ih hnames)
  | function kind hsig absent _ ih =>
    refine .function kind hsig (hnames _ absent) (ih fun name hname => ?_)
    obtain ⟨hlacks, hne⟩ := Module.lacks_declare.mp hname
    exact Module.lacks_declare.mpr ⟨hnames name hlacks, hne⟩

theorem declareAll_run (k : Nat) (h : Admits s.module ts) :
    ∃ fs entries log, declareAll k ts s = .ok (numbering s.module.functions.length ts)
        { s with
          module := { s.module with functions := s.module.functions ++ fs }
          registered := entries
          log := log } ∧
      fs.map (·.name) = (ts.filter (·.kind = .functionDeclaration)).map Tree.name := by
  induction ts generalizing k s with
  | nil => exact ⟨[], s.registered, s.log, by simp [declareAll, numbering], rfl⟩
  | cons c ts ih =>
    cases h with
    | other kind rest =>
      obtain ⟨fs, entries, log, hrun, hnames⟩ := ih (k + 1) rest
      refine ⟨fs, entries, log, ?_, by simpa [kind] using hnames⟩
      rw [declareAll, if_neg kind, numbering, if_neg kind]
      exact bind_ok.mpr ⟨_, _, hrun, rfl⟩
    | @function _ _ _ sig kind hsig absent rest =>
      obtain ⟨_, _, _, -, -, -, -, hname, -⟩ := signature_ok hsig
      let id := s.module.functions.length
      obtain ⟨fs, entries, log, hrun, hnames⟩ :=
        ih (s := (declared s c.site sig).enrol k id) (k + 1) rest
      have hlength : ((declared s c.site sig).enrol k id).module.functions.length = id + 1 := by
        simp [LowerState.enrol, declared, Module.declare, id]
      rw [hlength] at hrun
      refine ⟨.declare id sig :: fs, entries, log, ?_, ?_⟩
      · rw [declareAll, if_pos kind, numbering, if_pos kind]
        refine bind_ok.mpr ⟨_, _, declareFunction_run.mpr ⟨sig, hsig, absent, rfl, rfl⟩, ?_⟩
        rw [register_bind]
        refine bind_ok.mpr ⟨_, _, hrun, ?_⟩
        simp only [LowerState.enrol, declared, Module.declare, List.append_assoc,
          List.cons_append, List.nil_append]
        rfl
      · simp only [List.filter_cons, kind, decide_true, if_true, List.map_cons, hnames]
        exact congrArg (· :: _) hname

/-! ## Runs over the items -/

/-- In a run that registers each function when it reaches it, no function is in
the way of another one. -/
theorem items_admits {x : Unit} (hr : items (ts.zip (ts.map fun _ => none)) s = .ok x t) :
    Admits s.module ts := by
  induction ts generalizing s with
  | nil => exact .nil
  | cons c ts ih =>
    rw [List.map_cons, List.zip_cons_cons, items] at hr
    obtain ⟨_, v, hv, hr₁⟩ := bind_ok.mp hr
    have hrest := ih hr₁
    rcases item_form c none with ⟨hkind, hi⟩ | ⟨hkind, hi⟩ | hi
    · rw [hi] at hv
      rw [← directive_module hv]
      exact .other (by rw [hkind]; decide) hrest
    · rw [hi, function_none] at hv
      obtain ⟨id, w, hw, hb⟩ := bind_ok.mp hv
      obtain ⟨sig, hsig, hlacks, rfl, rfl⟩ := declareFunction_run.mp hw
      obtain ⟨_, _, b, -, hbody⟩ := bodyOf_ok hb
      have hext := (body_changes (s.module.function?_declared sig) hbody).extends
      exact .function hkind hsig hlacks (hrest.mono fun name hname => hname.kept hext.keeps)
    · rw [hi] at hv
      cases hv

theorem items_keeps {x : Unit} (hr : items (ts.zip (ts.map fun _ => none)) s = .ok x t) :
    s.module.Keeps t.module := by
  refine (items_changes (fun i hi id hid => ?_) hr).extends.keeps
  have hmem := (List.of_mem_zip hi).2
  simp [hid] at hmem

theorem function_mirrored {c : Tree} {x : Unit} (hp : s₁.Pairs M n d s₂)
    (hwait : Pending s₂ c d) (hr : function c.site none c.children s₁ = .ok x t₁)
    (hend : t₁.module.Keeps M) :
    ∃ t₂, function c.site (some d) c.children s₂ = .ok x t₂ ∧ t₁.Pairs M n (d + 1) t₂ ∧
      Passes s₂ t₂ d := by
  rw [function_none] at hr
  obtain ⟨id, w, hw, hb⟩ := bind_ok.mp hr
  obtain ⟨sig, hsig, hlacks, rfl, rfl⟩ := declareFunction_run.mp hw
  obtain ⟨result, params, b, hchildren, hbody⟩ := bodyOf_ok hb
  obtain ⟨_, _, _, -, -, -, -, hname, hvariadic⟩ := signature_ok hsig
  obtain ⟨sig', hsig', hpending⟩ := hwait
  obtain rfl : sig' = sig := Except.ok.inj (hsig'.symm.trans hsig)
  have hfound := s₁.module.function?_declared sig'
  have hkeeps := (body_changes hfound hbody).extends.keeps.trans hend
  rw [← hname] at hlacks
  obtain ⟨hrank, hmodule⟩ := hp.module.declare hvariadic hlacks hpending hkeeps
  have hpairs : (declared s₁ c.site sig').Pairs M n (d + 1) s₂ := { hp with module := hmodule }
  obtain ⟨t₂, ht₂, hpt⟩ := body_mirrored hpairs hfound hbody hend
  rw [hrank] at ht₂
  refine ⟨t₂, ?_, hpt, body_passes hpending ht₂⟩
  rw [function_some, hchildren]
  exact ht₂

theorem items_mirrored {x : Unit} (hp : s₁.Pairs M n d s₂)
    (hwait : Waiting s₂ (ts.zip (numbering d ts)))
    (hr : items (ts.zip (ts.map fun _ => none)) s₁ = .ok x t₁) (hend : t₁.module.Keeps M) :
    ∃ t₂, items (ts.zip (numbering d ts)) s₂ = .ok x t₂ ∧
      t₁.Pairs M n (d + (ts.filter (·.kind = .functionDeclaration)).length) t₂ := by
  induction ts generalizing d s₁ s₂ with
  | nil =>
    rw [List.map_nil, List.zip_nil_left, items] at hr
    cases hr
    exact ⟨s₂, rfl, hp⟩
  | cons c ts ih =>
    rw [List.map_cons, List.zip_cons_cons, items] at hr
    obtain ⟨_, v, hv, hr₁⟩ := bind_ok.mp hr
    have hendv := (items_keeps hr₁).trans hend
    rcases item_form c none with ⟨hkind, hi⟩ | ⟨hkind, hi⟩ | hi
    · have hne : c.kind ≠ .functionDeclaration := by rw [hkind]; decide
      rw [numbering, if_neg hne, List.zip_cons_cons] at hwait ⊢
      rw [hi] at hv
      obtain ⟨v₂, hv₂, hpv⟩ := (mirrored_directive _ _).run hp hv hendv
      obtain ⟨t₂, ht₂, hpt⟩ := ih hpv (hwait.skip (directive_module hv₂)) hr₁
      refine ⟨t₂, ?_, by simpa [hne] using hpt⟩
      rw [items]
      have hi₂ : item c none = directive c.site c.children := hi
      rw [hi₂]
      exact bind_ok.mpr ⟨_, _, hv₂, ht₂⟩
    · rw [numbering, if_pos hkind, List.zip_cons_cons] at hwait ⊢
      rw [hi] at hv
      obtain ⟨v₂, hv₂, hpv, hpass⟩ :=
        function_mirrored hp (hwait.pending _ (List.mem_cons_self ..) d rfl) hv hendv
      obtain ⟨hrest, -⟩ := hwait.tail (.inl rfl) hpass
      obtain ⟨t₂, ht₂, hpt⟩ := ih hpv hrest hr₁
      refine ⟨t₂, ?_, ?_⟩
      · rw [items]
        have hi₂ : item c (some d) = function c.site (some d) c.children := by
          simp only [item, hkind]
        rw [hi₂]
        exact bind_ok.mpr ⟨_, _, hv₂, ht₂⟩
      · simpa [hkind, Nat.add_assoc, Nat.add_comm 1] using hpt
    · rw [hi] at hv
      cases hv

end Items

end Lower

/-! ## The order in the end -/

namespace Module

variable {m m₂ : Module} {n : Nat}

theorem Distinct.source (h : m.Distinct) {id : Nat} {f : Function} (hf : m.function? id = some f)
    (hid : id ≠ m.intrinsicPlace) : f.isIntrinsic = false := by
  cases hi : f.isIntrinsic with
  | false => rfl
  | true => exact absurd (h.place hf hi).symm hid

theorem Distinct.split (h : m.Distinct) :
    m.functions.length ≤ m.intrinsicPlace ∧ m.sourceFunctions = m.functions ∧
        m.functions.filter Function.isIntrinsic = [] ∨
      ∃ pre x post, m.functions = pre ++ x :: post ∧ pre.length = m.intrinsicPlace ∧
        m.sourceFunctions = pre ++ post ∧ m.functions.filter Function.isIntrinsic = [x] := by
  by_cases hlt : m.intrinsicPlace < m.functions.length
  · right
    refine ⟨m.functions.take m.intrinsicPlace, m.functions[m.intrinsicPlace],
      m.functions.drop (m.intrinsicPlace + 1), ?_⟩
    have hsplit : m.functions = m.functions.take m.intrinsicPlace ++
        m.functions[m.intrinsicPlace] :: m.functions.drop (m.intrinsicPlace + 1) := by
      rw [← List.drop_eq_getElem_cons hlt, List.take_append_drop]
    have hhere : (m.functions[m.intrinsicPlace]).isIntrinsic = true :=
      m.isIntrinsic_place (List.getElem?_eq_getElem hlt)
    have hbefore : ∀ f ∈ m.functions.take m.intrinsicPlace, f.isIntrinsic = false := by
      intro f hf
      obtain ⟨i, hi, rfl⟩ := List.mem_take_iff_getElem.mp hf
      exact h.source (List.getElem?_eq_getElem _) (by omega)
    have hbehind : ∀ f ∈ m.functions.drop (m.intrinsicPlace + 1), f.isIntrinsic = false := by
      intro f hf
      obtain ⟨i, hi, rfl⟩ := List.mem_drop_iff_getElem.mp hf
      exact h.source (List.getElem?_eq_getElem _) (by omega)
    have hfilter : ∀ p : Function → Bool, m.functions.filter p =
        (m.functions.take m.intrinsicPlace).filter p ++
          (m.functions[m.intrinsicPlace] ::
            m.functions.drop (m.intrinsicPlace + 1)).filter p := by
      intro p
      rw [← List.filter_append, ← hsplit]
    refine ⟨hsplit, List.length_take_of_le (Nat.le_of_lt hlt), ?_, ?_⟩
    · rw [sourceFunctions, hfilter, List.filter_cons_of_neg (by simp [hhere]),
        List.filter_eq_self.mpr fun f hf => by simp [hbefore f hf],
        List.filter_eq_self.mpr fun f hf => by simp [hbehind f hf]]
    · rw [hfilter, List.filter_cons_of_pos hhere,
        List.filter_eq_nil_iff.mpr fun f hf => by simp [hbefore f hf],
        List.filter_eq_nil_iff.mpr fun f hf => by simp [hbehind f hf], List.nil_append]
  · left
    have hnone : ∀ f ∈ m.functions, f.isIntrinsic = false := by
      intro f hf
      obtain ⟨i, hi, rfl⟩ := List.getElem_of_mem hf
      exact h.source (List.getElem?_eq_getElem hi) (by omega)
    exact ⟨by omega, List.filter_eq_self.mpr fun f hf => by simp [hnone f hf],
      List.filter_eq_nil_iff.mpr fun f hf => by simp [hnone f hf]⟩

theorem Pairs.sourceFunctions_length (h : m.Pairs n n m m₂) : m.sourceFunctions.length = n := by
  have hlengths := h.lengths
  rcases h.whole.split with ⟨hle, hsource, -⟩ | ⟨pre, x, post, hsplit, hpre, hsource, -⟩
  · rw [hsource]
    omega
  · have hlength : m.functions.length = pre.length + (post.length + 1) := by
      rw [hsplit, List.length_append, List.length_cons]
    rw [hsource, List.length_append]
    omega

theorem Pairs.eq_intrinsicLast (h : m.Pairs n n m m₂) : m₂ = m.intrinsicLast := by
  have hrank : m.rank = m.rankTo n := by
    unfold rank
    rw [h.sourceFunctions_length]
  have hfunctions : m₂.functions = (m.sourceFunctions ++
      m.functions.filter Function.isIntrinsic).map (Function.renumber m.rank) := by
    have hlengths := h.lengths
    apply List.ext_getElem?
    intro j
    rw [List.getElem?_map, hrank]
    rcases h.whole.split with ⟨hle, hsource, hnone⟩ |
      ⟨pre, x, post, hsplit, hpre, hsource, hone⟩
    · rw [hsource, hnone, List.append_nil]
      cases hf : m.functions[j]? with
      | none =>
        have hj := List.getElem?_eq_none_iff.mp hf
        exact List.getElem?_eq_none (by omega)
      | some f =>
        obtain ⟨hj, -⟩ := List.getElem?_eq_some_iff.mp hf
        have hfound := h.found j f hf
        rw [Pairs.rank_of_lt (by omega)] at hfound
        exact hfound
    · have hlength : m.functions.length = pre.length + (post.length + 1) := by
        rw [hsplit, List.length_append, List.length_cons]
      have hget : ∀ i : Nat, m.functions[i]? = (pre ++ x :: post)[i]? := by
        intro i
        rw [hsplit]
      rw [hsource, hone]
      -- A function in front of the intrinsic, one behind it, the intrinsic, none.
      by_cases hbefore : j < pre.length
      · have hf : m.functions[j]? = some pre[j] := by
          rw [hget, List.getElem?_append_left hbefore, List.getElem?_eq_getElem hbefore]
        have hfound := h.found j _ hf
        rw [Pairs.rank_of_lt (by omega)] at hfound
        rw [List.append_assoc, List.getElem?_append_left hbefore,
          List.getElem?_eq_getElem hbefore]
        exact hfound
      · by_cases hbehind : j < n
        · have hj : j - pre.length < post.length := by omega
          have hf : m.functions[j + 1]? = some post[j - pre.length] := by
            rw [hget, List.getElem?_append_right (by omega), Nat.sub_add_comm (by omega),
              List.getElem?_cons_succ, List.getElem?_eq_getElem hj]
          have hfound := h.found (j + 1) _ hf
          rw [Pairs.rank_of_gt (by omega), Nat.add_sub_cancel] at hfound
          rw [List.append_assoc, List.getElem?_append_right (by omega),
            List.getElem?_append_left hj, List.getElem?_eq_getElem hj]
          exact hfound
        · by_cases hlast : j = n
          · have hf : m.functions[m.intrinsicPlace]? = some x := by
              rw [hget, ← hpre, List.getElem?_append_right (Nat.le_refl _), Nat.sub_self]
              rfl
            have hfound := h.found _ _ hf
            rw [Pairs.rank_place] at hfound
            have hj : j - (pre ++ post).length = 0 := by
              rw [List.length_append]
              omega
            rw [List.getElem?_append_right (by rw [List.length_append]; omega), hj, hlast]
            exact hfound
          · have hj : (pre ++ post ++ [x]).length ≤ j := by
              simp only [List.length_append, List.length_singleton]
              omega
            rw [List.getElem?_eq_none (by omega), List.getElem?_eq_none hj]
            rfl
  cases m₂
  simp only [intrinsicLast, Module.mk.injEq]
  exact ⟨h.target, hfunctions, h.globals⟩

theorem Keeps.names {m' : Module} (h : m.Keeps m') :
    (m'.functions.map (·.name)).take m.functions.length = m.functions.map (·.name) := by
  apply List.ext_getElem?
  intro j
  rw [List.getElem?_take, List.getElem?_map, List.getElem?_map]
  cases hf : m.functions[j]? with
  | none =>
    have hj := List.getElem?_eq_none_iff.mp hf
    rw [if_neg (by omega)]
    rfl
  | some f =>
    obtain ⟨hj, -⟩ := List.getElem?_eq_some_iff.mp hf
    obtain ⟨g, hg, hsig⟩ := h j f hf
    have hg' : m'.functions[j]? = some g := hg
    rw [if_pos hj, hg']
    exact congrArg (fun sig => some sig.name) hsig

theorem Pairs.sourceNames (h : m.Pairs n n m m₂) {m' : Module} (hlength : m'.functions.length = n)
    (hkeeps : m'.Keeps m₂) : m.sourceFunctions.map (·.name) = m'.functions.map (·.name) := by
  rw [← hkeeps.names, h.eq_intrinsicLast, intrinsicLast, List.map_map, List.map_append,
    List.take_left' (by rw [List.length_map, h.sourceFunctions_length, hlength])]
  rfl

end Module

/-! ## Programs -/

theorem Tree.declarationsFrom_trees (cs : List (String × Int)) (ts : List Tree) :
    (Tree.declarationsFrom cs ts).map (·.2) = ts.filter (·.kind = .functionDeclaration) := by
  induction ts generalizing cs with
  | nil => rfl
  | cons t ts ih =>
    rw [declarationsFrom]
    by_cases h : t.kind = .functionDeclaration
    · simp only [List.filter_cons, h, decide_true, if_true, List.map_cons, ih]
    · rw [if_neg h, List.filter_cons_of_neg (by simp [h]), ih]

theorem Module.Compiles.source {m : Module} {cs : List (String × Int)} {t : Tree} {id : Nat}
    {g : Function} (h : m.Compiles cs t id g) : g.name = t.name ∧ g.isIntrinsic = false := by
  obtain ⟨_, _, _, -, -, -, -, hname, hvariadic⟩ := Lower.signature_ok h.signature
  refine ⟨hname, decide_eq_false fun hsig => ?_⟩
  have hintrinsic : g.variadic = true := by
    rw [show g.variadic = g.toSignature.variadic from rfl, hsig]
    rfl
  exact Bool.false_ne_true (hvariadic.symm.trans hintrinsic)

theorem Tree.lower_intrinsic {singlePass : Bool} {t : Tree} {m : Module}
    (h : (t.lower singlePass).result = .ok m) :
    m.functions.filter Function.isIntrinsic = [] ∨
      m.functions.filter Function.isIntrinsic =
        [.declare m.intrinsicPlace Intrinsic.signature] := by
  rcases (Tree.lower_distinct h).split with ⟨-, -, hnone⟩ | ⟨pre, x, post, hsplit, hpre, -, hone⟩
  · exact .inl hnone
  · right
    have hx : m.function? m.intrinsicPlace = some x := by
      rw [Module.function?, hsplit, ← hpre, List.getElem?_append_right (Nat.le_refl _),
        Nat.sub_self]
      rfl
    obtain ⟨-, ids, hassembles, hall⟩ := Tree.lower_assembles h
    rcases hall _ x hx with hid | hdeclare
    · obtain ⟨cs, f, g, -, hcompiles⟩ := hassembles.declares hid
      obtain rfl : g = x := Option.some.inj (hcompiles.function.symm.trans hx)
      exact absurd (m.isIntrinsic_place hx) (by simp [hcompiles.source.2])
    · rw [hone, ← hdeclare]

namespace Lower

theorem program_unregistered {site : Site} {m : Module} {u : LowerState}
    (h : program true (.node site ts) .initial = .ok m u) :
    ∃ v, items (ts.zip (ts.map fun _ => none)) (started site ts) = .ok () v ∧ m = v.module := by
  obtain ⟨ids, s, v, hs, hv, hm⟩ := program_runs h
  cases hs
  exact ⟨v, hv, hm⟩

end Lower

theorem Tree.lower_of_run {singlePass : Bool} {t : Tree} {m : Module} {u : LowerState}
    (h : Lower.program singlePass t .initial = .ok m u) : (t.lower singlePass).result = .ok m := by
  unfold Tree.lower
  rw [h]

theorem Module.Pairs.start {site : Site} {m m₂ : Module}
    (h : ((Tree.node site ts).lower true).result = .ok m) (hchanges : Lower.Changes .empty m₂)
    (hglobals : m₂.globals = []) (htarget : m₂.target = none)
    (hnames : m₂.functions.map (·.name) =
      (ts.filter (·.kind = .functionDeclaration)).map Tree.name) :
    m.Pairs (ts.filter (·.kind = .functionDeclaration)).length 0 .empty m₂ where
  whole := Tree.lower_distinct h
  globals := hglobals
  target := htarget
  numbered₁ := nofun
  numbered₂ := hchanges.numbered nofun
  distinct₁ := nofun
  distinct₂ := hchanges.distinct nofun
  found := nofun
  lengths := by
    have hlength := congrArg List.length hnames
    rw [List.length_map, List.length_map] at hlength
    exact .inl ⟨Nat.zero_le _, rfl, hlength⟩
  intrinsic := by
    intro hlt _ j e he hname
    have hmem : e.name ∈ m₂.functions.map (·.name) :=
      List.mem_map.mpr ⟨e, List.mem_of_getElem? he, rfl⟩
    rw [hnames] at hmem
    obtain ⟨c, hc, hcname⟩ := List.mem_map.mp hmem
    rw [← Tree.declarationsFrom_trees []] at hc
    obtain ⟨⟨cs, _⟩, hdecl, rfl⟩ := List.mem_map.mp hc
    obtain ⟨-, ids, hassembles, -⟩ := Tree.lower_assembles h
    -- The declaration and the intrinsic would both have the name.
    obtain ⟨id, g, hcompiles⟩ := hassembles.declared hdecl
    obtain ⟨hgname, hg⟩ := hcompiles.source
    have hthere := m.isIntrinsic_place (List.getElem?_eq_getElem hlt)
    have hthereName : (m.functions[m.intrinsicPlace]).name = Intrinsic.name :=
      congrArg Signature.name (of_decide_eq_true hthere)
    obtain rfl := (Tree.lower_distinct h) _ _ _ _ hcompiles.function
      (List.getElem?_eq_getElem hlt) (by rw [hgname, hthereName, hcname, hname])
    exact absurd (m.isIntrinsic_place hcompiles.function) (by simp [hg])

/-- If functions can be registered as they come, registering them all at first
makes no difference but for their order: those of the source come in the order
of their declarations, the intrinsic comes behind them, and calls follow. -/
theorem Tree.lower_modes_agree {t : Tree} {m : Module} (h : (t.lower true).result = .ok m) :
    (t.lower false).result = .ok m.intrinsicLast ∧
      (∀ id f, m.function? id = some f →
        m.intrinsicLast.function? (m.rank id) = some (f.renumber m.rank)) ∧
      m.sourceFunctions.map (·.name) = t.declarations.map (·.2.name) ∧
      (m.functions.filter Function.isIntrinsic = [] ∨
        m.functions.filter Function.isIntrinsic =
          [.declare m.intrinsicPlace Intrinsic.signature]) := by
  obtain ⟨u, hu⟩ := Tree.lower_ok h
  cases t with
  | node site ts =>
    have hkind := Lower.program_kind hu
    obtain ⟨v, hitems, rfl⟩ := Lower.program_unregistered hu
    obtain ⟨fs, entries, log, hdeclare, hnames⟩ :=
      Lower.declareAll_run 0 (Lower.items_admits hitems)
    obtain ⟨-, -, hwait, -⟩ := Lower.declareAll_waiting hdeclare
    have hchanges := (Lower.declareAll_changes hdeclare).1
    have hstart : (Lower.started site ts).Pairs v.module _ 0 _ :=
      ⟨.start h hchanges rfl rfl hnames, rfl, rfl, rfl, rfl, rfl⟩
    obtain ⟨t₂, hitems₂, hpairs⟩ := Lower.items_mirrored hstart hwait hitems (.refl _)
    rw [Nat.zero_add] at hpairs
    obtain ⟨u₂, hu₂⟩ : ∃ u, Lower.program false (.node site ts) .initial = .ok t₂.module u :=
      Lower.program_of_runs hkind hdeclare hitems₂
    have hlast := hpairs.module.eq_intrinsicLast
    refine ⟨hlast ▸ Tree.lower_of_run hu₂, ?_, ?_, Tree.lower_intrinsic h⟩
    · intro id f hf
      have hfound := hpairs.module.found id f hf
      rw [hlast, ← hpairs.module.sourceFunctions_length] at hfound
      exact hfound
    · have hkeeps := (Lower.items_changes hwait.registered hitems₂).extends.keeps
      have hlength := congrArg List.length hnames
      rw [List.length_map, List.length_map] at hlength
      rw [hpairs.module.sourceNames hlength hkeeps]
      refine hnames.trans ?_
      rw [← Tree.declarationsFrom_trees [] ts, List.map_map]
      rfl

def Tree.relay : Tree :=
  bare .program ""
    [bare .functionDeclaration "f"
        [bare .identifier "int" [],
          bare .parameters "" [bare .variableDeclaration "n" [bare .identifier "int" []]],
          bare .block ""
            [bare .functionCall "printf" [bare .identifier "n" []],
              bare .returnStatement "" [bare .identifier "n" []]]],
      bare .functionDeclaration "g"
        [bare .identifier "int" [],
          bare .parameters "" [bare .variableDeclaration "n" [bare .identifier "int" []]],
          bare .block ""
            [bare .functionCall "printf" [bare .functionCall "f" [bare .identifier "n" []]]]]]

theorem Tree.relay_modes_agree :
    ∃ m, (Tree.relay.lower true).result = .ok m ∧
      m.functions.map (·.name) = ["f", "printf", "g"] ∧
      (Tree.relay.lower false).result = .ok m.intrinsicLast ∧
      m.intrinsicLast.functions.map (·.name) = ["f", "g", "printf"] := by
  obtain ⟨m, hm⟩ : ∃ m, (Tree.relay.lower true).result = .ok m :=
    Lower.except_of_isOk (by decide +kernel)
  have hfirst : (Tree.relay.lower true).result.toOption.map (·.functions.map (·.name)) =
      some ["f", "printf", "g"] := by decide +kernel
  have hsecond : (Tree.relay.lower false).result.toOption.map (·.functions.map (·.name)) =
      some ["f", "g", "printf"] := by decide +kernel
  have hagree := (Tree.lower_modes_agree hm).1
  rw [hm] at hfirst
  rw [hagree] at hsecond
  exact ⟨m, hm, Option.some.inj hfirst, hagree, Option.some.inj hsecond⟩

end TreeFlow
