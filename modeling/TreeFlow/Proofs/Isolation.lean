import TreeFlow.Proofs.Modes
import TreeFlow.Proofs.Shifting

/-!
# Bodies on their own

All functions are registered before the first body is lowered, so what comes
before a body does not depend on it. What comes behind it only sees how many
formats there are and whether the intrinsic has been declared. The body adds one
format for each of its calls of the intrinsic, and whoever declares the intrinsic
does so behind all functions of the source. Two bodies of one function therefore
leave the others alone, up to the positions of formats.
-/

set_option autoImplicit false

namespace TreeFlow

variable {site : Site} {x : Unit}

def Tree.functionCount (ts : List Tree) : Nat := ts.countP (·.kind = .functionDeclaration)

theorem Tree.functionCount_cons (t : Tree) (ts : List Tree) :
    Tree.functionCount (t :: ts) =
      Tree.functionCount ts + if t.kind = .functionDeclaration then 1 else 0 := by
  simp only [Tree.functionCount, List.countP_cons, decide_eq_true_eq]

theorem Tree.functionCount_append (ts rest : List Tree) :
    Tree.functionCount (ts ++ rest) = Tree.functionCount ts + Tree.functionCount rest :=
  List.countP_append

namespace Lower

/-! ## Registration -/

theorem length_numbering (d : Nat) (ts : List Tree) : (numbering d ts).length = ts.length := by
  induction ts generalizing d with
  | nil => rfl
  | cons t ts ih =>
    rw [numbering]
    split
    · rw [List.length_cons, ih, List.length_cons]
    · rw [List.length_cons, ih, List.length_cons]

theorem numbering_append (d : Nat) (ts rest : List Tree) :
    numbering d (ts ++ rest) = numbering d ts ++ numbering (d + Tree.functionCount ts) rest := by
  induction ts generalizing d with
  | nil => rfl
  | cons t ts ih =>
    rw [List.cons_append, numbering, numbering, Tree.functionCount_cons]
    by_cases hkind : t.kind = .functionDeclaration
    · rw [if_pos hkind, if_pos hkind, if_pos hkind, ih, List.cons_append,
        show d + 1 + Tree.functionCount ts = d + (Tree.functionCount ts + 1) by omega]
    · rw [if_neg hkind, if_neg hkind, if_neg hkind, ih, List.cons_append, Nat.add_zero]

theorem zip_numbering {t : Tree} (hkind : t.kind = .functionDeclaration)
    (before behind : List Tree) :
    (before ++ t :: behind).zip (numbering 0 (before ++ t :: behind)) =
      before.zip (numbering 0 before) ++ (t, some (Tree.functionCount before)) ::
        behind.zip (numbering (Tree.functionCount before + 1) behind) := by
  rw [numbering_append, List.zip_append (length_numbering 0 before).symm, numbering,
    if_pos hkind, Nat.zero_add, List.zip_cons_cons]

variable {s s' t u v v' : LowerState}

def Blank (m : Module) : Prop :=
  ∀ j f, m.function? j = some f → ∃ sig, f = .declare j sig ∧ sig.variadic = false

theorem Blank.declare {m : Module} {sig : Signature} (h : Blank m) (hsig : sig.variadic = false) :
    Blank (m.declare sig) := by
  intro j f hf
  rw [Module.function?_declare] at hf
  split at hf
  · cases hf
    exact ⟨sig, rfl, hsig⟩
  · exact h j f hf

theorem declareAll_blank {k : Nat} {ts : List Tree} {ids : List (Option Nat)}
    (h : declareAll k ts s = .ok ids t) (hs : Blank s.module) :
    Blank t.module ∧ ids = numbering s.module.functions.length ts ∧
      t.module.functions.length = s.module.functions.length + Tree.functionCount ts := by
  induction ts generalizing k s ids with
  | nil =>
    cases h
    exact ⟨hs, rfl, rfl⟩
  | cons c ts ih =>
    rw [numbering, Tree.functionCount_cons]
    rcases declareAll_cons_ok h with ⟨hkind, id, u, ids', hu, hr, rfl⟩ | ⟨hkind, ids', hr, rfl⟩
    · rw [if_pos hkind, if_pos hkind]
      obtain ⟨sig, hsig, -, rfl, hm, -⟩ := declareFunction_ok hu
      obtain ⟨_, _, _, -, -, -, -, -, hvariadic⟩ := signature_ok hsig
      have hblank : Blank u.module := hm ▸ hs.declare hvariadic
      obtain ⟨hend, hids, hcount⟩ := ih hr hblank
      have hlength : (u.enrol k s.module.functions.length).module.functions.length =
          s.module.functions.length + 1 := by
        simp [LowerState.enrol, hm, Module.declare]
      rw [hlength] at hids hcount
      exact ⟨hend, by rw [hids], by omega⟩
    · rw [if_neg hkind, if_neg hkind]
      obtain ⟨hend, hids, hcount⟩ := ih hr hs
      exact ⟨hend, by rw [hids], hcount⟩

theorem declareAll_congr {ts ts' : List Tree} (hsig : signature site ts' = signature site ts)
    (before behind : List Tree) (k : Nat) :
    declareAll k (before ++ .node site ts' :: behind) =
      declareAll k (before ++ .node site ts :: behind) := by
  induction before generalizing k with
  | nil =>
    have hkind : (Tree.node site ts').kind = (Tree.node site ts).kind := rfl
    have hdeclare : declareFunction (Tree.node site ts').site (Tree.node site ts').children =
        declareFunction (Tree.node site ts).site (Tree.node site ts).children := by
      show declareFunction site ts' = declareFunction site ts
      unfold declareFunction
      rw [hsig]
    rw [List.nil_append, List.nil_append, declareAll, declareAll, hkind, hdeclare]
  | cons b before ih =>
    rw [List.cons_append, List.cons_append, declareAll, declareAll, ih]

theorem signature_congr {result params body body' : Tree} (hblock : body.kind = .block)
    (hblock' : body'.kind = .block) :
    signature site [result, params, body'] = signature site [result, params, body] := by
  have hrequire : site.require 2 .block body' = site.require 2 .block body := by
    unfold Site.require
    rw [if_pos hblock, if_pos hblock']
  rw [signature, signature, hrequire]

/-! ## One run -/

/-- There are `n` functions of the source, and those from `d` on have not been
lowered yet. -/
structure Awaits (n d : Nat) (m : Module) : Prop where
  registry : m.Registry n
  fresh : ∀ j, d ≤ j → j < n → ∃ sig, m.function? j = some (.declare j sig)

theorem Blank.awaits {m : Module} (h : Blank m) (hm : Changes .empty m) :
    Awaits m.functions.length 0 m where
  registry :=
    { numbered := hm.numbered nofun
      distinct := hm.distinct nofun
      length := Nat.le_refl _
      source := by
        intro j f hf _
        obtain ⟨sig, rfl, hsig⟩ := h j f hf
        exact hsig
      intrinsic := by
        intro j f hf hj
        obtain ⟨hlt, -⟩ := List.getElem?_eq_some_iff.mp hf
        exact absurd hlt (Nat.not_lt.mpr hj) }
  fresh j _ hj := by
    have hf := List.getElem?_eq_getElem hj
    obtain ⟨sig, hsig, -⟩ := h j _ hf
    exact ⟨sig, hsig ▸ hf⟩

theorem body_awaits {n d : Nat} {c : Tree} (h : Awaits n d s.module) (hd : d < n)
    (hr : body site d c s = .ok x v) :
    Awaits n (d + 1) v.module ∧ (∀ j, j ≠ d → j < n → v.module.function? j = s.module.function? j) ∧
      ∃ g, v.module.function? d = some g ∧
        v.module.globals.length = s.module.globals.length + g.callsTo n := by
  obtain ⟨sig, hf⟩ := h.fresh d (Nat.le_refl d) hd
  obtain ⟨hregistry, hformats⟩ := body_balanced h.registry hf hd rfl hr
  have hothers : ∀ j, j ≠ d → j < n → v.module.function? j = s.module.function? j := by
    intro j hj hjn
    obtain ⟨e, he⟩ := h.registry.found hjn
    rw [he]
    exact (body_passes hf hr).others j e hj he
  refine ⟨⟨hregistry, fun j hj hjn => ?_⟩, hothers, hformats⟩
  rw [hothers j (by omega) hjn]
  exact h.fresh j (by omega) hjn

theorem item_function {c : Tree} {id : Nat} (hkind : c.kind = .functionDeclaration) :
    item c (some id) s = .ok x v ↔
      ∃ result params b, c.children = [result, params, b] ∧ body c.site id b s = .ok x v := by
  have hitem : item c (some id) = bodyOf c.site c.children id := by
    simp only [item, hkind, function_some]
  rw [hitem]
  constructor
  · exact bodyOf_ok
  · rintro ⟨result, params, b, hchildren, hbody⟩
    rw [hchildren]
    exact hbody

theorem items_awaits {n d : Nat} {ts : List Tree} (h : Awaits n d s.module)
    (hn : d + Tree.functionCount ts ≤ n) (hr : items (ts.zip (numbering d ts)) s = .ok x v) :
    Awaits n (d + Tree.functionCount ts) v.module ∧
      ∀ j, j < d → v.module.function? j = s.module.function? j := by
  induction ts generalizing d s with
  | nil =>
    rw [numbering, List.zip_nil_left, items] at hr
    cases hr
    exact ⟨h, fun _ _ => rfl⟩
  | cons c ts ih =>
    rw [numbering] at hr
    rw [Tree.functionCount_cons] at hn ⊢
    by_cases hkind : c.kind = .functionDeclaration
    · rw [if_pos hkind, List.zip_cons_cons, items] at hr
      rw [if_pos hkind] at hn ⊢
      obtain ⟨_, u, hu, hr⟩ := bind_ok.mp hr
      obtain ⟨_, _, b, -, hbody⟩ := (item_function hkind).mp hu
      obtain ⟨hu, hold, -⟩ := body_awaits h (by omega) hbody
      obtain ⟨hrest, hkept⟩ := ih hu (by omega) hr
      rw [Nat.add_assoc, Nat.add_comm 1] at hrest
      refine ⟨hrest, fun j hj => ?_⟩
      rw [hkept j (by omega)]
      exact hold j (by omega) (by omega)
    · rw [if_neg hkind, List.zip_cons_cons, items] at hr
      rw [if_neg hkind] at hn ⊢
      obtain ⟨_, u, hu, hr⟩ := bind_ok.mp hr
      rcases item_form c none with ⟨-, hi⟩ | ⟨hother, -⟩ | hi
      · rw [hi] at hu
        rw [← directive_module hu] at h ⊢
        exact ih h hn hr
      · exact absurd hother hkind
      · rw [hi] at hu
        cases hu

theorem items_append {xs ys : List (Tree × Option Nat)} :
    items (xs ++ ys) s = .ok x t ↔ ∃ u, items xs s = .ok () u ∧ items ys u = .ok x t := by
  induction xs generalizing s with
  | nil =>
    rw [List.nil_append]
    constructor
    · exact fun h => ⟨s, rfl, h⟩
    · rintro ⟨u, hu, h⟩
      cases hu
      exact h
  | cons i xs ih =>
    rw [List.cons_append, items, bind_ok]
    constructor
    · rintro ⟨⟨⟩, w, hw, h⟩
      obtain ⟨u, hu, h⟩ := ih.mp h
      exact ⟨u, bind_ok.mpr ⟨(), w, hw, hu⟩, h⟩
    · rintro ⟨u, hu, h⟩
      obtain ⟨⟨⟩, w, hw, hu⟩ := bind_ok.mp hu
      exact ⟨(), w, hw, ih.mpr ⟨u, hu, h⟩⟩

/-! ## Two runs -/

structure Apart (k n d : Nat) (s s' : LowerState) : Prop where
  module : s.module.Shifted k n d s'.module
  constants : s'.scope.constants = s.scope.constants

/-- Two bodies of one function leave states that differ in this function and in
the number of formats only. -/
theorem body_apart {k n : Nat} {c c' : Tree} (h : Awaits n k s.module) (hk : k < n)
    (hr : body site k c s = .ok x v) (hr' : body site k c' s = .ok x v') :
    ∃ g g', v.module.function? k = some g ∧ v'.module.function? k = some g' ∧
      ∀ d, g'.callsTo n = g.callsTo n + d → Apart k n d v v' := by
  obtain ⟨hv, hold, g, hg, hformats⟩ := body_awaits h hk hr
  obtain ⟨hv', hold', g', hg', hformats'⟩ := body_awaits h hk hr'
  obtain ⟨sig, hf⟩ := h.fresh k (Nat.le_refl k) hk
  refine ⟨g, g', hg, hg', fun d hd => ⟨⟨hv.registry, hv'.registry, ?_, ?_, ?_, ?_⟩, ?_⟩⟩
  · intro j e e' he he'
    by_cases hj : j = k
    · subst hj
      obtain ⟨_, he₁, hsig, -⟩ := body_compiles hf hr
      obtain ⟨_, he₁', hsig', -⟩ := body_compiles hf hr'
      rw [he₁] at he
      rw [he₁'] at he'
      cases he
      cases he'
      rw [hsig, hsig']
    · by_cases hjn : j < n
      · rw [hold j hj hjn] at he
        rw [hold' j hj hjn, he] at he'
        cases he'
        rfl
      · rw [(hv.registry.intrinsic j e he (Nat.le_of_not_lt hjn)).2,
          (hv'.registry.intrinsic j e' he' (Nat.le_of_not_lt hjn)).2]
  · intro j hj
    have hjn := Nat.lt_trans hj hk
    rw [hold j (Nat.ne_of_lt hj) hjn, hold' j (Nat.ne_of_lt hj) hjn]
  · intro j hkj hjn
    -- A function without a body has no positions to shift.
    obtain ⟨sig', hsig'⟩ := h.fresh j (Nat.le_of_lt hkj) hjn
    rw [hold j (Nat.ne_of_gt hkj) hjn, hold' j (Nat.ne_of_gt hkj) hjn, hsig']
    rfl
  · omega
  · rw [(body_passes hf hr').constants, (body_passes hf hr).constants]

section Behind

variable {k n d : Nat}

theorem parameterScope_map {σ : Value → Value} {scope scope' : Scope}
    (hconstants : scope'.constants = scope.constants) {args : List (String × Value)}
    (hargs : ∀ a ∈ args, σ a.2 = a.2) :
    parameterScope scope' args = (parameterScope scope args).map σ := by
  unfold parameterScope
  have hfold : ∀ c : Scope, (args.foldl (fun c a => c.bind a.1 (.register a.2)) c).map σ =
      args.foldl (fun c a => c.bind a.1 (.register a.2)) (c.map σ) := by
    clear hconstants
    induction args with
    | nil => exact fun _ => rfl
    | cons a args ih =>
      intro c
      rw [List.foldl_cons, List.foldl_cons, ih fun b hb => hargs b (List.mem_cons_of_mem _ hb)]
      show args.foldl _ ((c.map σ).bind a.1 (.register (σ a.2))) = _
      rw [hargs a (List.mem_cons_self ..)]
  rw [hfold]
  refine congrArg (args.foldl _) ?_
  show (⟨[], scope'.constants⟩ : Scope) = ⟨[], scope.constants⟩
  rw [hconstants]

theorem opened_shifted {id : Nat} {f : Function} (h : Apart k n d s s') (hk : k < id) (hn : id < n)
    (hf : s.module.function? id = some f) :
    (opened site s id f).Shifted k n d 0 (opened site s' id (f.shift d)) where
  module := by
    have hset := h.module.set (g := f.addBlock "entry") hk hn hf rfl rfl
    rw [Function.shift_addBlock] at hset
    exact hset
  enough := Nat.zero_le _
  inside := ⟨id, rfl, hk, hn⟩
  function := rfl
  scope := by
    refine parameterScope_map h.constants fun a ha => ?_
    obtain ⟨_, -, rfl⟩ := List.mem_map.mp ha
    rfl
  block := congrArg some Function.length_shift
  loops := rfl
  depth := rfl

theorem body_follows {id : Nat} {c : Tree} (h : Apart k n d s s') (hk : k < id) (hn : id < n)
    (hr : body site id c s = .ok x v) :
    ∃ v', body site id c s' = .ok x v' ∧ Apart k n d v v' := by
  obtain ⟨f, hf⟩ := h.module.left.found hn
  have hf' : s'.module.function? id = some (f.shift d) := by
    rw [h.module.behind id hk hn, hf]
    rfl
  obtain ⟨u, hu, rfl⟩ := (body_ok hf).mp hr
  have hopened : (opened site s id f).Shifted k n d 0 (opened site s' id (f.shift d)) :=
    opened_shifted h hk hn hf
  obtain ⟨u', hu', hshifted⟩ := (shifting k n d).bodyCode site _ _ c hopened hu
  refine ⟨_, (body_ok hf').mpr ⟨u', ?_, rfl⟩, hshifted.module, ?_⟩
  · rw [Function.length_shift]
    exact hu'
  · show u'.scope.constants = u.scope.constants
    rw [hshifted.scope]
    rfl

theorem directive_follows (site : Site) (ts : List Tree) :
    Follows (fun _ : Unit => Apart k n d) id (directive site ts) (directive site ts) := by
  unfold directive
  by_cases hname : site.name = "#define"
  · rw [if_pos hname]
    match ts with
    | [name, value] =>
      refine (follows_lift _).bind fun _ => ?_
      by_cases hkind : value.kind ≠ .literal
      · simp only [if_pos hkind]
        exact follows_throw _ _ _
      · simp only [if_neg hkind]
        refine (follows_lift _).bind fun i => ?_
        intro _ s s' t a h hr
        cases hr
        exact ⟨_, rfl, h.module, congrArg ((name.name, i) :: ·) h.constants⟩
    | [] | [_] | _ :: _ :: _ :: _ => exact follows_throw _ _ _
  · rw [if_neg hname]
    exact follows_throw _ _ _

theorem items_follow {d₀ : Nat} {ts : List Tree} (h : Apart k n d s s') (hk : k < d₀)
    (hn : d₀ + Tree.functionCount ts ≤ n) (hr : items (ts.zip (numbering d₀ ts)) s = .ok x v) :
    ∃ v', items (ts.zip (numbering d₀ ts)) s' = .ok x v' ∧ Apart k n d v v' := by
  induction ts generalizing d₀ s s' with
  | nil =>
    rw [numbering, List.zip_nil_left, items] at hr ⊢
    cases hr
    exact ⟨s', rfl, h⟩
  | cons c ts ih =>
    rw [numbering] at hr ⊢
    rw [Tree.functionCount_cons] at hn
    by_cases hkind : c.kind = .functionDeclaration
    · rw [if_pos hkind, List.zip_cons_cons, items] at hr ⊢
      rw [if_pos hkind] at hn
      obtain ⟨_, u, hu, hr⟩ := bind_ok.mp hr
      obtain ⟨result, params, b, hchildren, hbody⟩ := (item_function hkind).mp hu
      obtain ⟨u', hu', hapart⟩ := body_follows h hk (by omega) hbody
      obtain ⟨v', hv', hend⟩ := ih hapart (by omega) (by omega) hr
      have hitem' := (item_function hkind).mpr ⟨result, params, b, hchildren, hu'⟩
      exact ⟨v', bind_ok.mpr ⟨_, u', hitem', hv'⟩, hend⟩
    · rw [if_neg hkind, List.zip_cons_cons, items] at hr ⊢
      rw [if_neg hkind] at hn
      obtain ⟨_, u, hu, hr⟩ := bind_ok.mp hr
      rcases item_form c none with ⟨-, hi⟩ | ⟨hother, -⟩ | hi
      · rw [hi] at hu ⊢
        obtain ⟨u', hu', hapart⟩ := directive_follows _ _ (i := ()) h hu
        obtain ⟨v', hv', hend⟩ := ih hapart hk hn hr
        exact ⟨v', bind_ok.mpr ⟨_, u', hu', hv'⟩, hend⟩
      · exact absurd hother hkind
      · rw [hi] at hu
        cases hu

end Behind

/-! ## Programs -/

theorem program_default {ts : List Tree} {m : Module}
    (h : program false (.node site ts) .initial = .ok m u) :
    ∃ ids s v, declareAll 0 ts (started site ts) = .ok ids s ∧ items (ts.zip ids) s = .ok () v ∧
      m = v.module :=
  program_runs h

/-- The run of a program, taken apart at one of its functions: up to the function
in state `u`, behind it in state `v`. -/
structure Splits (start : LowerState) (before behind : List Tree) (c : Tree) (b : Tree)
    (s u v w : LowerState) : Prop where
  declared : ∃ ids, declareAll 0 (before ++ c :: behind) start = .ok ids s
  former : items (before.zip (numbering 0 before)) s = .ok () u
  body : body c.site (Tree.functionCount before) b u = .ok () v
  latter : items (behind.zip (numbering (Tree.functionCount before + 1) behind)) v = .ok () w
  awaits : Awaits (Tree.functionCount before + 1 + Tree.functionCount behind)
    (Tree.functionCount before) u.module
  kept : w.module.function? (Tree.functionCount before) =
    v.module.function? (Tree.functionCount before)
  block : b.kind = .block

theorem body_block {id : Nat} {f : Function} {c : Tree} (hf : s.module.function? id = some f)
    (hr : body site id c s = .ok x v) : c.kind = .block := by
  rw [body_run hf] at hr
  obtain ⟨_, _, hblock, -⟩ := bind_ok.mp hr
  exact (block_ok hblock).1

theorem lower_splits {before behind : List Tree} {c : Tree} {m : Module}
    (hkind : c.kind = .functionDeclaration)
    (h : ((Tree.node site (before ++ c :: behind)).lower false).result = .ok m) :
    ∃ result params b s u v w, c.children = [result, params, b] ∧ m = w.module ∧
      Splits (started site (before ++ c :: behind)) before behind c b s u v w := by
  obtain ⟨_, hrun⟩ := Tree.lower_ok h
  obtain ⟨ids, s, w, hs, hw, rfl⟩ := program_default hrun
  obtain ⟨hblank, hids, hlength⟩ := declareAll_blank hs nofun
  have hn : s.module.functions.length =
      Tree.functionCount before + 1 + Tree.functionCount behind := by
    rw [hlength, Tree.functionCount_append, Tree.functionCount_cons, if_pos hkind]
    show 0 + _ = _
    omega
  have hawaits := hblank.awaits (declareAll_changes hs).1
  rw [hn] at hawaits
  have hzip : (before ++ c :: behind).zip ids = _ := hids ▸ zip_numbering hkind before behind
  rw [hzip] at hw
  obtain ⟨u, hu, hw⟩ := items_append.mp hw
  rw [items] at hw
  obtain ⟨⟨⟩, v, hv, hw⟩ := bind_ok.mp hw
  obtain ⟨result, params, b, hchildren, hbody⟩ := (item_function hkind).mp hv
  obtain ⟨hformer, -⟩ := items_awaits hawaits (by omega) hu
  rw [Nat.zero_add] at hformer
  obtain ⟨hbehind, -⟩ := body_awaits hformer (by omega) hbody
  obtain ⟨-, hkept⟩ := items_awaits hbehind (Nat.le_refl _) hw
  obtain ⟨_, hf⟩ := hformer.registry.found (j := Tree.functionCount before) (by omega)
  exact ⟨result, params, b, s, u, v, w, hchildren, rfl, ⟨ids, hs⟩, hu, hbody, hw, hformer,
    hkept _ (Nat.lt_succ_self _), body_block hf hbody⟩

end Lower

/-! ## Isolation -/

theorem Module.Registry.intrinsicPlace {m : Module} {n : Nat} (h : m.Registry n) :
    m.intrinsicPlace = n := by
  by_cases hlength : m.functions.length = n
  · have hsource : ∀ f ∈ m.functions, f.isIntrinsic = false := by
      intro f hf
      obtain ⟨j, hj⟩ := List.getElem?_of_mem hf
      obtain ⟨hlt, -⟩ := List.getElem?_eq_some_iff.mp hj
      have hvariadic := h.source j f hj (hlength ▸ hlt)
      refine decide_eq_false fun hsig => ?_
      rw [hsig] at hvariadic
      cases hvariadic
    rw [Module.intrinsicPlace, List.findIdx_eq_length_of_false hsource, hlength]
  · have hlt : n < m.functions.length := Nat.lt_of_le_of_ne h.length (Ne.symm hlength)
    have hf := List.getElem?_eq_getElem hlt
    refine h.distinct.place hf ?_
    rw [(h.intrinsic n _ hf (Nat.le_refl n)).2]
    rfl

/-- Of `n` functions of the source, those before `k` are the same in both
modules, function `k` has the same signature, and in those behind `k` only the
positions of globals differ, by as much as the numbers of calls of the intrinsic
in both versions of function `k`. Equal names have equal identities. -/
structure Module.Isolated (k n : Nat) (m m' : Module) : Prop where
  before : ∀ j, j < k → ∃ f, m.function? j = some f ∧ m'.function? j = some f
  behind : ∃ g g', m.function? k = some g ∧ m'.function? k = some g' ∧
    g'.toSignature = g.toSignature ∧ g'.id = g.id ∧
      ∀ j, k < j → j < n → ∃ f f', m.function? j = some f ∧ m'.function? j = some f' ∧
        f.shift (g'.callsTo m'.intrinsicPlace) = f'.shift (g.callsTo m.intrinsicPlace)
  names : ∀ name i j, m.find? name = some i → m'.find? name = some j → i = j

theorem Module.Isolated.symm {k n : Nat} {m m' : Module} (h : m.Isolated k n m') :
    m'.Isolated k n m := by
  obtain ⟨before, ⟨g, g', hg, hg', hsig, hid, hbehind⟩, names⟩ := h
  refine ⟨fun j hj => ?_, ⟨g', g, hg', hg, hsig.symm, hid.symm, fun j hkj hjn => ?_⟩,
    fun name i j hi hj => (names name j i hj hi).symm⟩
  · obtain ⟨f, hf, hf'⟩ := before j hj
    exact ⟨f, hf', hf⟩
  · obtain ⟨f, f', hf, hf', hshift⟩ := hbehind j hkj hjn
    exact ⟨f', f, hf', hf, hshift.symm⟩

namespace Module.Shifted

variable {m m' : Module} {k n d : Nat}

theorem names (h : m.Shifted k n d m') {name : String} {i j : Nat} (hi : m.find? name = some i)
    (hj : m'.find? name = some j) : i = j := by
  obtain ⟨f, hf, rfl⟩ := h.left.numbered.find? hi
  obtain ⟨f', hf', hname⟩ := h.right.numbered.find? hj
  by_cases hin : i < n
  · obtain ⟨e, he⟩ := h.right.found hin
    have hsig := h.signature i f e hf he
    exact h.right.distinct i j e f' he hf' ((congrArg Signature.name hsig).trans hname.symm)
  · by_cases hjn : j < n
    · obtain ⟨e, he⟩ := h.left.found hjn
      have hsig := h.signature j e f' he hf'
      exact h.left.distinct i j f e hf he (hname.symm.trans (congrArg Signature.name hsig))
    · rw [(h.left.intrinsic i f hf (Nat.le_of_not_lt hin)).1,
        (h.right.intrinsic j f' hf' (Nat.le_of_not_lt hjn)).1]

theorem isolated {g g' : Function} (h : m.Shifted k n d m') (hk : k < n)
    (hg : m.function? k = some g) (hg' : m'.function? k = some g')
    (hd : g'.callsTo n = g.callsTo n + d) : m.Isolated k n m' where
  before j hj := by
    obtain ⟨f, hf⟩ := h.left.found (Nat.lt_trans hj hk)
    exact ⟨f, hf, (h.before j hj).trans hf⟩
  behind := by
    refine ⟨g, g', hg, hg', h.signature k g g' hg hg', ?_, fun j hkj hjn => ?_⟩
    · rw [h.left.numbered k g hg, h.right.numbered k g' hg']
    · obtain ⟨f, hf⟩ := h.left.found hjn
      refine ⟨f, f.shift d, hf, ?_, ?_⟩
      · rw [h.behind j hkj hjn, hf]
        rfl
      · rw [h.left.intrinsicPlace, h.right.intrinsicPlace, Function.shift_shift, hd, Nat.add_comm]
  names _ _ _ hi hj := h.names hi hj

end Module.Shifted

namespace Lower

theorem Splits.isolated {start s u v v' w w' : LowerState} {before behind : List Tree}
    {c c' b b' : Tree} (h : Splits start before behind c b s u v w)
    (h' : Splits start before behind c' b' s u v' w') (hsite : c'.site = c.site)
    {g g' : Function} (hg : v.module.function? (Tree.functionCount before) = some g)
    (hg' : v'.module.function? (Tree.functionCount before) = some g')
    (hle : g.callsTo (Tree.functionCount before + 1 + Tree.functionCount behind) ≤
      g'.callsTo (Tree.functionCount before + 1 + Tree.functionCount behind)) :
    w.module.Isolated (Tree.functionCount before)
      (Tree.functionCount before + 1 + Tree.functionCount behind) w'.module := by
  have hk : Tree.functionCount before <
      Tree.functionCount before + 1 + Tree.functionCount behind := by omega
  obtain ⟨d, hd⟩ := Nat.exists_eq_add_of_le hle
  have hbody' := h'.body
  rw [hsite] at hbody'
  obtain ⟨e, e', he, he', hapart⟩ := body_apart h.awaits hk h.body hbody'
  obtain rfl : g = e := Option.some.inj (hg.symm.trans he)
  obtain rfl : g' = e' := Option.some.inj (hg'.symm.trans he')
  obtain ⟨w₁, hw₁, hend⟩ := items_follow (hapart d hd) (Nat.lt_succ_self _) (Nat.le_refl _) h.latter
  obtain rfl : w' = w₁ := by
    rw [h'.latter] at hw₁
    cases hw₁
    rfl
  exact hend.module.isolated hk (h.kept.trans hg) (h'.kept.trans hg') hd

end Lower

/-- Two programs that differ in the body of one function differ in this function
and in the positions of formats behind it. -/
theorem Tree.lower_isolated {site fs : Site} {before behind : List Tree}
    {result params body body' : Tree} {m m' : Module} (hkind : fs.kind = .functionDeclaration)
    (h : ((Tree.node site (before ++ .node fs [result, params, body] :: behind)).lower
      false).result = .ok m)
    (h' : ((Tree.node site (before ++ .node fs [result, params, body'] :: behind)).lower
      false).result = .ok m') :
    m.Isolated (Tree.functionCount before)
      (Tree.functionCount before + 1 + Tree.functionCount behind) m' := by
  obtain ⟨_, _, _, s, u, v, w, hchildren, rfl, hrun⟩ :=
    Lower.lower_splits (c := .node fs [result, params, body]) hkind h
  obtain ⟨_, _, _, s', u', v', w', hchildren', rfl, hrun'⟩ :=
    Lower.lower_splits (c := .node fs [result, params, body']) hkind h'
  cases hchildren
  cases hchildren'
  have hdeclare : Lower.declareAll 0 (before ++ .node fs [result, params, body'] :: behind) =
      Lower.declareAll 0 (before ++ .node fs [result, params, body] :: behind) :=
    Lower.declareAll_congr (Lower.signature_congr hrun.block hrun'.block) before behind 0
  have hstart : Lower.started site (before ++ .node fs [result, params, body'] :: behind) =
      Lower.started site (before ++ .node fs [result, params, body] :: behind) := by
    simp only [Lower.started, List.length_append, List.length_cons]
  rw [hstart] at hrun'
  obtain rfl : s = s' := by
    obtain ⟨_, hs⟩ := hrun.declared
    obtain ⟨_, hs'⟩ := hrun'.declared
    rw [hdeclare, hs] at hs'
    cases hs'
    rfl
  obtain rfl : u = u' := by
    have hu := hrun'.former
    rw [hrun.former] at hu
    cases hu
    rfl
  have hk : Tree.functionCount before <
      Tree.functionCount before + 1 + Tree.functionCount behind := by omega
  obtain ⟨-, -, g, hg, -⟩ := Lower.body_awaits hrun.awaits hk hrun.body
  obtain ⟨-, -, g', hg', -⟩ := Lower.body_awaits hrun'.awaits hk hrun'.body
  rcases Nat.le_total
    (g.callsTo (Tree.functionCount before + 1 + Tree.functionCount behind))
    (g'.callsTo (Tree.functionCount before + 1 + Tree.functionCount behind)) with hle | hle
  · exact hrun.isolated hrun' rfl hg hg' hle
  · exact (hrun'.isolated hrun rfl hg' hg hle).symm

namespace Tree

def routine (name : String) (body : Tree) : Tree :=
  bare .functionDeclaration name [bare .identifier "int" [], bare .parameters "" [], body]

def printing (ns : List String) : Tree :=
  bare .block "" (ns.map fun n => bare .functionCall "printf" [bare .literal n []])

def chorus (body : Tree) : Tree :=
  bare .program ""
    ([routine "f" (printing ["1"])] ++ routine "g" body :: [routine "h" (printing ["2", "3"])])

end Tree

theorem Tree.chorus_isolated :
    ∃ m m', ((Tree.chorus (Tree.printing [])).lower false).result = .ok m ∧
      ((Tree.chorus (Tree.printing ["4", "5"])).lower false).result = .ok m' ∧
      m.globals.length = 3 ∧ m'.globals.length = 5 ∧ m.Isolated 1 3 m' := by
  obtain ⟨m, hm⟩ : ∃ m, ((Tree.chorus (Tree.printing [])).lower false).result = .ok m :=
    Lower.except_of_isOk (by decide +kernel)
  obtain ⟨m', hm'⟩ : ∃ m, ((Tree.chorus (Tree.printing ["4", "5"])).lower false).result = .ok m :=
    Lower.except_of_isOk (by decide +kernel)
  have hglobals : ((Tree.chorus (Tree.printing [])).lower false).result.toOption.map
      (·.globals.length) = some 3 := by decide +kernel
  have hglobals' : ((Tree.chorus (Tree.printing ["4", "5"])).lower false).result.toOption.map
      (·.globals.length) = some 5 := by decide +kernel
  rw [hm] at hglobals
  rw [hm'] at hglobals'
  exact ⟨m, m', hm, hm', Option.some.inj hglobals, Option.some.inj hglobals',
    Tree.lower_isolated rfl hm hm'⟩

end TreeFlow
