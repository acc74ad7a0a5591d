import TreeFlow.Proofs.Registration

/-!
# Which node an error is charged to

Lowering a tree fails only because of the tree. The builder never refuses an
operation of a run that starts where the body of a function may start, and
every error carries the site of a node of the tree.
-/

set_option autoImplicit false

namespace TreeFlow

variable {site : Site} {ts : List Tree}

/-! ## The sites of a tree -/

namespace Tree

def sites (t : Tree) : List Site := (t.preorder 0).map Prod.snd

def sitesAll (ts : List Tree) : List Site := ts.flatMap sites

theorem map_preorderAll (d : Nat) (h : ∀ t ∈ ts, ∀ d, (t.preorder d).map Prod.snd = t.sites) :
    (preorderAll d ts).map Prod.snd = sitesAll ts := by
  induction ts with
  | nil => rfl
  | cons t ts ih =>
    rw [preorderAll, List.map_append, h t (by simp), ih fun t ht => h t (by simp [ht])]
    rfl

theorem map_preorder (t : Tree) (d : Nat) : (t.preorder d).map Prod.snd = t.sites := by
  induction t using Tree.induct generalizing d with
  | node site ts ih =>
    simp only [sites, preorder, List.map_cons, map_preorderAll _ ih]

theorem sites_node (site : Site) (ts : List Tree) :
    (node site ts).sites = site :: sitesAll ts := by
  simp only [sites, preorder, List.map_cons, map_preorderAll _ fun t _ => map_preorder t]

theorem site_mem_sites (t : Tree) : t.site ∈ t.sites := by
  cases t
  rw [sites_node]
  simp [site]

theorem sites_subset {t : Tree} (h : t ∈ ts) : t.sites ⊆ sitesAll ts :=
  fun _ hs => List.mem_flatMap.mpr ⟨t, h, hs⟩

end Tree

/-- The error is not the builder's and names one of the sites. -/
structure LowerError.ChargedTo (e : LowerError) (sites : List Site) : Prop where
  kind : e.cause.kind ≠ .invalidIr
  site : ∃ s ∈ sites, e.site = some s

namespace Lower

open TreeFlow.Tree (sitesAll)

variable {α β : Type} {S : List Site} {s : LowerState}

def Blames (S : List Site) (r : EStateM.Result LowerError LowerState α) : Prop :=
  ∀ e u, r = .error e u → e.ChargedTo S

def Charges (S : List Site) (x : Except LowerError α) : Prop := ∀ e, x = .error e → e.ChargedTo S

theorem charged_fault {c : Cause} (hs : site ∈ S) (hc : c.kind ≠ .invalidIr) :
    (site.fault c).ChargedTo S := ⟨hc, site, hs, rfl⟩

theorem blames_ok (a : α) (u : LowerState) : Blames S (.ok a u) := by
  intro e v h
  cases h

theorem blames_fault {c : Cause} (hs : site ∈ S) (hc : c.kind ≠ .invalidIr) :
    Blames S ((throw (site.fault c) : Lower α) s) := by
  intro e u h
  rw [throw_run] at h
  cases h
  exact charged_fault hs hc

theorem blames_bind {x : Lower α} {k : α → Lower β} (hx : Blames S (x s))
    (hk : ∀ a u, x s = .ok a u → Blames S (k a u)) : Blames S ((x >>= k) s) := by
  intro e u h
  rcases bind_error.mp h with h | ⟨a, t, ha, h⟩
  · exact hx e u h
  · exact hk a t ha e u h

theorem blames_lift {x : Except LowerError α} (h : Charges S x) : Blames S (lift x s) := by
  intro e u he
  exact h e (lift_error.mp he).1

theorem blames_nested {x : Lower α} (hs : site ∈ S) (hx : Blames S (x (deeper s))) :
    Blames S (nested site x s) := by
  by_cases h : s.depth < maxDepth
  · rw [nested_of_shallow h]
    intro e u he
    obtain ⟨v, hv, -⟩ := ensuring_error.mp he
    exact hx e v hv
  · rw [nested_of_deep (Nat.not_lt.mp h)]
    intro e u he
    cases he
    exact charged_fault hs nofun

theorem blames_error {e : LowerError} {u : LowerState} (h : e.ChargedTo S) :
    Blames S (.error e u : EStateM.Result LowerError LowerState α) := by
  intro e' u' he
  cases he
  exact h

/-! ## Checks of a node -/

theorem charges_ok (a : α) : Charges S (.ok a) := by
  intro e h
  cases h

theorem charges_fault {c : Cause} (hs : site ∈ S) (hc : c.kind ≠ .invalidIr) :
    Charges S (.error (site.fault c) : Except LowerError α) := by
  intro e he
  cases he
  exact charged_fault hs hc

theorem charges_bind {x : Except LowerError α} {k : α → Except LowerError β} (hx : Charges S x)
    (hk : ∀ a, x = .ok a → Charges S (k a)) : Charges S (x >>= k) := by
  cases x with
  | error e => exact fun e' he => hx e' (by cases he; rfl)
  | ok a => exact hk a rfl

section Checks

variable (hs : site ∈ S)
include hs

theorem charges_literal : Charges S site.literal := by
  unfold Site.literal
  split
  · exact charges_ok _
  · exact charges_fault hs nofun

theorem charges_require (i : Nat) (k : Kind) (t : Tree) : Charges S (site.require i k t) := by
  unfold Site.require
  split
  · exact charges_ok _
  · exact charges_fault hs nofun

theorem charges_type : Charges S (Ty.ofSite site) := by
  unfold Ty.ofSite
  split
  · split
    · exact charges_ok _
    · exact charges_fault hs nofun
  · exact charges_fault hs nofun

theorem charges_operator : Charges S (Operator.ofSite site) := by
  unfold Operator.ofSite
  split
  · exact charges_ok _
  · exact charges_fault hs nofun

theorem charges_update : Charges S (Update.ofSite site) := by
  unfold Update.ofSite
  split
  · exact charges_ok _
  · exact charges_fault hs nofun

theorem charges_checkStore (got slot : Ty) : Charges S (checkStore site got slot) := by
  unfold checkStore
  split
  · exact charges_ok _
  · exact charges_fault hs nofun

theorem charges_checkCount (variadic : Bool) (m n : Nat) :
    Charges S (checkCount site variadic m n) := by
  unfold checkCount
  split
  · exact charges_fault hs nofun
  · exact charges_ok _

theorem charges_checkArgument (c : Callee) (i : Nat) (v : Value) :
    Charges S (checkArgument c site i v) := by
  unfold checkArgument
  split
  · exact charges_ok _
  · split
    · exact charges_ok _
    · exact charges_fault hs nofun

end Checks

/-! ## Instructions -/

theorem blames_define (hs : Unended s) (ty : Ty) (make : Nat → Instr) :
    Blames S (inBlock (fun b => Build.define b ty make) s) := by
  obtain ⟨id, f, b, k, hat, ho⟩ := hs
  rw [define_ok.mpr ⟨id, f, b, k, hat, ho, rfl, rfl⟩]
  exact blames_ok _ _

theorem blames_store (hs : Unended s) (v p : Value) : Blames S (store v p s) := by
  obtain ⟨id, f, b, k, hat, ho⟩ := hs
  change Blames S (inBlock (fun b => Build.perform b (.store v p)) s)
  rw [perform_ok (u := ()).mpr ⟨id, f, b, k, hat, ho, rfl⟩]
  exact blames_ok _ _

theorem blames_terminate (hs : Unended s) {x : Terminator}
    (hx : ∀ j ∈ x.successors, Grown (j + 1) s) :
    Blames S (inBlock (fun b => Build.terminate b x) s) := by
  obtain ⟨id, f, b, k, hat, ho⟩ := hs
  have ht : ∀ j ∈ x.successors, j < f.bodies.length := by
    intro j hj
    obtain ⟨id', f', hin, hf⟩ := hx j hj
    obtain ⟨-, rfl⟩ := hat.toIn.unique hin
    exact hf
  rw [terminate_ok (u := ()).mpr ⟨id, f, b, k, hat, ho, ht, rfl⟩]
  exact blames_ok _ _

theorem blames_call (hs : Unended s) {id : Nat} {f : Function}
    (hf : s.module.function? id = some f) (args : List Value) : Blames S (call id args s) := by
  obtain ⟨j, g, b, k, hat, ho⟩ := hs
  unfold call
  rw [get_bind, hf]
  dsimp only
  have hr : ∃ v g', Build.call b id f.ret args g = .ok v g' := by
    cases hv : f.ret.isVoid with
    | true =>
      exact ⟨_, _, Build.call_ok.mpr ⟨k, hat.block, ho, by rw [if_pos hv]; exact ⟨rfl, rfl⟩⟩⟩
    | false =>
      exact ⟨_, _, Build.call_ok.mpr
        ⟨k, hat.block, ho, by rw [if_neg (by simp [hv])]; exact ⟨rfl, rfl⟩⟩⟩
  obtain ⟨v, g', hr⟩ := hr
  rw [inBlock_ok.mpr ⟨j, g, b, g', hat.toIn, hat.cursor, hr, rfl⟩]
  exact blames_ok _ _

/-! ## Expressions -/

theorem blames_findCallee (hs : site ∈ S) : Blames S (findCallee site s) := by
  cases hf : s.module.find? site.name with
  | some id =>
    rw [findCallee_of_some hf]
    exact blames_ok _ _
  | none =>
    by_cases hn : site.name = Intrinsic.name
    · rw [findCallee_of_intrinsic hf hn]
      exact blames_ok _ _
    · rw [findCallee_of_none hf hn]
      exact blames_fault hs nofun

theorem findCallee_found {id : Nat} {u : LowerState} (h : findCallee site s = .ok id u)
    (hn : s.module.Numbered) :
    ∃ f, u.module.function? id = some f := by
  cases hf : s.module.find? site.name with
  | some j =>
    rw [findCallee_of_some hf] at h
    cases h
    obtain ⟨f, hf, -⟩ := hn.find? hf
    exact ⟨f, hf⟩
  | none =>
    by_cases hi : site.name = Intrinsic.name
    · rw [findCallee_of_intrinsic hf hi] at h
      cases h
      exact ⟨_, List.getElem?_concat_length ..⟩
    · rw [findCallee_of_none hf hi] at h
      cases h

theorem blames_callee (hs : site ∈ S) (hr : Ready s) (n : Nat) : Blames S (callee site n s) := by
  cases hc : findCallee site s with
  | error e u =>
    intro e' u' h
    rw [callee, bind_of_error hc] at h
    cases h
    exact blames_findCallee hs e u hc
  | ok id u =>
    obtain ⟨f, hf⟩ := findCallee_found hc hr.numbered
    cases hi : f.variadic && site.name == Intrinsic.name with
    | true =>
      rw [callee_of_intrinsic hc hf hi]
      split
      · exact blames_ok _ _
      · exact blames_error (charges_checkCount hs _ _ _ _ ‹_›)
    | false =>
      rw [callee_of_plain hc hf hi]
      split
      · exact blames_ok _ _
      · exact blames_error (charges_checkCount hs _ _ _ _ ‹_›)

theorem callee_found {n : Nat} {c : Callee} {u : LowerState} (h : callee site n s = .ok c u)
    (hn : s.module.Numbered) :
    ∃ f, u.module.function? c.id = some f := by
  obtain ⟨id, t, hid, -⟩ := bind_ok.mp h
  obtain ⟨f, hf⟩ := findCallee_found hid hn
  cases hi : f.variadic && site.name == Intrinsic.name with
  | true =>
    rw [callee_of_intrinsic hid hf hi] at h
    split at h
    · cases h
      exact ⟨f, hf⟩
    · cases h
  | false =>
    rw [callee_of_plain hid hf hi] at h
    split at h
    · cases h
      exact ⟨f, hf⟩
    · cases h

theorem blames_name (hs : site ∈ S) (hu : Unended s) : Blames S (name site s) := by
  rw [name_run]
  split
  · exact blames_ok _ _
  · exact blames_define hu _ _
  · exact blames_ok _ _
  · exact blames_fault hs nofun

theorem blames_operate (hs : site ∈ S) (hu : Unended s) (op : Operator) (l r : Value) :
    Blames S (operate site op l r s) := by
  unfold operate
  split
  · cases op with
    | arith op => exact blames_define hu _ _
    | compare test => exact blames_define hu _ _
  · exact blames_fault hs nofun

theorem blames_arguments (hts : sitesAll ts ⊆ S)
    (h : ∀ t ∈ ts, ∀ s, Poised s → Blames S (expression t s)) (hs : Poised s) (c : Callee)
    (args : List Value) : Blames S (arguments c args ts s) := by
  induction ts generalizing args s with
  | nil =>
    rw [arguments]
    exact blames_ok _ _
  | cons t ts ih =>
    rw [arguments]
    have ht : t.site ∈ S := hts (Tree.sites_subset (List.mem_cons_self ..) t.site_mem_sites)
    refine blames_bind (h t (by simp) s hs) fun v u hu => ?_
    refine blames_bind (blames_lift (charges_checkArgument ht _ _ _)) fun _ w hw => ?_
    obtain ⟨-, rfl⟩ := lift_ok.mp hw
    refine ih (fun x hx => hts ?_) (fun t ht => h t (by simp [ht])) ?_ _
    · exact List.mem_append_right _ hx
    · exact Emitting.poised (emitting_expression t) hu hs

theorem blames_functionCall (hsite : site ∈ S) (hts : sitesAll ts ⊆ S)
    (h : ∀ t ∈ ts, ∀ s, Poised s → Blames S (expression t s)) (hs : Poised s) :
    Blames S (functionCall (.node site ts) s) := by
  refine blames_bind (blames_callee hsite hs.ready _) fun c u hu => ?_
  have hpu := Emitting.poised (emitting_callee _ _) hu hs
  refine blames_bind (blames_arguments hts h hpu c _) fun args v hv => ?_
  have hemit : Emitting (arguments c c.leading ts) :=
    emitting_arguments (fun t _ => emitting_expression t) c c.leading
  obtain ⟨f, hf⟩ := callee_found hu hs.ready.numbered
  obtain ⟨_, _, _, _, hat⟩ := hpu.ready.here
  obtain ⟨g, hg, -⟩ := (Emissions.extends (hemit.run hv) hat.toIn).functions _ _ hf
  exact blames_call (Emitting.poised hemit hv hpu).unended hg args

theorem blames_expression (t : Tree) (ht : t.sites ⊆ S) (hs : Poised s) :
    Blames S (expression t s) := by
  induction t using Tree.induct generalizing s with
  | node site ts ih =>
    rw [Tree.sites_node] at ht
    have hsite : site ∈ S := ht (by simp)
    have hts : sitesAll ts ⊆ S := fun x hx => ht (by simp [hx])
    replace ih : ∀ t ∈ ts, ∀ s, Poised s → Blames S (expression t s) :=
      fun t hm s hs => ih t hm (fun x hx => hts (Tree.sites_subset hm hx)) hs
    obtain ⟨act, hform, heq⟩ := expression_form site ts
    rw [heq]
    refine blames_nested hsite ?_
    replace hs : Poised (deeper s) := Emissions.poised (.single (.depth _)) hs
    cases hform with
    | literal =>
      refine blames_lift ?_
      cases hl : site.literal with
      | ok n => exact charges_ok _
      | error e => exact fun e' he' => by cases he'; exact charges_literal hsite e hl
    | name => exact blames_name hsite hs.unended
    | binary _ l r =>
      refine blames_bind (blames_lift (charges_operator hsite)) fun op u hu => ?_
      obtain ⟨-, rfl⟩ := lift_ok.mp hu
      refine blames_bind (ih l (by simp) _ hs) fun v u hv => ?_
      replace hs := Emitting.poised (emitting_expression l) hv hs
      refine blames_bind (ih r (by simp) _ hs) fun w u hw => ?_
      replace hs := Emitting.poised (emitting_expression r) hw hs
      exact blames_operate hsite hs.unended op v w
    | call =>
      rw [callValue_eq]
      refine blames_bind (blames_functionCall hsite hts ih hs) fun v u _ => ?_
      cases v with
      | none => exact blames_fault hsite nofun
      | some v => exact blames_ok _ _
    | refused _ c hc => exact blames_fault hsite hc

theorem blames_condition (t : Tree) (ht : t.sites ⊆ S) (hs : Poised s) :
    Blames S (condition t s) := by
  cases hv : expression t s with
  | error e u =>
    intro e' u' h
    rw [condition, bind_of_error hv] at h
    cases h
    exact blames_expression t ht hs e u hv
  | ok v u =>
    replace hs := Emitting.poised (emitting_expression t) hv hs
    rw [condition_of hv]
    split
    · exact blames_ok _ _
    · exact blames_define hs.unended _ _
    · exact blames_fault (ht t.site_mem_sites) nofun

/-! ## Statements -/

theorem blames_newBlock (hs : Ready s) (label : String) : Blames S (newBlock label s) := by
  obtain ⟨id, f, b, k, hat⟩ := hs.here
  rw [newBlock_ok.mpr ⟨id, f, hat.toIn, rfl, rfl⟩]
  exact blames_ok _ _

theorem blames_alloca (hs : Ready s) (ty : Ty) : Blames S (alloca ty s) := by
  obtain ⟨id, f, b, k, hat⟩ := hs.here
  have hb : f.bodies ≠ [] := by
    intro hn
    have hk := hat.block
    simp [hn] at hk
  rw [alloca_ok.mpr ⟨id, f, hat.toIn, hb, rfl, rfl⟩]
  exact blames_ok _ _

theorem blames_seed (hs : Ready s) (v p : Value) : Blames S (seed v p s) := by
  obtain ⟨id, f, b, k, hat⟩ := hs.here
  have hb : f.bodies ≠ [] := by
    intro hn
    have hk := hat.block
    simp [hn] at hk
  rw [seed_ok (u := ()).mpr ⟨id, f, hat.toIn, hb, rfl⟩]
  exact blames_ok _ _

theorem blames_terminated (hs : Ready s) : Blames S (terminated s) := by
  obtain ⟨id, f, b, k, hat⟩ := hs.here
  rw [terminated_ok.mpr ⟨id, f, b, k, hat, rfl, rfl⟩]
  exact blames_ok _ _

theorem blames_fallThrough (hs : Ready s) {b : Nat} (hb : Grown (b + 1) s) :
    Blames S (fallThrough b s) := by
  refine blames_bind (blames_terminated hs) fun c t hc => ?_
  cases c with
  | true => exact blames_ok _ _
  | false =>
    obtain ⟨rfl, hu⟩ := terminated_false hc
    exact blames_terminate hu (by simpa [Terminator.successors] using hb)

theorem blames_variableSlot {site type : Site} (hsite : site ∈ S) (htype : type ∈ S)
    (hs : Ready s) : Blames S (variableSlot site type s) := by
  unfold variableSlot
  dsimp only
  split
  · exact blames_fault hsite nofun
  · refine blames_bind (blames_lift (charges_type htype)) fun ty u hu => ?_
    obtain ⟨-, rfl⟩ := lift_ok.mp hu
    split
    · exact blames_fault htype nofun
    · exact blames_bind (blames_alloca hs ty) fun p t _ => blames_ok _ _

theorem blames_variableDeclaration (hsite : site ∈ S) (hts : sitesAll ts ⊆ S) (hs : Poised s) :
    Blames S (variableDeclaration site ts s) := by
  have hmem : ∀ t ∈ ts, t.sites ⊆ S := fun t ht x hx => hts (Tree.sites_subset ht hx)
  unfold variableDeclaration
  split
  · rename_i type
    have htype := hmem type (by simp) type.site_mem_sites
    exact blames_bind (blames_variableSlot hsite htype hs.ready) fun _ _ _ => blames_ok _ _
  · rename_i type init
    have htype := hmem type (by simp) type.site_mem_sites
    have hinit := hmem init (by simp)
    refine blames_bind (blames_variableSlot hsite htype hs.ready) fun p u hu => ?_
    replace hs := variableSlot_poised hs hu
    refine blames_bind (blames_expression init hinit hs) fun v u hu => ?_
    replace hs := Emitting.poised (emitting_expression init) hu hs
    refine blames_bind (blames_lift (charges_checkStore (hinit init.site_mem_sites) _ _)) ?_
    intro _ w hw
    obtain ⟨-, rfl⟩ := lift_ok.mp hw
    exact blames_store hs.unended _ _
  · exact blames_fault hsite nofun

theorem blames_assignedSlot (hsite : site ∈ S) (hs : Poised s) :
    Blames S (assignedSlot site s) := by
  unfold assignedSlot
  rw [bind_of_ok (lookup_run _)]
  cases s.scope.lookup site.name with
  | none => exact blames_fault hsite nofun
  | some binding =>
    cases binding with
    | constant n => exact blames_fault hsite nofun
    | stored storage =>
      cases storage with
      | slot p ty => exact blames_ok _ _
      | register v =>
        refine blames_bind (blames_alloca hs.ready _) fun p u hu => ?_
        exact blames_bind (blames_seed (alloca_poised hs hu).ready _ _) fun _ _ _ => blames_ok _ _

theorem blames_assignment (hsite : site ∈ S) (hts : sitesAll ts ⊆ S) (hs : Poised s) :
    Blames S (assignment site ts s) := by
  unfold assignment
  split
  · rename_i op rhs
    have hmem : ∀ t ∈ [op, rhs], t.sites ⊆ S := fun t ht x hx => hts (Tree.sites_subset ht hx)
    have hop := hmem op (by simp) op.site_mem_sites
    have hrhs := hmem rhs (by simp)
    refine blames_bind (blames_lift (charges_require hsite _ _ _)) fun _ u hu => ?_
    obtain ⟨-, rfl⟩ := lift_ok.mp hu
    refine blames_bind (blames_lift (charges_update hop)) fun update u hu => ?_
    obtain ⟨-, rfl⟩ := lift_ok.mp hu
    refine blames_bind (blames_assignedSlot hsite hs) fun p u hu => ?_
    replace hs := assignedSlot_poised hs hu
    refine blames_bind (blames_define hs.unended _ _) fun old u hu => ?_
    replace hs := Emitting.poised (emitting_load _ _) hu hs
    refine blames_bind (blames_expression rhs hrhs hs) fun new u hu => ?_
    replace hs := Emitting.poised (emitting_expression rhs) hu hs
    refine blames_bind (blames_lift (charges_checkStore (hrhs rhs.site_mem_sites) _ _)) ?_
    intro _ w hw
    obtain ⟨-, rfl⟩ := lift_ok.mp hw
    dsimp only
    cases update with
    | replace =>
      refine blames_bind (blames_ok _ _) fun v u hu => ?_
      cases hu
      exact blames_bind (blames_store hs.unended _ _) fun _ _ _ => blames_ok _ _
    | combine op =>
      refine blames_bind (blames_define hs.unended _ _) fun v u hu => ?_
      replace hs := Emitting.poised (emitting_binary op _ _) hu hs
      exact blames_bind (blames_store hs.unended _ _) fun _ _ _ => blames_ok _ _
  · exact blames_fault hsite nofun

theorem blames_returnStatement (hsite : site ∈ S) (hts : sitesAll ts ⊆ S) (hs : Poised s) :
    Blames S (returnStatement site ts s) := by
  unfold returnStatement
  split
  · exact blames_terminate hs.unended (by simp [Terminator.successors])
  · rename_i t
    have ht : t.sites ⊆ S := fun x hx => hts (Tree.sites_subset (by simp) hx)
    refine blames_bind (blames_expression t ht hs) fun v u hu => ?_
    replace hs := Emitting.poised (emitting_expression t) hu hs
    exact blames_terminate hs.unended (by simp [Terminator.successors])
  · exact blames_fault hsite nofun

theorem blames_jump (hsite : site ∈ S) {outside : Cause} (hc : outside.kind ≠ .invalidIr)
    {target : LoopTargets → Nat} (ht : ∀ l ∈ s.loops, Grown (target l + 1) s) (ts : List Tree)
    (hs : Poised s) :
    Blames S (jump site outside target ts s) := by
  unfold jump
  split
  · refine blames_bind (blames_ok s.loops.head? s) fun l u hu => ?_
    cases hu
    cases hl : s.loops.head? with
    | none => exact blames_fault hsite hc
    | some l =>
      have hl := ht l (List.mem_of_head? hl)
      exact blames_terminate hs.unended (by simpa [Terminator.successors] using hl)
  · exact blames_fault hsite nofun

theorem blames_statements (h : ∀ t ∈ ts, ∀ s, Poised s → Blames S (statement t s)) (hs : Ready s) :
    Blames S (statements ts s) := by
  induction ts generalizing s with
  | nil =>
    rw [statements]
    exact blames_ok _ _
  | cons t ts ih =>
    rw [statements]
    refine blames_bind (blames_terminated hs) fun c u hu => ?_
    cases c with
    | true => exact blames_ok _ _
    | false =>
      obtain ⟨rfl, hun⟩ := terminated_false hu
      refine blames_bind (h t (by simp) _ ⟨hs, hun⟩) fun _ v hv => ?_
      refine ih (fun t ht => h t (by simp [ht])) ?_
      exact ((steps_statement t hs.grown).of_ok hv).ready hs.grown hs

theorem blames_block {t : Tree} (hsite : t.site ∈ S)
    (h : ∀ c ∈ t.children, ∀ s, Poised s → Blames S (statement c s)) {b : Nat} (hs : Ready s)
    (hb : Grown (b + 1) s) : Blames S (block b t s) := by
  cases t with
  | node site ts =>
    rw [block.eq_1]
    split
    · refine blames_bind (blames_ok _ _) fun _ u hu => ?_
      exact blames_statements h (setBlock_ready hs hb hu)
    · exact blames_fault hsite (by simp [Cause.kind])

theorem blames_condBr {v : Value} {y z : Nat} (hs : Unended s) (hy : Grown (y + 1) s)
    (hz : Grown (z + 1) s) : Blames S (condBr v y z s) := by
  refine blames_terminate hs fun j hj => ?_
  simp only [Terminator.successors, List.mem_cons, List.not_mem_nil, or_false] at hj
  rcases hj with rfl | rfl
  · exact hy
  · exact hz

theorem blames_ifThen {test yes : Tree} (htest : test.sites ⊆ S)
    (hyes : ∀ b s, Ready s → Grown (b + 1) s → Blames S (block b yes s)) (hs : Poised s) :
    Blames S (conditional test (fun b => block b yes) none s) := by
  rw [conditional_none]
  refine blames_bind (blames_condition test htest hs) fun v t ht => ?_
  replace hs := Emitting.poised (emitting_condition test) ht hs
  refine blames_bind (blames_newBlock hs.ready _) fun y t hy => ?_
  have hgy := (newBlock_openAt hy).grown
  replace hs := newBlock_poised hs hy
  refine blames_bind (blames_newBlock hs.ready _) fun e t he => ?_
  have hge := (newBlock_openAt he).grown
  replace hgy := ((steps_newBlock _).of_ok he).grown hs.ready.grown hgy
  replace hs := newBlock_poised hs he
  refine blames_bind (blames_condBr hs.unended hgy hge) fun _ t ht => ?_
  have hsteps := (steps_condBr (n := 0) v y e).of_ok ht
  replace hgy := hsteps.grown hs.ready.grown hgy
  replace hge := hsteps.grown hs.ready.grown hge
  have hr := hsteps.ready hs.ready.grown hs.ready
  refine blames_bind (hyes y t hr hgy) fun _ u hu => ?_
  have hm : Made 0 [y] t := ⟨hr.grown, by simpa using hgy⟩
  replace hge := (Steps.of_ok (steps_block yes y t hm) hu).grown hr.grown hge
  replace hr := block_ready hr hgy hu
  exact blames_bind (blames_fallThrough hr hge) fun _ _ _ => blames_ok _ _

theorem blames_ifElse {test yes : Tree} {no : Nat → Lower Unit} (htest : test.sites ⊆ S)
    (hyes : ∀ b s, Ready s → Grown (b + 1) s → Blames S (block b yes s)) (harm : Arm 0 no)
    (hno : ∀ b s, Ready s → OpenAt b s → Blames S (no b s)) (hs : Poised s) :
    Blames S (conditional test (fun b => block b yes) (some no) s) := by
  rw [conditional_some]
  refine blames_bind (blames_condition test htest hs) fun v t ht => ?_
  replace hs := Emitting.poised (emitting_condition test) ht hs
  refine blames_bind (blames_newBlock hs.ready _) fun y t hy => ?_
  have hgy := (newBlock_openAt hy).grown
  replace hs := newBlock_poised hs hy
  refine blames_bind (blames_newBlock hs.ready _) fun e t he => ?_
  have hge := (newBlock_openAt he).grown
  replace hgy := ((steps_newBlock _).of_ok he).grown hs.ready.grown hgy
  replace hs := newBlock_poised hs he
  refine blames_bind (blames_newBlock hs.ready _) fun z t hz => ?_
  -- The second arm keeps its block to itself until its turn comes.
  have hoz := newBlock_openAt hz
  have haway := newBlock_away hz hs.ready.here
  have hyz : y ≠ z := by
    have := (newBlock_grown hz hgy).1
    omega
  replace hgy := ((steps_newBlock _).of_ok hz).grown hs.ready.grown hgy
  replace hge := ((steps_newBlock _).of_ok hz).grown hs.ready.grown hge
  replace hs := newBlock_poised hs hz
  refine blames_bind (blames_condBr hs.unended hgy hoz.grown) fun _ t ht => ?_
  have hsteps := (steps_condBr (n := 0) v y z).of_ok ht
  replace hgy := hsteps.grown hs.ready.grown hgy
  replace hge := hsteps.grown hs.ready.grown hge
  have hr := hsteps.ready hs.ready.grown hs.ready
  obtain ⟨hoz, -⟩ := ((steps_condBr v y z).of_ok ht).openAt hoz.grown (Nat.lt_succ_self z) haway hoz
  refine blames_bind (hyes y t hr hgy) fun _ u hu => ?_
  have hm : Made 0 [y] t := ⟨hr.grown, by simpa using hgy⟩
  replace hge := (Steps.of_ok (steps_block yes y t hm) hu).grown hr.grown hge
  replace hr := block_ready hr hgy hu
  obtain ⟨hoz, haway⟩ := block_openAt hyz hoz hu
  refine blames_bind (blames_fallThrough hr hge) fun _ w hw => ?_
  obtain ⟨hoz, -⟩ :=
    ((steps_fallThrough e).of_ok hw).openAt hoz.grown (Nat.lt_succ_self z) haway hoz
  have hsteps := (steps_fallThrough (n := 0) e).of_ok hw
  replace hge := hsteps.grown hr.grown hge
  replace hr := hsteps.ready hr.grown hr
  refine blames_bind (hno z w hr hoz) fun _ x hx => ?_
  have hsteps := Steps.of_ok (harm z w ⟨hr.grown, by simpa using hoz.grown⟩) hx
  replace hge := hsteps.grown hr.grown hge
  replace hr := hsteps.ready hr.grown hr
  exact blames_bind (blames_fallThrough hr hge) fun _ _ _ => blames_ok _ _

theorem blames_inLoop {l : LoopTargets} {body : Lower Unit}
    (h : Blames S (body { s with loops := l :: s.loops })) : Blames S (inLoop l body s) := by
  refine blames_bind (blames_ok _ _) fun _ u hu => ?_
  cases hu
  intro e w he
  obtain ⟨x, hx, -⟩ := ensuring_error.mp he
  exact h e x hx

theorem blames_loop {test body : Tree} (htest : test.sites ⊆ S)
    (hbody : ∀ b s, Ready s → Grown (b + 1) s → Blames S (block b body s)) (hs : Poised s) :
    Blames S (loop test (fun b => block b body) s) := by
  unfold loop
  refine blames_bind (blames_newBlock hs.ready _) fun c t hc => ?_
  have hoc := newBlock_openAt hc
  have haway := newBlock_away hc hs.ready.here
  replace hs := newBlock_poised hs hc
  refine blames_bind (blames_newBlock hs.ready _) fun b t hb => ?_
  have hgb := (newBlock_openAt hb).grown
  obtain ⟨hoc, haway⟩ :=
    ((steps_newBlock _).of_ok hb).openAt hoc.grown (Nat.lt_succ_self c) haway hoc
  replace hs := newBlock_poised hs hb
  refine blames_bind (blames_newBlock hs.ready _) fun e t he => ?_
  have hge := (newBlock_openAt he).grown
  replace hgb := ((steps_newBlock _).of_ok he).grown hs.ready.grown hgb
  obtain ⟨hoc, haway⟩ :=
    ((steps_newBlock _).of_ok he).openAt hoc.grown (Nat.lt_succ_self c) haway hoc
  replace hs := newBlock_poised hs he
  have hbr : Blames S (br c t) :=
    blames_terminate hs.unended (by simpa [Terminator.successors] using hoc.grown)
  refine blames_bind hbr fun _ t ht => ?_
  have hsteps := (steps_br (n := 0) c).of_ok ht
  replace hgb := hsteps.grown hs.ready.grown hgb
  replace hge := hsteps.grown hs.ready.grown hge
  have hr := hsteps.ready hs.ready.grown hs.ready
  obtain ⟨hoc, -⟩ := ((steps_br c).of_ok ht).openAt hoc.grown (Nat.lt_succ_self c) haway hoc
  refine blames_bind (blames_ok _ _) fun _ t ht => ?_
  have hsteps := (steps_setBlock (Nat.zero_le c) hoc.grown).of_ok ht
  replace hgb := hsteps.grown hr.grown hgb
  replace hge := hsteps.grown hr.grown hge
  replace hr := setBlock_ready hr hoc.grown ht
  obtain ⟨hoc, hcursor⟩ := setBlock_openAt ht hoc
  replace hs : Poised t := ⟨hr, unended_iff.mpr ⟨c, hcursor, hoc⟩⟩
  refine blames_bind (blames_condition test htest hs) fun v t ht => ?_
  have hsteps := steps_of_emissions (n := 0) ((emitting_condition test).run ht)
  have hgc := hsteps.grown hs.ready.grown hoc.grown
  replace hgb := hsteps.grown hs.ready.grown hgb
  replace hge := hsteps.grown hs.ready.grown hge
  replace hs := Emitting.poised (emitting_condition test) ht hs
  refine blames_bind (blames_condBr hs.unended hgb hge) fun _ t ht => ?_
  have hsteps := (steps_condBr (n := 0) v b e).of_ok ht
  replace hgc := hsteps.grown hs.ready.grown hgc
  replace hgb := hsteps.grown hs.ready.grown hgb
  replace hge := hsteps.grown hs.ready.grown hge
  replace hr := hsteps.ready hs.ready.grown hs.ready
  have hpush : Steps 0 t { t with loops := ⟨c, e⟩ :: t.loops } := .single (.enterLoop _ hgc hge)
  have hin : Blames S (inLoop ⟨c, e⟩ (block b body) t) :=
    blames_inLoop (hbody b _ (hpush.ready hr.grown hr) (hpush.grown hr.grown hgb))
  refine blames_bind hin fun _ u hu => ?_
  have hm : Made 0 [c, b, e] t := by
    refine ⟨hr.grown, fun j hj => ⟨Nat.zero_le j, ?_⟩⟩
    simp only [List.mem_cons, List.not_mem_nil, or_false] at hj
    rcases hj with rfl | rfl | rfl
    · exact hgc
    · exact hgb
    · exact hge
  have hsteps := Steps.of_ok (steps_inLoop hm (by simp) (by simp) fun t ht =>
    (steps_block body).steps ht (by simp)) hu
  replace hgc := hsteps.grown hr.grown hgc
  replace hr := hsteps.ready hr.grown hr
  exact blames_bind (blames_fallThrough hr hgc) fun _ _ _ => blames_ok _ _

theorem blames_elseArm {t : Tree} (hsite : t.site ∈ S)
    (hstmt : ∀ s, Poised s → Blames S (statement t s))
    (hblock : ∀ b s, Ready s → Grown (b + 1) s → Blames S (block b t s)) {b : Nat} (hs : Ready s)
    (ho : OpenAt b s) : Blames S (elseArm t b s) := by
  unfold elseArm
  split
  · exact hblock b s hs ho.grown
  · split
    · refine blames_bind (blames_ok _ _) fun _ u hu => ?_
      obtain ⟨ho', hcursor⟩ := setBlock_openAt hu ho
      exact hstmt u ⟨setBlock_ready hs ho.grown hu, unended_iff.mpr ⟨b, hcursor, ho'⟩⟩
    · exact blames_fault hsite nofun

theorem blames_statement_and_block (t : Tree) (ht : t.sites ⊆ S) :
    (∀ s, Poised s → Blames S (statement t s)) ∧
      ∀ b s, Ready s → Grown (b + 1) s → Blames S (block b t s) := by
  induction t using Tree.induct with
  | node site ts ih =>
    rw [Tree.sites_node] at ht
    have hsite : site ∈ S := ht (by simp)
    have hts : sitesAll ts ⊆ S := fun x hx => ht (by simp [hx])
    have hmem : ∀ t ∈ ts, t.sites ⊆ S := fun t hm x hx => hts (Tree.sites_subset hm hx)
    replace ih := fun t hm => ih t hm (hmem t hm)
    refine ⟨fun s hs => ?_, fun b s hs hb =>
      blames_block (t := .node site ts) hsite (fun t hm => (ih t hm).1) hs hb⟩
    obtain ⟨act, hform, heq⟩ := statement_form site ts
    rw [heq]
    refine blames_nested hsite ?_
    replace hs : Poised (deeper s) := Emissions.poised (.single (.depth _)) hs
    cases hform with
    | declare => exact blames_variableDeclaration hsite hts hs
    | assign => exact blames_assignment hsite hts hs
    | returns => exact blames_returnStatement hsite hts hs
    | loop _ test body =>
      refine blames_bind (blames_lift (charges_require hsite _ _ _)) fun _ u hu => ?_
      obtain ⟨-, rfl⟩ := lift_ok.mp hu
      exact blames_loop (hmem test (by simp)) (ih body (by simp)).2 hs
    | ifThen _ _ test yes =>
      refine blames_bind (blames_lift (charges_require hsite _ _ _)) fun _ u hu => ?_
      obtain ⟨-, rfl⟩ := lift_ok.mp hu
      exact blames_ifThen (hmem test (by simp)) (ih yes (by simp)).2 hs
    | ifElse _ _ test yes no =>
      have hno := ih no (by simp)
      refine blames_bind (blames_lift (charges_require hsite _ _ _)) fun _ u hu => ?_
      obtain ⟨-, rfl⟩ := lift_ok.mp hu
      refine blames_ifElse (hmem test (by simp)) (ih yes (by simp)).2 ?_ (fun b s hs ho => ?_) hs
      · exact arm_elseArm (fun s => steps_statement no) (steps_block no)
      · exact blames_elseArm (hmem no (by simp) no.site_mem_sites) hno.1 hno.2 hs ho
    | leave _ _ ts =>
      exact blames_jump hsite (by decide) (fun l hl => (hs.ready.loops l hl).2) ts hs
    | again _ _ ts =>
      exact blames_jump hsite (by decide) (fun l hl => (hs.ready.loops l hl).1) ts hs
    | call _ ts =>
      refine blames_bind (blames_functionCall hsite hts ?_ hs) fun _ _ _ => blames_ok _ _
      exact fun t hm s hs => blames_expression t (hmem t hm) hs
    | block => exact blames_statements (fun t hm => (ih t hm).1) hs.ready
    | refused _ c hc => exact blames_fault hsite hc

/-! ## Programs -/

theorem charges_parameter {t : Tree} (ht : t.sites ⊆ S) : Charges S (parameter t) := by
  have hsite : t.site ∈ S := ht t.site_mem_sites
  unfold parameter
  split
  · split
    · rename_i type htype
      have hmem : type.site ∈ S := by
        cases t with
        | node site ts =>
          obtain rfl : ts = [type] := htype
          rw [Tree.sites_node] at ht
          exact ht (List.mem_cons_of_mem _ (Tree.sites_subset (by simp) type.site_mem_sites))
      refine charges_bind (charges_type hmem) fun ty _ => ?_
      split
      · exact charges_fault hsite nofun
      · exact charges_ok _
    · exact charges_fault hsite nofun
  · exact charges_fault hsite nofun

theorem charges_mapM {f : Tree → Except LowerError α} (h : ∀ t ∈ ts, Charges S (f t)) :
    Charges S (ts.mapM f) := by
  induction ts with
  | nil => exact charges_ok _
  | cons t ts ih =>
    rw [List.mapM_cons]
    refine charges_bind (h t (by simp)) fun a _ => ?_
    exact charges_bind (ih fun t ht => h t (by simp [ht])) fun _ _ => charges_ok _

theorem charges_signature (hsite : site ∈ S) (hts : sitesAll ts ⊆ S) :
    Charges S (signature site ts) := by
  unfold signature
  split
  · rename_i result params body
    have hmem : ∀ t ∈ [result, params, body], t.sites ⊆ S :=
      fun t hm x hx => hts (Tree.sites_subset hm hx)
    have hresult := hmem result (by simp) result.site_mem_sites
    refine charges_bind (charges_require hsite _ _ _) fun _ _ => ?_
    refine charges_bind (charges_type hresult) fun ret _ => ?_
    refine charges_bind (charges_require hsite _ _ _) fun _ _ => ?_
    refine charges_bind (charges_require hsite _ _ _) fun _ _ => ?_
    refine charges_bind (charges_mapM fun t ht => charges_parameter ?_) fun _ _ => charges_ok _
    have hparams := hmem params (by simp)
    cases params with
    | node site ts =>
      rw [Tree.sites_node] at hparams
      exact fun x hx => hparams (List.mem_cons_of_mem _ (Tree.sites_subset ht hx))
  · exact charges_fault hsite nofun

theorem blames_declareFunction (hsite : site ∈ S) (hts : sitesAll ts ⊆ S) :
    Blames S (declareFunction site ts s) := by
  refine blames_bind (blames_lift (charges_signature hsite hts)) fun sig u hu => ?_
  rw [get_bind]
  dsimp only
  split
  · exact blames_fault hsite nofun
  · exact blames_bind (blames_ok _ _) fun _ _ _ => blames_ok _ _

theorem blames_body {id : Nat} {f : Function} {t : Tree} (ht : t.sites ⊆ S)
    (hf : s.module.function? id = some f) (hn : s.module.Numbered) :
    Blames S (body site id t s) := by
  have hr : Ready (opened site s id f) := opened_ready hf hn
  have hg : Grown (f.bodies.length + 1) (opened site s id f) := opened_grown hf
  rw [body_run hf]
  refine blames_bind ((blames_statement_and_block t ht).2 _ _ hr hg) fun _ u hu => ?_
  replace hr := block_ready hr hg hu
  refine blames_bind (blames_terminated hr) fun c v hv => ?_
  cases c with
  | true => exact blames_ok _ _
  | false =>
    obtain ⟨rfl, hun⟩ := terminated_false hv
    refine blames_bind (blames_ok _ _) fun _ w hw => ?_
    cases hw
    refine blames_bind (blames_terminate (Emission.unended (.note _) hun) ?_) fun _ _ _ =>
      blames_ok _ _
    simp [Terminator.successors]

theorem blames_bodyOf (hsite : site ∈ S) (hts : sitesAll ts ⊆ S) {id : Nat} {f : Function}
    (hf : s.module.function? id = some f) (hn : s.module.Numbered) :
    Blames S (bodyOf site ts id s) := by
  unfold bodyOf
  split
  · exact blames_body (fun x hx => hts (Tree.sites_subset (by simp) hx)) hf hn
  · exact blames_fault hsite nofun

theorem blames_function {r : Option Nat} (hsite : site ∈ S) (hts : sitesAll ts ⊆ S)
    (hr : Registered s r) (hn : s.module.Numbered) :
    Blames S (function site r ts s) := by
  cases r with
  | some id =>
    obtain ⟨f, hf⟩ := hr id rfl
    rw [function_some]
    exact blames_bodyOf hsite hts hf hn
  | none =>
    rw [function_none]
    refine blames_bind (blames_declareFunction hsite hts) fun id w hid => ?_
    obtain ⟨hg, f, hf⟩ := declareFunction_changes hid
    exact blames_bodyOf hsite hts hf (hg.numbered hn)

theorem blames_directive (hsite : site ∈ S) (hts : sitesAll ts ⊆ S) :
    Blames S (directive site ts s) := by
  unfold directive
  split
  · split
    · rename_i name value
      have hvalue : value.site ∈ S := hts (Tree.sites_subset (by simp) value.site_mem_sites)
      refine blames_bind (blames_lift (charges_require hsite _ _ _)) fun _ u _ => ?_
      dsimp only
      split
      · exact blames_fault hvalue nofun
      · refine blames_bind (blames_lift (charges_literal hvalue)) fun n v _ => ?_
        exact blames_bind (blames_ok _ _) fun _ _ _ => blames_ok _ _
    · exact blames_fault hsite nofun
  · exact blames_fault hsite nofun

theorem blames_item {t : Tree} {r : Option Nat} (ht : t.sites ⊆ S) (hr : Registered s r)
    (hn : s.module.Numbered) : Blames S (item t r s) := by
  have hsite := ht t.site_mem_sites
  have hts : sitesAll t.children ⊆ S := by
    cases t
    rw [Tree.sites_node] at ht
    exact fun x hx => ht (List.mem_cons_of_mem _ hx)
  rcases item_form t r with ⟨-, h⟩ | ⟨-, h⟩ | h
  · rw [h]
    exact blames_directive hsite hts
  · rw [h]
    exact blames_function hsite hts hr hn
  · rw [h]
    exact blames_fault hsite nofun

theorem blames_items {its : List (Tree × Option Nat)} (hts : ∀ i ∈ its, i.1.sites ⊆ S)
    (hr : ∀ i ∈ its, Registered s i.2) (hn : s.module.Numbered) : Blames S (items its s) := by
  induction its generalizing s with
  | nil =>
    rw [items]
    exact blames_ok _ _
  | cons i its ih =>
    rw [items]
    have hi := hr i (by simp)
    refine blames_bind (blames_item (hts i (by simp)) hi hn) fun _ u hu => ?_
    have hg := item_changes hi hu
    refine ih (fun j hj => hts j (by simp [hj])) (fun j hj => ?_) (hg.numbered hn)
    exact hg.registered (hr j (by simp [hj]))

theorem blames_declareAll {k : Nat} (hts : ∀ t ∈ ts, t.sites ⊆ S) :
    Blames S (declareAll k ts s) := by
  induction ts generalizing k s with
  | nil =>
    rw [declareAll]
    exact blames_ok _ _
  | cons t ts ih =>
    have ht := hts t (by simp)
    replace ih := fun {k s} => ih (k := k) (s := s) fun t ht => hts t (by simp [ht])
    have hchildren : sitesAll t.children ⊆ S := by
      cases t
      rw [Tree.sites_node] at ht
      exact fun x hx => ht (List.mem_cons_of_mem _ hx)
    rw [declareAll]
    split
    · refine blames_bind (blames_declareFunction (ht t.site_mem_sites) hchildren) fun _ u _ => ?_
      rw [register_bind]
      exact blames_bind ih fun _ _ _ => blames_ok _ _
    · exact blames_bind ih fun _ _ _ => blames_ok _ _

theorem blames_program (singlePass : Bool) (t : Tree) :
    Blames t.sites (program singlePass t .initial) := by
  cases t with
  | node site ts =>
    have hsite : site ∈ (Tree.node site ts).sites := Tree.site_mem_sites (.node site ts)
    have hts : ∀ t ∈ ts, t.sites ⊆ (Tree.node site ts).sites := fun t ht x hx => by
      rw [Tree.sites_node]
      exact List.mem_cons_of_mem _ (Tree.sites_subset ht hx)
    have hzip : ∀ (ids : List (Option Nat)), ∀ i ∈ ts.zip ids, i.1 ∈ ts ∧ i.2 ∈ ids :=
      fun ids i hi => List.of_mem_zip hi
    by_cases kind : site.kind = .program
    · rw [program_eq kind]
      cases singlePass with
      | true =>
        refine blames_bind (blames_ok _ _) fun ids u hu => ?_
        cases hu
        refine blames_bind (blames_items (fun i hi => hts _ (hzip _ i hi).1) ?_ nofun) ?_
        · intro i hi id hid
          have hmem := (hzip _ i hi).2
          simp [hid] at hmem
        · exact fun _ _ _ => blames_ok _ _
      | false =>
        refine blames_bind (blames_declareAll hts) fun ids u hu => ?_
        obtain ⟨hg, hids⟩ := declareAll_changes hu
        refine blames_bind (blames_items (fun i hi => hts _ (hzip _ i hi).1) ?_
          (hg.numbered nofun)) ?_
        · exact fun i hi => hids _ (hzip _ i hi).2
        · exact fun _ _ _ => blames_ok _ _
    · rw [program_other kind]
      exact blames_fault hsite nofun

end Lower

/-- An error of a lowering run is never a refusal of the builder, and its site
is the site of a node of the tree. -/
theorem Tree.lower_error_charged {singlePass : Bool} {t : Tree} {e : LowerError}
    (h : (t.lower singlePass).result = .error e) : e.ChargedTo t.sites := by
  unfold Tree.lower at h
  split at h
  · cases h
  · rename_i e' s hrun
    cases h
    exact Lower.blames_program singlePass t e s hrun

end TreeFlow
