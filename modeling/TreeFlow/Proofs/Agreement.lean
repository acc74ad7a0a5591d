import TreeFlow.Proofs.Run

/-!
# Runs on two trees

Two runs that lower different trees are alike if they return the same value and build
the same module. They may write different logs, the constants in scope may differ, and
where one tree is flatter than the other, its run stays at a smaller depth. Whether
errors have to agree as well is left open. Each operation on the state agrees with
itself in this sense, and sequences of actions agree if their parts do.
-/

set_option autoImplicit false

namespace TreeFlow.Lower

/-! ## Runs that end alike -/

section Relating

variable {α β : Type} {strict : Prop} {R R' R'' : LowerState → LowerState → Prop}

/-- Two runs end alike: with the same value in related states or with the same error.
Unless errors have to agree, nothing is said of the second run where the first one
fails, and nothing at all where the builder refuses an operation of the second run,
which does not happen to a whole program. -/
inductive Likewise (strict : Prop) (R : LowerState → LowerState → Prop) :
    EStateM.Result LowerError LowerState α → EStateM.Result LowerError LowerState α → Prop
  | ok {a : α} {t t' : LowerState} (states : R t t') : Likewise strict R (.ok a t) (.ok a t')
  | same {e : LowerError} {t t' : LowerState} : Likewise strict R (.error e t) (.error e t')
  | lax {e : LowerError} {t : LowerState} {r : EStateM.Result LowerError LowerState α}
      (lenient : ¬strict) : Likewise strict R (.error e t) r
  | refused {r : EStateM.Result LowerError LowerState α} {e : LowerError} {t' : LowerState}
      (lenient : ¬strict) (kind : e.cause.kind = .invalidIr) : Likewise strict R r (.error e t')

def Relates (strict : Prop) (R R' : LowerState → LowerState → Prop) (x y : Lower α) : Prop :=
  ∀ ⦃s s' : LowerState⦄, R s s' → Likewise strict R' (x s) (y s')

theorem relates_pure (h : ∀ s s', R s s' → R' s s') (a : α) :
    Relates strict R R' (pure a) (pure a) :=
  fun s s' hs => .ok (h s s' hs)

theorem relates_throw {e : LowerError} {y : Lower α} (h : strict → y = throw e) :
    Relates strict R R' (throw e) y := by
  intro s s' _
  by_cases hstrict : strict
  · rw [h hstrict]
    exact .same
  · exact .lax hstrict

theorem relates_modify {f g : LowerState → LowerState} (h : ∀ s s', R s s' → R' (f s) (g s')) :
    Relates strict R R' (modify f) (modify g) :=
  fun s s' hs => .ok (h s s' hs)

theorem relates_lift (h : ∀ s s', R s s' → R' s s') (x : Except LowerError α) :
    Relates strict R R' (lift x) (lift x) := by
  cases x with
  | ok a => exact relates_pure h a
  | error e => exact relates_throw fun _ => rfl

theorem relates_get {k l : LowerState → Lower α}
    (h : ∀ s s', R s s' → Relates strict R R' (k s) (l s')) :
    Relates strict R R' (get >>= k) (get >>= l) :=
  fun s s' hs => h s s' hs hs

theorem Relates.bind {x y : Lower α} {k l : α → Lower β} (hx : Relates strict R R' x y)
    (hk : ∀ a, Relates strict R' R'' (k a) (l a)) : Relates strict R R'' (x >>= k) (y >>= l) := by
  intro s s' hs
  have h := hx hs
  generalize hr : x s = r, hr' : y s' = r' at h
  cases h with
  | ok hrel =>
    rw [bind_of_ok hr, bind_of_ok hr']
    exact hk _ hrel
  | same =>
    rw [bind_of_error hr, bind_of_error hr']
    exact .same
  | lax hlax =>
    rw [bind_of_error hr]
    exact .lax hlax
  | refused hlax hkind =>
    rw [bind_of_error hr']
    exact .refused hlax hkind

theorem Likewise.ensuring {x y : Lower α} {s s' : LowerState} {f g : LowerState → LowerState}
    (h : Likewise strict R (x s) (y s')) (hfg : ∀ t t', R t t' → R' (f t) (g t')) :
    Likewise strict R' (ensuring x f s) (ensuring y g s') := by
  unfold Lower.ensuring
  generalize x s = r, y s' = r' at h
  cases h with
  | ok hrel => exact .ok (hfg _ _ hrel)
  | same => exact .same
  | lax hlax => exact .lax hlax
  | refused hlax hkind => exact .refused hlax hkind

end Relating

/-! ## Variations -/

/-- What a rewriting may change besides the tree: the constants that are in scope. A
name that is not to be bound is never a local. -/
structure Variation where
  /-- Errors have to agree. -/
  strict : Prop
  constants : List (String × Int) → List (String × Int) → Prop
  binds : String → Prop
  constants_of_strict : strict → ∀ {cs cs'}, constants cs cs' → cs' = cs
  binds_of_strict : strict → ∀ x, binds x

namespace Variation

structure Scopes (V : Variation) (c c' : Scope) : Prop where
  locals : c'.locals = c.locals
  constants : V.constants c.constants c'.constants
  unbound : ∀ x, ¬V.binds x → c.local? x = none

def Shares (V : Variation) (x : String) : Prop :=
  ∀ cs cs', V.constants cs cs' → cs'.lookup x = cs.lookup x

/-- The states of two runs at two depths. Their logs are free. -/
structure Varies (V : Variation) (n n' : Nat) (s s' : LowerState) : Prop where
  module : s'.module = s.module
  function : s'.function = s.function
  block : s'.block = s.block
  loops : s'.loops = s.loops
  scope : V.Scopes s.scope s'.scope
  depth : s.depth = n
  depth' : s'.depth = n'
  flatter : n' ≤ n
  level : V.strict → n' = n

variable {V : Variation}

theorem Scopes.local? {c c' : Scope} (h : V.Scopes c c') (x : String) :
    c'.local? x = c.local? x := by
  rw [Scope.local?, h.locals, Scope.local?]

theorem Scopes.bind {c c' : Scope} {x : String} (h : V.Scopes c c') (hx : V.binds x)
    (storage : Storage) : V.Scopes (c.bind x storage) (c'.bind x storage) where
  locals := congrArg ((x, storage) :: ·) h.locals
  constants := h.constants
  unbound y hy := by
    have hyx : y ≠ x := fun hyx => hy (hyx ▸ hx)
    rw [Scope.local?_bind, if_neg hyx]
    exact h.unbound y hy

theorem Varies.deeper {n n' : Nat} {s s' : LowerState} (h : V.Varies n n' s s') :
    V.Varies (n + 1) (n' + 1) (deeper s) (deeper s') :=
  { h with
    depth := congrArg (· + 1) h.depth
    depth' := congrArg (· + 1) h.depth'
    flatter := Nat.succ_le_succ h.flatter
    level := fun hs => congrArg (· + 1) (h.level hs) }

theorem Varies.shallower {n n' : Nat} {s s' : LowerState} (h : V.Varies (n + 1) (n' + 1) s s') :
    V.Varies n n' (shallower s) (shallower s') :=
  { h with
    depth := congrArg (· - 1) h.depth
    depth' := congrArg (· - 1) h.depth'
    flatter := Nat.le_of_succ_le_succ h.flatter
    level := fun hs => Nat.succ.inj (h.level hs) }

end Variation

/-! ## Actions that agree -/

section Agreement

variable {V : Variation} {α β : Type}

/-- The two actions end alike and keep their depths. -/
def Agrees (V : Variation) (x y : Lower α) : Prop :=
  ∀ n n', Relates V.strict (V.Varies n n') (V.Varies n n') x y

theorem agrees_pure (a : α) : Agrees V (pure a) (pure a) :=
  fun _ _ => relates_pure (fun _ _ h => h) a

theorem agrees_throw {e : LowerError} {y : Lower α} (h : V.strict → y = throw e) :
    Agrees V (throw e) y :=
  fun _ _ => relates_throw h

theorem Agrees.bind {x y : Lower α} {k l : α → Lower β} (hx : Agrees V x y)
    (hk : ∀ a, Agrees V (k a) (l a)) : Agrees V (x >>= k) (y >>= l) :=
  fun n n' => (hx n n').bind fun a => hk a n n'

theorem agrees_modify {f g : LowerState → LowerState}
    (h : ∀ n n' s s', V.Varies n n' s s' → V.Varies n n' (f s) (g s')) :
    Agrees V (modify f) (modify g) :=
  fun n n' => relates_modify (h n n')

theorem agrees_get {k l : LowerState → Lower α}
    (h : ∀ n n' s s', V.Varies n n' s s' → Agrees V (k s) (l s')) :
    Agrees V (get >>= k) (get >>= l) :=
  fun n n' s s' hs => h n n' s s' hs n n' hs

theorem agrees_lift {x x' : Except LowerError α} (hok : ∀ a, x = .ok a → x' = .ok a)
    (hstrict : V.strict → x' = x) : Agrees V (lift x) (lift x') := by
  cases hx : x with
  | ok a =>
    rw [hok a hx]
    exact agrees_pure a
  | error e => exact agrees_throw fun h => by rw [hstrict h, hx]; rfl

theorem agrees_lift_self (x : Except LowerError α) : Agrees V (lift x) (lift x) :=
  agrees_lift (fun _ h => h) fun _ => rfl

theorem agrees_note (e e' : Event) : Agrees V (note e) (note e') :=
  agrees_modify fun _ _ _ _ h => { h with }

theorem agrees_of_fails (hlax : ¬V.strict) {x y : Lower α}
    (h : ∀ n n' s s', V.Varies n n' s s' → ∃ e t, x s = .error e t) : Agrees V x y := by
  intro n n' s s' hs
  obtain ⟨e, t, he⟩ := h n n' s s' hs
  rw [he]
  exact .lax hlax

theorem Agrees.nested {x y : Lower α} {site site' : Site} (hsite : V.strict → site' = site)
    (h : Agrees V x y) : Agrees V (nested site x) (nested site' y) := by
  intro n n' s s' hs
  have hd := hs.depth
  have hd' := hs.depth'
  have hflatter := hs.flatter
  by_cases hdeep : s.depth < maxDepth
  · rw [nested_of_shallow hdeep, nested_of_shallow (by omega)]
    exact (h _ _ hs.deeper).ensuring fun _ _ ht => ht.shallower
  · rw [nested_of_deep (Nat.not_lt.mp hdeep)]
    by_cases hstrict : V.strict
    · have hlevel := hs.level hstrict
      rw [hsite hstrict, nested_of_deep (by omega)]
      exact .same
    · exact .lax hstrict

theorem Agrees.inLoop {x y : Lower α} (h : Agrees V x y) (l : LoopTargets) :
    Agrees V (inLoop l x) (inLoop l y) := by
  have hpush : Agrees V (pushLoop l) (pushLoop l) :=
    agrees_modify fun _ _ _ _ hs => { hs with loops := congrArg (l :: ·) hs.loops }
  refine hpush.bind fun _ n n' s s' hs => (h n n' hs).ensuring fun _ _ ht => ?_
  exact { ht with loops := congrArg List.tail ht.loops }

/-! ### The builder -/

theorem agrees_inFunction (act : Build α) : Agrees V (inFunction act) (inFunction act) := by
  intro n n' s s' hs
  cases hf : s.function with
  | none =>
    simp only [inFunction, hs.function, hf]
    exact .same
  | some id =>
    cases hm : s.module.function? id with
    | none =>
      simp only [inFunction, hs.function, hs.module, hf, hm]
      exact .same
    | some f =>
      have hin' : s'.In id f := ⟨hs.function.trans hf, by rw [hs.module]; exact hm⟩
      rw [inFunction_of ⟨hf, hm⟩, inFunction_of hin']
      cases act f with
      | ok a g => exact .ok { hs with module := congrArg (·.setFunction id g) hs.module }
      | error e g => exact .same

theorem agrees_inBlock (act : Nat → Build α) : Agrees V (inBlock act) (inBlock act) := by
  refine Agrees.bind (agrees_get fun _ _ s s' hs => ?_) fun b => agrees_inFunction (act b)
  rw [hs.block]
  cases s.block with
  | none => exact agrees_throw fun _ => rfl
  | some b => exact agrees_pure b

theorem agrees_terminated : Agrees V terminated terminated :=
  agrees_inBlock _

theorem agrees_setBlock (b : Nat) : Agrees V (setBlock b) (setBlock b) :=
  (agrees_note _ _).bind fun _ => agrees_modify fun _ _ _ _ h => { h with block := rfl }

theorem agrees_newBlock (label : String) : Agrees V (newBlock label) (newBlock label) :=
  (agrees_inFunction _).bind fun _ => (agrees_note _ _).bind fun _ => agrees_pure _

theorem agrees_fallThrough (b : Nat) : Agrees V (fallThrough b) (fallThrough b) := by
  refine agrees_terminated.bind fun ended => ?_
  cases ended with
  | true => exact agrees_pure ()
  | false => exact agrees_inBlock _

theorem agrees_innermostLoop : Agrees V innermostLoop innermostLoop := by
  refine agrees_get fun _ _ s s' hs => ?_
  rw [hs.loops]
  exact agrees_pure _

theorem agrees_bind {x : String} (hx : V.binds x) (storage : Storage) :
    Agrees V (Lower.bind x storage) (Lower.bind x storage) :=
  agrees_modify fun _ _ _ _ h => { h with scope := h.scope.bind hx storage }

/-! ### Calls -/

theorem agrees_declare (sig : Signature) : Agrees V (declare sig) (declare sig) := by
  refine agrees_get fun _ _ s s' hs => ?_
  rw [hs.module]
  refine Agrees.bind (agrees_modify fun _ _ _ _ h => ?_) fun _ => agrees_pure _
  exact { h with module := congrArg (·.declare sig) h.module }

theorem agrees_addBytes (bytes : List UInt8) : Agrees V (addBytes bytes) (addBytes bytes) := by
  refine agrees_get fun _ _ s s' hs => ?_
  rw [hs.module]
  refine Agrees.bind (agrees_modify fun _ _ _ _ h => ?_) fun _ => agrees_pure _
  exact { h with module := congrArg (·.addBytes bytes) h.module }

theorem agrees_findCallee (site : Site) : Agrees V (findCallee site) (findCallee site) := by
  refine agrees_get fun _ _ s s' hs => ?_
  rw [hs.module]
  cases s.module.find? site.name with
  | some id => exact agrees_pure id
  | none =>
    by_cases hname : site.name = Intrinsic.name
    · simp only [if_pos hname]
      exact (agrees_note _ _).bind fun _ => agrees_declare _
    · simp only [if_neg hname]
      exact agrees_throw fun _ => rfl

theorem agrees_callee (site : Site) (given : Nat) :
    Agrees V (callee site given) (callee site given) := by
  refine (agrees_findCallee site).bind fun id => agrees_get fun _ _ s s' hs => ?_
  rw [hs.module]
  cases s.module.function? id with
  | none => exact agrees_throw fun _ => rfl
  | some f =>
    dsimp only
    split
    · refine (agrees_addBytes _).bind fun format => (agrees_pure [format]).bind fun leading => ?_
      exact (agrees_lift_self _).bind fun _ => agrees_pure _
    · refine (agrees_pure []).bind fun leading => ?_
      exact (agrees_lift_self _).bind fun _ => agrees_pure _

theorem agrees_call (id : Nat) (args : List Value) : Agrees V (call id args) (call id args) := by
  refine agrees_get fun _ _ s s' hs => ?_
  rw [hs.module]
  cases s.module.function? id with
  | none => exact agrees_throw fun _ => rfl
  | some f => exact agrees_inBlock _

/-! ### Names -/

theorem agrees_name {site : Site} (h : V.Shares site.name) :
    Agrees V (name site) (name site) := by
  refine agrees_get fun _ _ s s' hs => ?_
  have hlookup : s'.scope.lookup site.name = s.scope.lookup site.name := by
    rw [Scope.lookup, hs.scope.local?, Scope.constant?, h _ _ hs.scope.constants]
    rfl
  rw [hlookup]
  cases s.scope.lookup site.name with
  | none => exact agrees_throw fun _ => rfl
  | some b =>
    cases b with
    | constant n => exact agrees_pure _
    | stored storage =>
      cases storage with
      | register v => exact agrees_pure v
      | slot p ty => exact agrees_inBlock _

theorem agrees_promote {x : String} (hx : V.binds x) (v : Value) :
    Agrees V (promote x v) (promote x v) := by
  refine (agrees_inFunction _).bind fun p => ?_
  refine (agrees_inFunction _).bind fun _ => ?_
  exact (agrees_bind hx _).bind fun _ => (agrees_note _ _).bind fun _ => agrees_pure _

theorem agrees_assignedSlot {site : Site} (hsite : V.binds site.name) :
    Agrees V (assignedSlot site) (assignedSlot site) := by
  refine agrees_get fun _ _ s s' hs => ?_
  rw [Scope.lookup, Scope.lookup, hs.scope.local?]
  cases s.scope.local? site.name with
  | some storage =>
    cases storage with
    | register v => exact agrees_promote hsite v
    | slot p ty => exact agrees_pure (p, ty)
  | none =>
    -- a constant is no better than nothing, but the errors differ
    have hright : V.strict → s'.scope.constant? site.name = s.scope.constant? site.name :=
      fun hstrict => by
        rw [Scope.constant?, V.constants_of_strict hstrict hs.scope.constants, Scope.constant?]
    cases hc : s.scope.constant? site.name with
    | none => exact agrees_throw fun hstrict => by simp only [hright hstrict, hc, Option.map_none]
    | some n => exact agrees_throw fun hstrict => by simp only [hright hstrict, hc, Option.map_some]

theorem assignedSlot_unbound {site : Site} (hsite : ¬V.binds site.name) {n n' : Nat}
    {s s' : LowerState} (hs : V.Varies n n' s s') : ∃ e, assignedSlot site s = .error e s := by
  unfold assignedSlot
  rw [bind_of_ok (lookup_run _), Scope.lookup, hs.scope.unbound _ hsite]
  cases s.scope.constant? site.name with
  | none => exact ⟨_, rfl⟩
  | some n => exact ⟨_, rfl⟩

theorem agrees_variableSlot {site : Site} (hsite : V.binds site.name) (type : Site) :
    Agrees V (variableSlot site type) (variableSlot site type) := by
  unfold variableSlot
  dsimp only
  split
  · exact agrees_throw fun _ => rfl
  · refine (agrees_lift_self _).bind fun ty => ?_
    split
    · exact agrees_throw fun _ => rfl
    · exact (agrees_inFunction _).bind fun p => (agrees_bind hsite _).bind fun _ => agrees_pure _

end Agreement

end TreeFlow.Lower
