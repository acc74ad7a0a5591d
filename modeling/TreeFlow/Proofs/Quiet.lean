import TreeFlow.Proofs.Registration

/-!
# Actions that do not fail for their levels

Only a statement or an expression can be nested too deeply. Whatever else is done on
the way fails for other reasons: the checks of single nodes, the registration of
functions, the lookup of names and all that the builder may refuse.
-/

set_option autoImplicit false

namespace TreeFlow.Lower

variable {α β : Type}

def Shallow (e : LowerError) : Prop := ∀ k, e.cause ≠ .tooDeep k

/-- The action never fails on account of the levels. -/
def Quiet (x : Lower α) : Prop :=
  ∀ ⦃s t : LowerState⦄ ⦃e : LowerError⦄, x s = .error e t → Shallow e

theorem quiet_of_ok {x : Lower α} (h : ∀ s, ∃ a t, x s = .ok a t) : Quiet x := by
  intro s t e hr
  obtain ⟨a, u, hok⟩ := h s
  rw [hok] at hr
  cases hr

theorem quiet_pure (a : α) : Quiet (pure a : Lower α) := quiet_of_ok fun s => ⟨a, s, rfl⟩

theorem quiet_throw {e : LowerError} (h : Shallow e) : Quiet (throw e : Lower α) := by
  intro s t e' hr
  cases hr
  exact h

theorem quiet_lift {x : Except LowerError α} (h : ∀ e, x = .error e → Shallow e) :
    Quiet (lift x) := by
  intro s t e hr
  exact h e (lift_error.mp hr).1

theorem quiet_bind {x : Lower α} {k : α → Lower β} (hx : Quiet x) (hk : ∀ a, Quiet (k a)) :
    Quiet (x >>= k) := by
  intro s t e hr
  rcases bind_error.mp hr with hr | ⟨a, u, -, hr⟩
  · exact hx hr
  · exact hk a hr

theorem quiet_get {k : LowerState → Lower α} (hk : ∀ s, Quiet (k s)) : Quiet (get >>= k) :=
  fun s _ _ hr => hk s hr

theorem quiet_refuse (e : BuildFault) : Quiet (refuse e : Lower α) := quiet_throw nofun

theorem quiet_inFunction (act : Build α) : Quiet (inFunction act) := by
  intro s t e hr
  unfold inFunction at hr
  split at hr
  · exact quiet_refuse _ hr
  · split at hr
    · exact quiet_refuse _ hr
    · split at hr
      · cases hr
      · exact quiet_refuse _ hr

theorem quiet_inBlock (act : Nat → Build α) : Quiet (inBlock act) := by
  refine quiet_bind (quiet_get fun s => ?_) fun b => quiet_inFunction (act b)
  cases s.block with
  | none => exact quiet_refuse _
  | some b => exact quiet_pure b

theorem quiet_newBlock (label : String) : Quiet (newBlock label) :=
  quiet_bind (quiet_inFunction _) fun _ => quiet_of_ok fun _ => ⟨_, _, rfl⟩

theorem quiet_fallThrough (b : Nat) : Quiet (fallThrough b) := by
  refine quiet_bind (quiet_inBlock _) fun ended => ?_
  cases ended with
  | true => exact quiet_pure ()
  | false => exact quiet_inBlock _

theorem quiet_setBlock (b : Nat) : Quiet (setBlock b) := quiet_of_ok fun _ => ⟨_, _, rfl⟩

theorem quiet_end (c e : Nat) : Quiet (fallThrough c >>= fun _ => setBlock e) :=
  quiet_bind (quiet_fallThrough c) fun _ => quiet_setBlock e

/-! ## Checks of a node -/

section Checks

variable {site : Site} {e : LowerError}

theorem shallow_literal (h : site.literal = .error e) : Shallow e := by
  unfold Site.literal at h
  split at h
  · cases h
  · cases h
    nofun

theorem shallow_require {i : Nat} {k : Kind} {c : Tree} (h : site.require i k c = .error e) :
    Shallow e := by
  unfold Site.require at h
  split at h
  · cases h
  · cases h
    nofun

theorem shallow_type (h : Ty.ofSite site = .error e) : Shallow e := by
  unfold Ty.ofSite at h
  split at h
  · split at h
    · cases h
    · cases h
      nofun
  · cases h
    nofun

theorem shallow_operator (h : Operator.ofSite site = .error e) : Shallow e := by
  unfold Operator.ofSite at h
  split at h
  · cases h
  · cases h
    nofun

theorem shallow_update (h : Update.ofSite site = .error e) : Shallow e := by
  unfold Update.ofSite at h
  split at h
  · cases h
  · cases h
    nofun

theorem shallow_checkStore {got slot : Ty} (h : checkStore site got slot = .error e) :
    Shallow e := by
  unfold checkStore at h
  split at h
  · cases h
  · cases h
    nofun

theorem shallow_checkCount {variadic : Bool} {m n : Nat}
    (h : checkCount site variadic m n = .error e) : Shallow e := by
  unfold checkCount at h
  split at h
  · cases h
    nofun
  · cases h

theorem shallow_checkArgument {c : Callee} {i : Nat} {v : Value}
    (h : checkArgument c site i v = .error e) : Shallow e := by
  unfold checkArgument at h
  split at h
  · cases h
  · split at h
    · cases h
    · cases h
      nofun

end Checks

/-! ## Names, operators and calls -/

theorem quiet_findCallee (site : Site) : Quiet (findCallee site) := by
  refine quiet_get fun s => ?_
  cases s.module.find? site.name with
  | some id => exact quiet_pure id
  | none =>
    by_cases hname : site.name = Intrinsic.name
    · simp only [if_pos hname]
      exact quiet_of_ok fun _ => ⟨_, _, rfl⟩
    · simp only [if_neg hname]
      exact quiet_throw nofun

theorem quiet_callee (site : Site) (n : Nat) : Quiet (callee site n) := by
  refine quiet_bind (quiet_findCallee site) fun id => quiet_get fun s => ?_
  cases s.module.function? id with
  | none => exact quiet_refuse _
  | some f =>
    dsimp only
    split
    · refine quiet_bind (quiet_of_ok fun _ => ⟨_, _, rfl⟩) fun _ => ?_
      refine quiet_bind (quiet_pure _) fun _ => ?_
      exact quiet_bind (quiet_lift fun _ => shallow_checkCount) fun _ => quiet_pure _
    · refine quiet_bind (quiet_pure _) fun _ => ?_
      exact quiet_bind (quiet_lift fun _ => shallow_checkCount) fun _ => quiet_pure _

theorem quiet_call (j : Nat) (args : List Value) : Quiet (call j args) := by
  refine quiet_get fun s => ?_
  cases s.module.function? j with
  | none => exact quiet_refuse _
  | some f => exact quiet_inBlock _

theorem quiet_name (site : Site) : Quiet (name site) := by
  refine quiet_get fun s => ?_
  cases s.scope.lookup site.name with
  | none => exact quiet_throw nofun
  | some binding =>
    cases binding with
    | constant n => exact quiet_pure _
    | stored storage =>
      cases storage with
      | register v => exact quiet_pure v
      | slot p ty => exact quiet_inBlock _

theorem quiet_operate (site : Site) (op : Operator) (l r : Value) :
    Quiet (operate site op l r) := by
  unfold operate
  split
  · cases op with
    | arith op => exact quiet_inBlock _
    | compare test => exact quiet_inBlock _
  · exact quiet_throw nofun

theorem quiet_variableSlot (site type : Site) : Quiet (variableSlot site type) := by
  unfold variableSlot
  dsimp only
  split
  · exact quiet_throw nofun
  · refine quiet_bind (quiet_lift fun _ => shallow_type) fun ty => ?_
    split
    · exact quiet_throw nofun
    · exact quiet_bind (quiet_inFunction _) fun p => quiet_of_ok fun _ => ⟨_, _, rfl⟩

theorem quiet_assignedSlot (site : Site) : Quiet (assignedSlot site) := by
  refine quiet_get fun s => ?_
  cases s.scope.lookup site.name with
  | none => exact quiet_throw nofun
  | some binding =>
    cases binding with
    | constant n => exact quiet_throw nofun
    | stored storage =>
      cases storage with
      | register v =>
        refine quiet_bind (quiet_inFunction _) fun p => ?_
        exact quiet_bind (quiet_inFunction _) fun _ => quiet_of_ok fun _ => ⟨_, _, rfl⟩
      | slot p ty => exact quiet_pure _

/-! ## Declarations -/

section Declarations

variable {site : Site} {c : Tree} {ts : List Tree} {e : LowerError}

theorem shallow_bind {x : Except LowerError α} {k : α → Except LowerError β}
    (hx : ∀ e, x = .error e → Shallow e) (hk : ∀ a e, k a = .error e → Shallow e)
    (h : (x >>= k) = .error e) : Shallow e := by
  cases x with
  | ok a => exact hk a e h
  | error e' =>
    cases h
    exact hx e rfl

theorem shallow_parameter (h : parameter c = .error e) : Shallow e := by
  unfold parameter at h
  split at h
  · split at h
    · refine shallow_bind (fun _ => shallow_type) (fun ty e h => ?_) h
      split at h
      · cases h
        nofun
      · cases h
    · cases h
      nofun
  · cases h
    nofun

theorem shallow_parameters (h : ts.mapM parameter = .error e) : Shallow e := by
  induction ts generalizing e with
  | nil => cases h
  | cons c ts ih =>
    rw [List.mapM_cons] at h
    refine shallow_bind (fun _ => shallow_parameter) (fun p e h => ?_) h
    exact shallow_bind (fun _ => ih) (fun ps e h => by cases h) h

theorem shallow_signature (h : signature site ts = .error e) : Shallow e := by
  unfold signature at h
  split at h
  · refine shallow_bind (fun _ => shallow_require) (fun _ e h => ?_) h
    refine shallow_bind (fun _ => shallow_type) (fun _ e h => ?_) h
    refine shallow_bind (fun _ => shallow_require) (fun _ e h => ?_) h
    refine shallow_bind (fun _ => shallow_require) (fun _ e h => ?_) h
    exact shallow_bind (fun _ => shallow_parameters) (fun _ e h => by cases h) h
  · cases h
    nofun

theorem quiet_declareFunction (site : Site) (ts : List Tree) : Quiet (declareFunction site ts) := by
  refine quiet_bind (quiet_lift fun _ => shallow_signature) fun sig => quiet_get fun s => ?_
  dsimp only
  split
  · exact quiet_throw nofun
  · exact quiet_of_ok fun _ => ⟨_, _, rfl⟩

theorem quiet_declareAll (k : Nat) (ts : List Tree) : Quiet (declareAll k ts) := by
  induction ts generalizing k with
  | nil =>
    rw [declareAll]
    exact quiet_pure []
  | cons c ts ih =>
    have hrest : ∀ id, Quiet (declareAll (k + 1) ts >>= fun ids => pure (id :: ids)) :=
      fun id => quiet_bind (ih (k + 1)) fun _ => quiet_pure _
    rw [declareAll]
    split
    · refine quiet_bind (quiet_declareFunction _ _) fun id => ?_
      exact quiet_bind (quiet_of_ok fun _ => ⟨_, _, rfl⟩) fun _ => hrest (some id)
    · exact hrest none

theorem quiet_directive (site : Site) (ts : List Tree) : Quiet (directive site ts) := by
  unfold directive
  split
  · split
    · refine quiet_bind (quiet_lift fun _ => shallow_require) fun _ => ?_
      split
      · exact quiet_bind (quiet_throw nofun) fun _ => quiet_bind
          (quiet_lift fun _ => shallow_literal) fun _ => quiet_of_ok fun _ => ⟨_, _, rfl⟩
      · exact quiet_bind (quiet_lift fun _ => shallow_literal) fun _ =>
          quiet_of_ok fun _ => ⟨_, _, rfl⟩
    · exact quiet_throw nofun
  · exact quiet_throw nofun

end Declarations

theorem quiet_enter (id : Nat) : Quiet (enter id) :=
  quiet_bind (quiet_of_ok fun _ => ⟨_, _, rfl⟩) fun _ =>
    quiet_bind (quiet_inFunction _) fun _ => quiet_of_ok fun _ => ⟨_, _, rfl⟩

end TreeFlow.Lower
