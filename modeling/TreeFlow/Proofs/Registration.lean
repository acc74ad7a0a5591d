import TreeFlow.Proofs.Assembly

/-!
# Registered functions

The state holds the function that was registered for an item, under the index of the
item. Lowering an item leaves these entries alone, so that they can be read off before
the first item is lowered. A program therefore registers its functions, or none of them,
and then lowers each item with what was registered for it.
-/

set_option autoImplicit false

namespace TreeFlow

/-- The items from an index on, each with the function that was registered for it. -/
def LowerState.listed (s : LowerState) : Nat → List Tree → List (Tree × Option Nat)
  | _, [] => []
  | k, t :: ts => (t, s.registered.lookup k) :: s.listed (k + 1) ts

namespace LowerState

variable {s t : LowerState}

theorem listed_congr (h : t.registered = s.registered) (k : Nat) (ts : List Tree) :
    t.listed k ts = s.listed k ts := by
  induction ts generalizing k with
  | nil => rfl
  | cons c ts ih => rw [listed, listed, h, ih]

theorem listed_blank (h : s.registered = []) (k : Nat) (ts : List Tree) :
    s.listed k ts = ts.zip (ts.map fun _ => none) := by
  induction ts generalizing k with
  | nil => rfl
  | cons c ts ih =>
    rw [listed, h, ih]
    rfl

def enrol (s : LowerState) (k id : Nat) : LowerState :=
  { s with registered := (k, id) :: s.registered }

theorem lookup_enrol (s : LowerState) (k id : Nat) :
    (s.enrol k id).registered.lookup k = some id := by
  simp [enrol]

theorem lookup_enrol_of_ne {j k : Nat} (h : j ≠ k) (id : Nat) :
    (s.enrol k id).registered.lookup j = s.registered.lookup j := by
  simp [enrol, List.lookup_cons, beq_eq_false_iff_ne.mpr h]

end LowerState

namespace Lower

variable {n k id : Nat} {site : Site} {ts : List Tree} {ids : List (Option Nat)}
  {s t u v : LowerState}

/-! ## What lowering an item leaves alone -/

theorem Step.registered (h : Step n s t) : t.registered = s.registered := by
  cases h with
  | emission h => cases h <;> rfl
  | _ => rfl

theorem Steps.registered (h : Steps n s t) : t.registered = s.registered := by
  induction h with
  | refl => rfl
  | tail _ hstep ih => exact hstep.registered.trans ih

theorem body_found {c : Tree} {x : Unit} (h : body site id c s = .ok x v) :
    ∃ f, s.module.function? id = some f := by
  cases hf : s.module.function? id with
  | some f => exact ⟨f, rfl⟩
  | none =>
    obtain ⟨_, _, hnote, h⟩ := bind_ok.mp h
    cases hnote
    obtain ⟨entry, _, henter, -⟩ := bind_ok.mp h
    obtain ⟨_, _, hset, henter⟩ := bind_ok.mp henter
    cases hset
    obtain ⟨b, _, hblock, -⟩ := bind_ok.mp henter
    obtain ⟨id', f, g, hin, -⟩ := inFunction_ok.mp hblock
    obtain rfl : id = id' := Option.some.inj hin.function
    exact absurd (hf.symm.trans hin.found) nofun

theorem body_registered {c : Tree} {x : Unit} (h : body site id c s = .ok x v) :
    v.registered = s.registered := by
  obtain ⟨f, hf⟩ := body_found h
  obtain ⟨w, hsteps, rfl⟩ := steps_body hf h
  exact hsteps.registered

theorem declareFunction_registered (h : declareFunction site ts s = .ok id t) :
    t.registered = s.registered := by
  obtain ⟨sig, u, hu, h₁⟩ := bind_ok.mp h
  obtain ⟨-, rfl⟩ := lift_ok.mp hu
  rw [get_bind] at h₁
  dsimp only at h₁
  split at h₁
  · cases h₁
  · cases h₁
    rfl

theorem function_registered {r : Option Nat} {x : Unit} (h : function site r ts s = .ok x v) :
    v.registered = s.registered := by
  cases r with
  | some id =>
    obtain ⟨_, _, _, -, hbody⟩ := bodyOf_ok (function_some site id ts ▸ h)
    exact body_registered hbody
  | none =>
    rw [function_none] at h
    obtain ⟨id, w, hw, h⟩ := bind_ok.mp h
    obtain ⟨_, _, _, -, hbody⟩ := bodyOf_ok h
    exact (body_registered hbody).trans (declareFunction_registered hw)

theorem directive_registered {x : Unit} (h : directive site ts s = .ok x v) :
    v.registered = s.registered := by
  unfold directive at h
  split at h
  · split at h
    · obtain ⟨_, w, hw, h₁⟩ := bind_ok.mp h
      obtain ⟨-, rfl⟩ := lift_ok.mp hw
      dsimp only at h₁
      split at h₁
      · cases h₁
      · obtain ⟨_, w, hw, h₂⟩ := bind_ok.mp h₁
        obtain ⟨-, rfl⟩ := lift_ok.mp hw
        cases h₂
        rfl
    · cases h
  · cases h

theorem item_registered {c : Tree} {r : Option Nat} {x : Unit} (h : item c r s = .ok x v) :
    v.registered = s.registered := by
  rcases item_form c r with ⟨-, hi⟩ | ⟨-, hi⟩ | hi
  · exact directive_registered (hi ▸ h)
  · exact function_registered (hi ▸ h)
  · rw [hi] at h
    cases h

/-! ## Items with their functions -/

def items : List (Tree × Option Nat) → Lower Unit
  | [] => pure ()
  | (t, registered) :: rest => do
    item t registered
    items rest

theorem itemsFrom_eq (k : Nat) (ts : List Tree) (s : LowerState) :
    itemsFrom k ts s = items (s.listed k ts) s := by
  induction ts generalizing k s with
  | nil => rfl
  | cons c ts ih =>
    show (item c (s.registered.lookup k) >>= fun _ => itemsFrom (k + 1) ts) s =
      (item c (s.registered.lookup k) >>= fun _ => items (s.listed (k + 1) ts)) s
    cases h : item c (s.registered.lookup k) s with
    | ok x u =>
      rw [bind_of_ok h, bind_of_ok h, ih, LowerState.listed_congr (item_registered h)]
    | error e u => rw [bind_of_error h, bind_of_error h]

/-! ## Registering functions -/

theorem register_bind {α : Type} (k id : Nat) (f : Unit → Lower α) :
    (register k id >>= f) s = f () (s.enrol k id) := rfl

/-- Registers the functions among the items, and gives each item the function that was
registered for it. -/
def declareAll : Nat → List Tree → Lower (List (Option Nat))
  | _, [] => return []
  | k, t :: ts =>
    if t.kind = .functionDeclaration then do
      let id ← declareFunction t.site t.children
      register k id
      let ids ← declareAll (k + 1) ts
      return some id :: ids
    else do
      let ids ← declareAll (k + 1) ts
      return none :: ids

theorem declareFrom_eq (k : Nat) (ts : List Tree) :
    declareFrom k ts = declareAll k ts >>= fun _ => pure () := by
  induction ts generalizing k with
  | nil => rfl
  | cons c ts ih =>
    rw [declareFrom, declareAll]
    split
    · simp only [ih, bind_assoc, pure_bind]
    · simp only [ih, bind_assoc, pure_bind]

theorem declareAll_cons_ok {c : Tree} (h : declareAll k (c :: ts) s = .ok ids t) :
    (c.kind = .functionDeclaration ∧ ∃ id u ids', declareFunction c.site c.children s = .ok id u ∧
      declareAll (k + 1) ts (u.enrol k id) = .ok ids' t ∧ ids = some id :: ids') ∨
    c.kind ≠ .functionDeclaration ∧ ∃ ids', declareAll (k + 1) ts s = .ok ids' t ∧
      ids = none :: ids' := by
  rw [declareAll] at h
  split at h
  · obtain ⟨id, u, hu, h⟩ := bind_ok.mp h
    rw [register_bind] at h
    obtain ⟨ids', w, hw, h⟩ := bind_ok.mp h
    cases h
    exact .inl ⟨‹_›, id, u, ids', hu, hw, rfl⟩
  · obtain ⟨ids', w, hw, h⟩ := bind_ok.mp h
    cases h
    exact .inr ⟨‹_›, ids', hw, rfl⟩

theorem declareAll_changes (h : declareAll k ts s = .ok ids t) :
    Changes s.module t.module ∧ ∀ r ∈ ids, Registered t r := by
  induction ts generalizing k s ids with
  | nil =>
    cases h
    exact ⟨.refl, by simp⟩
  | cons c ts ih =>
    rcases declareAll_cons_ok h with ⟨-, id, u, ids', hu, hr, rfl⟩ | ⟨-, ids', hr, rfl⟩
    · obtain ⟨hg, f, hf⟩ := declareFunction_changes hu
      obtain ⟨hg', hids⟩ := ih hr
      have hid : Registered (u.enrol k id) (some id) := fun j hj => ⟨f, by cases hj; exact hf⟩
      exact ⟨hg.trans hg', List.forall_mem_cons.mpr ⟨hg'.registered hid, hids⟩⟩
    · obtain ⟨hg, hids⟩ := ih hr
      exact ⟨hg, List.forall_mem_cons.mpr ⟨nofun, hids⟩⟩

theorem declareAll_lookup (h : declareAll k ts s = .ok ids t) {j : Nat} (hj : j < k) :
    t.registered.lookup j = s.registered.lookup j := by
  induction ts generalizing k s ids with
  | nil =>
    cases h
    rfl
  | cons c ts ih =>
    rcases declareAll_cons_ok h with ⟨-, id, u, ids', hu, hr, -⟩ | ⟨-, ids', hr, -⟩
    · rw [ih hr (Nat.lt_succ_of_lt hj), LowerState.lookup_enrol_of_ne (Nat.ne_of_lt hj),
        declareFunction_registered hu]
    · exact ih hr (Nat.lt_succ_of_lt hj)

theorem declareAll_listed (h : declareAll k ts s = .ok ids t)
    (hs : ∀ j, k ≤ j → s.registered.lookup j = none) : t.listed k ts = ts.zip ids := by
  induction ts generalizing k s ids with
  | nil => rfl
  | cons c ts ih =>
    rcases declareAll_cons_ok h with ⟨-, id, u, ids', hu, hr, rfl⟩ | ⟨-, ids', hr, rfl⟩
    · have hrest : t.listed (k + 1) ts = ts.zip ids' := by
        refine ih hr fun j hj => ?_
        rw [LowerState.lookup_enrol_of_ne (by omega), declareFunction_registered hu]
        exact hs j (by omega)
      rw [LowerState.listed, hrest, declareAll_lookup hr (Nat.lt_succ_self k),
        LowerState.lookup_enrol]
      rfl
    · rw [LowerState.listed, ih hr fun j hj => hs j (by omega),
        declareAll_lookup hr (Nat.lt_succ_self k), hs k (Nat.le_refl k)]
      rfl

/-! ## Programs -/

def registration (singlePass : Bool) (ts : List Tree) : Lower (List (Option Nat)) :=
  if singlePass then pure (ts.map fun _ => none) else declareAll 0 ts

def started (site : Site) (ts : List Tree) : LowerState :=
  { LowerState.initial with log := [.programStarted site.name ts.length] }

def conclude : Lower Module := do
  let m := (← get).module
  note (.programFinished m.functions.length m.globals.length)
  return m

theorem program_other (kind : site.kind ≠ .program) (singlePass : Bool) (ts : List Tree)
    (s : LowerState) :
    program singlePass (.node site ts) s = .error (site.fault (.notProgram site.kind)) s := by
  rw [program, if_neg kind]
  rfl

/-- The run of a program, with what was registered handed to its items. -/
theorem program_eq (kind : site.kind = .program) (singlePass : Bool) (ts : List Tree) :
    program singlePass (.node site ts) .initial = (do
      let ids ← registration singlePass ts
      items (ts.zip ids)
      conclude) (started site ts) := by
  -- What is registered is read off once, in front of the first item.
  have hitems : ∀ (ids : List (Option Nat)) s, s.listed 0 ts = ts.zip ids →
      (itemsFrom 0 ts >>= fun _ => conclude) s = (items (ts.zip ids) >>= fun _ => conclude) s := by
    intro ids s hlisted
    rw [← hlisted]
    have hsame := itemsFrom_eq 0 ts s
    cases h : items (s.listed 0 ts) s with
    | ok x u => rw [bind_of_ok h, bind_of_ok (hsame.trans h)]
    | error e u => rw [bind_of_error h, bind_of_error (hsame.trans h)]
  rw [program, if_pos kind]
  cases singlePass with
  | true => exact hitems _ (started site ts) (LowerState.listed_blank rfl 0 ts)
  | false =>
    show ((declareFrom 0 ts >>= fun _ => itemsFrom 0 ts >>= fun _ => conclude) : Lower Module)
      (started site ts) = (declareAll 0 ts >>= _) (started site ts)
    rw [declareFrom_eq, bind_assoc]
    cases h : declareAll 0 ts (started site ts) with
    | ok ids t =>
      rw [bind_of_ok h, bind_of_ok h]
      exact hitems ids t (declareAll_listed h fun _ _ => rfl)
    | error e t => rw [bind_of_error h, bind_of_error h]

theorem program_singlePass (kind : site.kind = .program) (ts : List Tree) :
    program true (.node site ts) .initial =
      (items (ts.zip (ts.map fun _ => none)) >>= fun _ => conclude) (started site ts) :=
  program_eq kind true ts

end Lower

end TreeFlow
