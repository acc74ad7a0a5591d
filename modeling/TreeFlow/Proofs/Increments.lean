import TreeFlow.Proofs.Isolation
import TreeFlow.Proofs.Rewriting

/-!
# Programs that grow at their end

If no function is registered ahead of its body, a program is lowered item by item,
and what has been lowered is not touched again. The body of a function changes no
function but its own, which is the last one when it starts, and the intrinsic is
declared behind all others. So more items at the end of a program change neither the
error of the items in front of them nor the functions and globals that these made.
-/

set_option autoImplicit false

namespace TreeFlow

/-- The second module begins with the functions and the globals of the first. -/
structure Module.Begins (m m' : Module) : Prop where
  functions : m.functions <+: m'.functions
  globals : m.globals <+: m'.globals

namespace Module.Begins

theorem refl (m : Module) : m.Begins m := ⟨List.prefix_refl _, List.prefix_refl _⟩

theorem trans {m n p : Module} (h : m.Begins n) (h' : n.Begins p) : m.Begins p :=
  ⟨h.functions.trans h'.functions, h.globals.trans h'.globals⟩

theorem of_found {m m' : Module}
    (hfunctions : ∀ j f, m.function? j = some f → m'.function? j = some f)
    (hglobals : m.globals <+: m'.globals) : m.Begins m' where
  functions := List.prefix_iff_getElem?.mpr fun j hj =>
    hfunctions j _ (List.getElem?_eq_getElem hj)
  globals := hglobals

end Module.Begins

namespace Lower

variable {s t : LowerState}

/-! ## Items -/

theorem function_begins {site : Site} {ts : List Tree} {x : Unit}
    (hr : function site none ts s = .ok x t) : s.module.Begins t.module := by
  rw [function_none] at hr
  obtain ⟨id, u, hu, hr⟩ := bind_ok.mp hr
  obtain ⟨sig, -, -, rfl, rfl⟩ := declareFunction_run.mp hu
  obtain ⟨_, _, b, -, hbody⟩ := bodyOf_ok hr
  have hfound := s.module.function?_declared sig
  refine .of_found (fun j f hf => ?_) (body_changes hfound hbody).extends.globals
  obtain ⟨hlt, -⟩ := List.getElem?_eq_some_iff.mp hf
  refine (body_passes hfound hbody).others j f (Nat.ne_of_lt hlt) ?_
  show (s.module.declare sig).function? j = some f
  rw [Module.function?_declare, if_neg (Nat.ne_of_lt hlt), hf]

theorem item_begins {c : Tree} {x : Unit} (hr : item c none s = .ok x t) :
    s.module.Begins t.module := by
  rcases item_form c none with ⟨-, hi⟩ | ⟨-, hi⟩ | hi
  · rw [hi] at hr
    rw [directive_module hr]
    exact .refl _
  · rw [hi] at hr
    exact function_begins hr
  · rw [hi] at hr
    cases hr

def unregistered (ts : List Tree) : List (Tree × Option Nat) := ts.zip (ts.map fun _ => none)

theorem unregistered_append (xs ys : List Tree) :
    unregistered (xs ++ ys) = unregistered xs ++ unregistered ys := by
  unfold unregistered
  rw [List.map_append, List.zip_append (List.length_map _).symm]

theorem items_begins {ts : List Tree} {x : Unit} (hr : items (unregistered ts) s = .ok x t) :
    s.module.Begins t.module := by
  induction ts generalizing s with
  | nil =>
    rw [unregistered, List.zip_nil_left, items] at hr
    cases hr
    exact .refl _
  | cons c ts ih =>
    rw [unregistered, List.map_cons, List.zip_cons_cons, items] at hr
    obtain ⟨_, u, hu, hr⟩ := bind_ok.mp hr
    exact (item_begins hu).trans (ih hr)

theorem items_append_error {xs ys : List (Tree × Option Nat)} {e : LowerError}
    (h : items xs s = .error e t) : items (xs ++ ys) s = .error e t := by
  induction xs generalizing s with
  | nil => cases h
  | cons i xs ih =>
    rw [items] at h
    rw [List.cons_append, items]
    rcases bind_error.mp h with hi | ⟨_, u, hu, h⟩
    · exact bind_of_error hi
    · rw [bind_of_ok hu]
      exact ih h

/-! ## Programs -/

/-- What a run over the items of a program comes to. -/
def outcome : EStateM.Result LowerError LowerState Unit → Except LowerError Module
  | .ok _ s => .ok s.module
  | .error e _ => .error e

theorem Likewise.outcome {r r' : EStateM.Result LowerError LowerState Unit}
    (h : Likewise True (Between (.plain True)) r r') : outcome r = outcome r' := by
  cases h with
  | ok hs => exact congrArg Except.ok hs.module.symm
  | same => rfl
  | lax hlax | refused hlax => exact absurd trivial hlax

theorem outcome_started {site : Site} (ts xs ys : List Tree) :
    outcome (items (unregistered ts) (started site xs)) =
      outcome (items (unregistered ts) (started site ys)) := by
  have hsame : List.Forall₂ (Revised True) ts ts := List.forall₂_same.mpr fun t _ => .same t
  have hrun : Likewise True (Between (.plain True))
      (items (unregistered ts) (started site xs)) (items (unregistered ts) (started site ys)) :=
    continues_items hsame _ ⟨rfl, rfl⟩
  exact hrun.outcome

theorem lower_program {site : Site} (hkind : site.kind = .program) (ts : List Tree) :
    ((Tree.node site ts).lower true).result =
      outcome (items (unregistered ts) (started site ts)) := by
  rw [Tree.lower, program_singlePass hkind, ← unregistered]
  cases hitems : items (unregistered ts) (started site ts) with
  | ok x t =>
    rw [bind_of_ok hitems]
    rfl
  | error e t =>
    rw [bind_of_error hitems]
    rfl

theorem lower_other {site : Site} (hkind : site.kind ≠ .program) (ts : List Tree) :
    ((Tree.node site ts).lower true).result = .error (site.fault (.notProgram site.kind)) := by
  rw [Tree.lower, program_other hkind]

theorem outcome_error {r : EStateM.Result LowerError LowerState Unit} {e : LowerError}
    (h : outcome r = .error e) : ∃ t, r = .error e t := by
  cases r with
  | ok x t => cases h
  | error e t =>
    cases h
    exact ⟨t, rfl⟩

theorem outcome_ok {r : EStateM.Result LowerError LowerState Unit} {m : Module}
    (h : outcome r = .ok m) : ∃ t, r = .ok () t ∧ m = t.module := by
  cases r with
  | ok x t =>
    cases h
    exact ⟨t, rfl, rfl⟩
  | error e t => cases h

end Lower

/-- Items at the end of a program do not change what the items in front of them come
to, if functions are registered when they are reached. -/
theorem Tree.lower_incremental (site : Site) (xs ys : List Tree) :
    (∀ e, ((Tree.node site xs).lower true).result = .error e →
      ((Tree.node site (xs ++ ys)).lower true).result = .error e) ∧
    ∀ m m', ((Tree.node site xs).lower true).result = .ok m →
      ((Tree.node site (xs ++ ys)).lower true).result = .ok m' →
        m.functions <+: m'.functions ∧ m.globals <+: m'.globals := by
  by_cases hkind : site.kind = .program
  · rw [Lower.lower_program hkind, Lower.lower_program hkind, Lower.unregistered_append,
      Lower.outcome_started xs xs (xs ++ ys)]
    refine ⟨fun e he => ?_, fun m m' hm hm' => ?_⟩
    · obtain ⟨t, ht⟩ := Lower.outcome_error he
      rw [Lower.items_append_error ht]
      rfl
    · obtain ⟨t, ht, rfl⟩ := Lower.outcome_ok hm
      obtain ⟨u, hu, rfl⟩ := Lower.outcome_ok hm'
      obtain ⟨v, hv, hu⟩ := Lower.items_append.mp hu
      obtain rfl : t = v := by
        rw [ht] at hv
        cases hv
        rfl
      have hbegins := Lower.items_begins hu
      exact ⟨hbegins.functions, hbegins.globals⟩
  · rw [Lower.lower_other hkind, Lower.lower_other hkind]
    exact ⟨fun e he => he, fun m m' hm => by cases hm⟩

namespace Tree

def upTo (body : Tree) : List Tree := [routine "f" (printing ["1"]), routine "g" body]

def relaying (name : String) : Tree :=
  bare .block "" [bare .returnStatement "" [bare .functionCall name []]]

end Tree

theorem Tree.upTo_incremental :
    (∃ m m', ((bare .program "" (upTo (relaying "f"))).lower true).result = .ok m ∧
      ((bare .program "" (upTo (relaying "f") ++ [routine "h" (printing ["2"])])).lower
        true).result = .ok m' ∧
      (m.functions.length, m'.functions.length) = (3, 4) ∧ m.functions <+: m'.functions ∧
        m.globals <+: m'.globals) ∧
    ∃ e, ((bare .program "" (upTo (relaying "h"))).lower true).result = .error e ∧
      ((bare .program "" (upTo (relaying "h") ++ [routine "h" (printing ["2"])])).lower
        true).result = .error e := by
  constructor
  · obtain ⟨m, hm⟩ : ∃ m, ((bare .program "" (upTo (relaying "f"))).lower true).result = .ok m :=
      Lower.except_of_isOk (by decide +kernel)
    obtain ⟨m', hm'⟩ : ∃ m, ((bare .program "" (upTo (relaying "f") ++
        [routine "h" (printing ["2"])])).lower true).result = .ok m :=
      Lower.except_of_isOk (by decide +kernel)
    have hcount : ((bare .program "" (upTo (relaying "f"))).lower true).result.toOption.map
        (·.functions.length) = some 3 := by decide +kernel
    have hcount' : ((bare .program "" (upTo (relaying "f") ++
        [routine "h" (printing ["2"])])).lower true).result.toOption.map
        (·.functions.length) = some 4 := by decide +kernel
    rw [hm] at hcount
    rw [hm'] at hcount'
    refine ⟨m, m', hm, hm', ?_, (lower_incremental _ _ _).2 m m' hm hm'⟩
    exact Prod.ext (Option.some.inj hcount) (Option.some.inj hcount')
  · have hfails : ((bare .program "" (upTo (relaying "h"))).lower true).result.isOk = false := by
      decide +kernel
    cases he : ((bare .program "" (upTo (relaying "h"))).lower true).result with
    | ok m =>
      rw [he] at hfails
      cases hfails
    | error e => exact ⟨e, rfl, (lower_incremental _ _ _).1 e he⟩

end TreeFlow
