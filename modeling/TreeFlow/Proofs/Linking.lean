import TreeFlow.Proofs.Layout
import TreeFlow.Proofs.Registration

/-!
# From declarations to functions

A lowered module consists of one function for each function declaration, in the
order in which they were registered, and of the intrinsic if it was called. The
body of a declaration is laid out in its function, under the constants that are
defined above it.
-/

set_option autoImplicit false

namespace TreeFlow

variable {its : List (Tree × Option Nat)} {singlePass : Bool} {ts : List Tree} {site : Site}
  {m : Module}

/-! ## Constants and functions along a run -/

namespace Lower

variable {n : Nat} {s t u : LowerState}

theorem Step.constants (h : Step n s t) : t.scope.constants = s.scope.constants := by
  cases h with
  | emission h => cases h <;> rfl
  | _ => rfl

theorem Steps.constants (h : Steps n s t) : t.scope.constants = s.scope.constants := by
  induction h with
  | refl => rfl
  | tail _ hstep ih => exact hstep.constants.trans ih

theorem created_put {id j : Nat} {f g e : Function} (hin : s.In id f)
    (he : (s.put id g).module.function? j = some e) : ∃ e₀, s.module.function? j = some e₀ := by
  rw [LowerState.function?_put hin.found] at he
  split at he
  · exact ⟨f, by rw [‹j = id›, hin.found]⟩
  · exact ⟨e, he⟩

theorem created_declare {sig : Signature} {j : Nat} {e : Function}
    (he : (m.declare sig).function? j = some e) :
    (∃ e₀, m.function? j = some e₀) ∨ j = m.functions.length ∧ e = .declare j sig := by
  rw [Module.function?_declare] at he
  split at he
  · cases he
    exact .inr ⟨‹_›, rfl⟩
  · exact .inl ⟨e, he⟩

theorem Step.created (h : Step n s t) {j : Nat} {e : Function}
    (he : t.module.function? j = some e) :
    (∃ e₀, s.module.function? j = some e₀) ∨ e = .declare j Intrinsic.signature := by
  cases h with
  | emission h =>
    cases h with
    | note => exact .inl ⟨e, he⟩
    | depth => exact .inl ⟨e, he⟩
    | intrinsic => exact (created_declare he).imp_right And.right
    | format => exact .inl ⟨e, he⟩
    | define hat => exact .inl (created_put hat.toIn he)
    | perform hat => exact .inl (created_put hat.toIn he)
  | cursor => exact .inl ⟨e, he⟩
  | enterLoop => exact .inl ⟨e, he⟩
  | leaveLoop => exact .inl ⟨e, he⟩
  | bind => exact .inl ⟨e, he⟩
  | block _ hin => exact .inl (created_put hin he)
  | slot _ hin => exact .inl (created_put hin he)
  | burn hin => exact .inl (created_put hin he)
  | seed _ _ hin => exact .inl (created_put hin he)
  | close hat => exact .inl (created_put hat.toIn he)

theorem Steps.created (h : Steps 0 s t) {id j : Nat} {f e : Function} (hin : s.In id f)
    (he : t.module.function? j = some e) :
    (∃ e₀, s.module.function? j = some e₀) ∨ e = .declare j Intrinsic.signature := by
  induction h generalizing e with
  | refl => exact .inl ⟨e, he⟩
  | tail hrun hstep ih =>
    rcases hstep.created he with ⟨e₁, he₁⟩ | hnew
    · by_cases hj : j = id
      · exact .inl ⟨f, hj ▸ hin.found⟩
      · rcases ih he₁ with hold | rfl
        · exact .inl hold
        · -- The intrinsic is not the function under the cursor.
          obtain ⟨g, hg⟩ := Steps.kept hrun hin (Nat.zero_le _)
          obtain ⟨g', hg'⟩ := hstep.kept hg.inside (Nat.zero_le _)
          have hsame := hg'.others j _ hj he₁
          exact .inr (by simpa [he] using hsame)
    · exact .inr hnew

end Lower

/-! ## Declarations -/

def Mark.entry (constants : List (String × Int)) (f : Signature) : Mark where
  scope := Lower.parameterScope ⟨[], constants⟩ (Function.arguments (.declare 0 f))
  block := 0
  offset := 0
  ended := false
  blocks := 1
  registers := 0
  slots := 0
  seeds := 0

/-- Function `g`, at position `id` of the module, is what a declaration
becomes. -/
structure Module.Compiles (m : Module) (constants : List (String × Int)) (t : Tree) (id : Nat)
    (g : Function) : Prop where
  kind : t.kind = .functionDeclaration
  function : m.function? id = some g
  signature : Lower.signature t.site t.children = .ok g.toSignature
  body : ∃ result params body, t.children = [result, params, body] ∧ ∃ μ,
    Lays m g (.many body.children) [] (.entry constants g.toSignature) μ ∧
      (μ.ended = false → g.Ends μ (.ret (Lower.defaultReturn g.ret))) ∧
        g.bodies.length = μ.blocks ∧ g.registers = μ.registers ∧ g.slots.length = μ.slots ∧
          g.seeds.length = μ.seeds

/-- The items of a program, each with the position of its function, and the
constants that are defined above them. -/
inductive Module.Assembles (m : Module) :
    List (String × Int) → List Tree → List (Option Nat) → Prop
  | nil {cs : List (String × Int)} : Assembles m cs [] []
  | constant {cs : List (String × Int)} {t : Tree} {c : String × Int} {ts : List Tree}
      {ids : List (Option Nat)} (value : t.constant? = some c)
      (rest : Assembles m (c :: cs) ts ids) :
      Assembles m cs (t :: ts) (none :: ids)
  | function {cs : List (String × Int)} {t : Tree} {id : Nat} {g : Function} {ts : List Tree}
      {ids : List (Option Nat)} (compiled : m.Compiles cs t id g)
      (rest : Assembles m cs ts ids) : Assembles m cs (t :: ts) (some id :: ids)

theorem Tree.kind_of_constant? {t : Tree} {c : String × Int} (h : t.constant? = some c) :
    t.kind ≠ .functionDeclaration := by
  intro hkind
  simp [Tree.constant?, hkind] at h

theorem Module.Assembles.declared {cs : List (String × Int)} {ids : List (Option Nat)}
    (h : m.Assembles cs ts ids) {cs' : List (String × Int)} {f : Tree}
    (hf : (cs', f) ∈ Tree.declarationsFrom cs ts) : ∃ id g, m.Compiles cs' f id g := by
  induction h with
  | nil => cases hf
  | @constant cs t c ts ids value _ ih =>
    rw [Tree.declarationsFrom, if_neg (Tree.kind_of_constant? value), value] at hf
    exact ih hf
  | @function cs t id g ts ids compiled _ ih =>
    rw [Tree.declarationsFrom, if_pos compiled.kind] at hf
    rcases List.mem_cons.mp hf with hf | hf
    · cases hf
      exact ⟨id, g, compiled⟩
    · exact ih hf

theorem Module.Assembles.declares {cs : List (String × Int)} {ids : List (Option Nat)}
    (h : m.Assembles cs ts ids) {j : Nat} (hj : some j ∈ ids) :
    ∃ cs' f g, (cs', f) ∈ Tree.declarationsFrom cs ts ∧ m.Compiles cs' f j g := by
  induction h with
  | nil => cases hj
  | @constant cs t c ts ids value _ ih =>
    rw [Tree.declarationsFrom, if_neg (Tree.kind_of_constant? value), value]
    exact ih (by simpa using hj)
  | @function cs t id g ts ids compiled _ ih =>
    rw [Tree.declarationsFrom, if_pos compiled.kind]
    rcases List.mem_cons.mp hj with h | hj
    · cases h
      exact ⟨cs, t, g, List.mem_cons_self .., compiled⟩
    · obtain ⟨cs', f, g', hmem, hcomp⟩ := ih hj
      exact ⟨cs', f, g', List.mem_cons_of_mem _ hmem, hcomp⟩

namespace Lower

variable {s t u v : LowerState}

theorem mark_opened {id : Nat} {sig : Signature} {l : Block}
    (hl : (Function.addBlock (.declare id sig) "entry").bodies[0]? = some l) :
    Mark.of (opened site s id (.declare id sig)).scope (Function.addBlock (.declare id sig) "entry")
      0 l = .entry s.scope.constants sig := by
  have hfresh : l = ⟨0, "entry" ++ "." ++ toString 0, [], none⟩ := by
    simpa [Function.addBlock, Function.declare, eq_comm] using hl
  subst hfresh
  rfl

/-- A body that was lowered successfully stands in its function. -/
theorem body_compiles {id : Nat} {sig : Signature} {c : Tree} {x : Unit}
    (hf : s.module.function? id = some (.declare id sig)) (hr : body site id c s = .ok x v) :
    ∃ g, v.module.function? id = some g ∧ g.toSignature = sig ∧
      ∀ m, v.module.Extends m → ∃ μ,
        Lays m g (.many c.children) [] (.entry s.scope.constants sig) μ ∧
          (μ.ended = false → g.Ends μ (.ret (defaultReturn sig.ret))) ∧
            g.bodies.length = μ.blocks ∧ g.registers = μ.registers ∧ g.slots.length = μ.slots ∧
              g.seeds.length = μ.seeds := by
  rw [body_run hf] at hr
  obtain ⟨_, w, hw, hr₁⟩ := bind_ok.mp hr
  obtain ⟨-, t, ht, hstmts⟩ := block_ok hw
  obtain ⟨l, hl, -, -⟩ := fresh_addBlock (.declare id sig) "entry"
  have hl' : (Function.addBlock (.declare id sig) "entry").bodies[0]? = some l := hl
  obtain ⟨hat, hscope, hloops, hmod⟩ := setBlock_at (opened_in hf) hl' ht
  obtain ⟨g, b, k, hatw, hl₁, hcode⟩ := (statement_lays c).2 hat hstmts
  have hsteps :=
    (steps_statements (fun t _ _ hn => steps_statement t hn) (grown_at hat)).of_ok hstmts
  obtain ⟨g', hkept⟩ := hsteps.kept hat.toIn (Nat.le_refl _)
  obtain ⟨-, rfl⟩ := hatw.toIn.unique hkept.inside
  have hsig : g'.toSignature = sig := hkept.grows.signature
  have hentry : ∀ m g, w.module.Extends m → g'.Extends g →
      Lays m g (.many c.children) [] (.entry s.scope.constants sig) (Mark.of w.scope g' b k) := by
    intro m g hm hg
    have hlays := hcode m g hm hg
    rw [hscope, hloops] at hlays
    exact (mark_opened hl' : Mark.of (opened site s id (.declare id sig)).scope _ 0 l = _) ▸ hlays
  obtain ⟨e, y, hy, hr₂⟩ := bind_ok.mp hr₁
  obtain ⟨_, _, _, _, hat', he, rfl⟩ := terminated_ok.mp hy
  obtain ⟨rfl, rfl, rfl, rfl⟩ := hatw.unique hat'
  cases e with
  | true =>
    cases hr₂
    refine ⟨_, hatw.found, hsig, fun m hm => ⟨_, hentry m _ hm (.refl _), ?_, rfl, rfl, rfl, rfl⟩⟩
    simp [Mark.of, ← he]
  | false =>
    obtain ⟨_, z, hz, hr₃⟩ := bind_ok.mp hr₂
    cases hz
    obtain ⟨_, z, hz, hr₄⟩ := bind_ok.mp hr₃
    cases hr₄
    have hatn : LowerState.At { y with log := y.log ++ [.bodyFellOff site.name] } _ _ _ _ :=
      ⟨⟨hatw.function, hatw.found⟩, hatw.cursor, hatw.block⟩
    have hclosed := terminate_closes hatn hz
    refine ⟨_, hclosed.here.found, hsig, fun m hm =>
      ⟨_, hentry m _ (hclosed.module.trans hm) hclosed.grows, fun _ => ?_, ?_⟩⟩
    · exact ends_close hatn.block _ _
    · simp [Mark.of, Function.close]

/-! ## Items -/

theorem parameterScope_constants (scope : Scope) (args : List (String × Value)) :
    (parameterScope scope args).constants = scope.constants := by
  unfold parameterScope
  suffices h : ∀ c : Scope, (args.foldl (fun c a => c.bind a.1 (.register a.2)) c).constants =
      c.constants from h _
  induction args with
  | nil => exact fun _ => rfl
  | cons a args ih => exact fun c => ih _

structure Passes (s v : LowerState) (id : Nat) : Prop where
  constants : v.scope.constants = s.scope.constants
  others : ∀ j e, j ≠ id → s.module.function? j = some e → v.module.function? j = some e
  created : ∀ j e, v.module.function? j = some e →
    (∃ e₀, s.module.function? j = some e₀) ∨ j = id ∨ e = .declare j Intrinsic.signature

theorem body_passes {id : Nat} {f : Function} {c : Tree} {x : Unit}
    (hf : s.module.function? id = some f) (hr : body site id c s = .ok x v) : Passes s v id := by
  obtain ⟨w, hsteps, rfl⟩ := steps_body hf hr
  have hin : (opened site s id f).In id (f.addBlock "entry") := opened_in hf
  obtain ⟨g, hg⟩ := hsteps.kept hin (Nat.zero_le _)
  have hput := LowerState.function?_put hf (f.addBlock "entry")
  refine ⟨?_, fun j e hj he => ?_, fun j e he => ?_⟩
  · exact hsteps.constants.trans (parameterScope_constants _ _)
  · refine hg.others j e hj ?_
    rw [← he]
    exact (hput j).trans (if_neg hj)
  · rcases hsteps.created hin he with ⟨e₀, he₀⟩ | hnew
    · refine .inl ?_
      by_cases hj : j = id
      · exact ⟨f, hj ▸ hf⟩
      · exact ⟨e₀, ((hput j).trans (if_neg hj)).symm.trans he₀⟩
    · exact .inr (.inr hnew)

def Pending (s : LowerState) (t : Tree) (id : Nat) : Prop :=
  ∃ sig, signature t.site t.children = .ok sig ∧ s.module.function? id = some (.declare id sig)

theorem declareFunction_pending {id : Nat} (h : declareFunction site ts s = .ok id t) :
    Pending t (.node site ts) id := by
  obtain ⟨sig, hsig, -, rfl, hm, -⟩ := declareFunction_ok h
  refine ⟨sig, hsig, ?_⟩
  rw [hm]
  exact List.getElem?_concat_length ..

theorem function_compiles {c : Tree} {r : Option Nat} {x : Unit}
    (hkind : c.kind = .functionDeclaration)
    (hp : ∀ id, r = some id → Pending s c id)
    (hr : function c.site r c.children s = .ok x v) :
    ∃ id g, (r = some id ∨ r = none ∧ id = s.module.functions.length) ∧ Passes s v id ∧
      v.module.function? id = some g ∧ ∀ m, v.module.Extends m → m.function? id = some g →
        m.Compiles s.scope.constants c id g := by
  have hreg : Registered s r := by
    intro id hid
    obtain ⟨sig, -, hf⟩ := hp id hid
    exact ⟨_, hf⟩
  obtain ⟨result, params, b, id, f, w, hts, hw, hf, hb⟩ := function_ok hreg hr
  have hpending : Pending w c id ∧ w.scope = s.scope ∧
      (∀ j e, j ≠ id → s.module.function? j = some e → w.module.function? j = some e) ∧
      (∀ j e, w.module.function? j = some e → (∃ e₀, s.module.function? j = some e₀) ∨ j = id) ∧
      (r = some id ∨ r = none ∧ id = s.module.functions.length) := by
    rcases hw with ⟨hid, rfl⟩ | ⟨hid, hdecl⟩
    · exact ⟨hp id hid, rfl, fun _ _ _ he => he, fun j e he => .inl ⟨e, he⟩, .inl hid⟩
    · have hpend := declareFunction_pending hdecl
      obtain ⟨sig, -, -, rfl, hm, hscope⟩ := declareFunction_ok hdecl
      refine ⟨?_, hscope, fun j e _ he => ?_, fun j e he => ?_, .inr ⟨hid, rfl⟩⟩
      · cases c
        exact hpend
      · rw [hm, ← he]
        exact List.getElem?_append_left (List.getElem?_eq_some_iff.mp he).1
      · rw [hm] at he
        exact (created_declare he).imp_right And.left
  obtain ⟨⟨sig, hsig, hdecl⟩, hscope, hothers, hcreated, hid⟩ := hpending
  have hpass := body_passes hdecl hb
  obtain ⟨g, hg, hgsig, hlays⟩ := body_compiles hdecl hb
  refine ⟨id, g, hid, ⟨hscope ▸ hpass.constants, fun j e hj he => ?_, fun j e he => ?_⟩, hg,
    fun m hm hmg => ?_⟩
  · exact hpass.others j e hj (hothers j e hj he)
  · rcases hpass.created j e he with ⟨e₀, he₀⟩ | h
    · rcases hcreated j e₀ he₀ with h | h
      · exact .inl h
      · exact .inr (.inl h)
    · exact .inr h
  · obtain ⟨μ, h⟩ := hlays m hm
    rw [hscope] at h
    refine ⟨hkind, hmg, hgsig ▸ hsig, result, params, b, hts, μ, ?_⟩
    rw [← hgsig] at h
    exact h

theorem directive_constants {x : Unit} (hkind : site.kind = .preprocessorDirective)
    (h : directive site ts s = .ok x v) :
    ∃ d, (Tree.node site ts).constant? = some d ∧ v.scope.constants = d :: s.scope.constants ∧
      v.module = s.module := by
  have hmod := directive_module h
  unfold directive at h
  split at h
  · rename_i hname
    split at h
    · rename_i name value
      obtain ⟨_, w, hw, h₁⟩ := bind_ok.mp h
      obtain ⟨-, rfl⟩ := lift_ok.mp hw
      dsimp only at h₁
      split at h₁
      · cases h₁
      · obtain ⟨n, w', hw', h₂⟩ := bind_ok.mp h₁
        obtain ⟨hn, rfl⟩ := lift_ok.mp hw'
        cases h₂
        refine ⟨(name.name, n), ?_, rfl, hmod⟩
        rw [Tree.constant?, if_pos ⟨hkind, hname⟩]
        simp [Tree.children, hn, Except.toOption]
    · cases h
  · cases h

theorem items_changes {x : Unit} (hr : ∀ i ∈ its, Registered s i.2) (h : items its s = .ok x u) :
    Changes s.module u.module := by
  induction its generalizing s with
  | nil =>
    rw [items] at h
    cases h
    exact .refl
  | cons i its ih =>
    rw [items] at h
    obtain ⟨_, v, hv, h₁⟩ := bind_ok.mp h
    have hg := item_changes (hr i (by simp)) hv
    exact hg.trans (ih (fun j hj => hg.registered (hr j (by simp [hj]))) h₁)

/-- What holds before some items are lowered: the registered ones are declared
and not yet lowered, each in a place of its own. -/
structure Waiting (s : LowerState) (its : List (Tree × Option Nat)) : Prop where
  kind : ∀ i ∈ its, ∀ id, i.2 = some id → i.1.kind = .functionDeclaration
  pending : ∀ i ∈ its, ∀ id, i.2 = some id → Pending s i.1 id
  distinct : (its.filterMap (·.2)).Nodup

structure Finished (s u : LowerState) (its : List (Tree × Option Nat)) (ids : List (Option Nat)) :
    Prop where
  assembles : u.module.Assembles s.scope.constants (its.map (·.1)) ids
  registered : ∀ i ∈ its, ∀ id, i.2 = some id → some id ∈ ids
  others : ∀ j e, s.module.function? j = some e → (∀ i ∈ its, i.2 ≠ some j) →
    u.module.function? j = some e
  created : ∀ j e, u.module.function? j = some e →
    (∃ e₀, s.module.function? j = some e₀) ∨ some j ∈ ids ∨ e = .declare j Intrinsic.signature

theorem Waiting.registered (h : Waiting s its) : ∀ i ∈ its, Registered s i.2 := by
  intro i hi id hid
  obtain ⟨sig, -, hf⟩ := h.pending i hi id hid
  exact ⟨_, hf⟩

theorem Waiting.distinct_tail {i : Tree × Option Nat} (h : Waiting s (i :: its)) :
    (its.filterMap (·.2)).Nodup := by
  refine h.distinct.sublist ?_
  rw [List.filterMap_cons]
  split
  · exact List.Sublist.refl _
  · exact List.sublist_cons_self ..

theorem Waiting.tail {i : Tree × Option Nat} {id : Nat} (h : Waiting s (i :: its))
    (hid : i.2 = some id ∨ i.2 = none ∧ id = s.module.functions.length) (hp : Passes s v id) :
    Waiting v its ∧ ∀ j ∈ its, j.2 ≠ some id := by
  have hne : ∀ j ∈ its, j.2 ≠ some id := by
    intro j hj hjid
    rcases hid with hid | ⟨-, rfl⟩
    · have hd := h.distinct
      rw [List.filterMap_cons, hid] at hd
      exact (List.nodup_cons.mp hd).1 (List.mem_filterMap.mpr ⟨j, hj, hjid⟩)
    · obtain ⟨sig, -, hf⟩ := h.pending j (by simp [hj]) _ hjid
      exact absurd (List.getElem?_eq_some_iff.mp hf).1 (Nat.lt_irrefl _)
  refine ⟨⟨fun j hj => h.kind j (by simp [hj]), fun j hj id' hid' => ?_, ?_⟩, hne⟩
  · obtain ⟨sig, hsig, hf⟩ := h.pending j (by simp [hj]) id' hid'
    refine ⟨sig, hsig, hp.others id' _ ?_ hf⟩
    rintro rfl
    exact hne j hj hid'
  · exact h.distinct_tail

theorem Waiting.skip {i : Tree × Option Nat} (h : Waiting s (i :: its))
    (hmodule : v.module = s.module) : Waiting v its := by
  refine ⟨fun j hj => h.kind j (by simp [hj]), fun j hj id hid => ?_, ?_⟩
  · obtain ⟨sig, hsig, hf⟩ := h.pending j (by simp [hj]) id hid
    exact ⟨sig, hsig, hmodule ▸ hf⟩
  · exact h.distinct_tail

theorem constant?_of_function {c : Tree} (kind : c.kind = .functionDeclaration) :
    c.constant? = none := by
  simp [Tree.constant?, kind]

theorem Waiting.next {i : Tree × Option Nat} {x : Unit} (h : Waiting s (i :: its))
    (hr : item i.1 i.2 s = .ok x v) :
    Waiting v its ∧ v.scope.constants = i.1.constant?.toList ++ s.scope.constants ∧
      (i.1.kind = .functionDeclaration ∨
        (∃ d, i.1.constant? = some d) ∧ v.module = s.module) := by
  rcases item_form i.1 i.2 with ⟨hkind, hi⟩ | ⟨hkind, hi⟩ | hi
  · rw [hi] at hr
    obtain ⟨d, hd, hconstants, hmodule⟩ := directive_constants hkind hr
    replace hd : i.1.constant? = some d := by
      obtain ⟨⟨site, ts⟩, r⟩ := i
      exact hd
    rw [hd]
    exact ⟨h.skip hmodule, hconstants, .inr ⟨⟨d, rfl⟩, hmodule⟩⟩
  · rw [hi] at hr
    obtain ⟨_, -, hid, hpass, -⟩ := function_compiles hkind (h.pending i (by simp)) hr
    rw [constant?_of_function hkind]
    exact ⟨(h.tail hid hpass).1, hpass.constants, .inl hkind⟩
  · rw [hi] at hr
    cases hr

theorem items_finished {x : Unit} (hw : Waiting s its) (hr : items its s = .ok x u) :
    ∃ ids, Finished s u its ids := by
  induction its generalizing s with
  | nil =>
    rw [items] at hr
    cases hr
    exact ⟨[], .nil, by simp, fun _ _ he _ => he, fun j e he => .inl ⟨e, he⟩⟩
  | cons i its ih =>
    rw [items] at hr
    obtain ⟨_, v, hv, hr₁⟩ := bind_ok.mp hr
    rcases item_form i.1 i.2 with ⟨hkind, hi⟩ | ⟨hkind, hi⟩ | hi
    · rw [hi] at hv
      obtain ⟨d, hd, hconst, hmod⟩ := directive_constants hkind hv
      replace hd : i.1.constant? = some d := by
        cases hi : i.1
        rw [hi] at hd
        exact hd
      have hnone : i.2 = none := by
        cases hid : i.2 with
        | none => rfl
        | some id =>
          have := hw.kind i (by simp) id hid
          rw [hkind] at this
          cases this
      obtain ⟨ids, hfin⟩ := ih (hw.skip hmod) hr₁
      refine ⟨none :: ids, .constant hd (hconst ▸ hfin.assembles), ?_, ?_, ?_⟩
      · intro j hj id hid
        rcases List.mem_cons.mp hj with rfl | hj
        · rw [hnone] at hid
          cases hid
        · exact List.mem_cons_of_mem _ (hfin.registered j hj id hid)
      · intro j e he hne
        exact hfin.others j e (hmod ▸ he) fun i hi => hne i (by simp [hi])
      · intro j e he
        rcases hfin.created j e he with h | h | h
        · exact .inl (hmod ▸ h)
        · exact .inr (.inl (List.mem_cons_of_mem _ h))
        · exact .inr (.inr h)
    · rw [hi] at hv
      obtain ⟨id, g, hid, hpass, hg, hcomp⟩ := function_compiles hkind (hw.pending i (by simp)) hv
      obtain ⟨hwait, hne⟩ := hw.tail hid hpass
      obtain ⟨ids, hfin⟩ := ih hwait hr₁
      have hgrows := items_changes hwait.registered hr₁
      have hgu := hfin.others id g hg hne
      refine ⟨some id :: ids,
        .function (hcomp _ hgrows.extends hgu) (hpass.constants ▸ hfin.assembles), ?_, ?_, ?_⟩
      · intro j hj id' hid'
        rcases List.mem_cons.mp hj with rfl | hj
        · rcases hid with hid | ⟨hid, -⟩
          · rw [hid'] at hid
            simp [hid]
          · rw [hid'] at hid
            cases hid
        · exact List.mem_cons_of_mem _ (hfin.registered j hj id' hid')
      · intro j e he hne'
        refine hfin.others j e (hpass.others j e ?_ he) fun i hi => hne' i (by simp [hi])
        rintro rfl
        rcases hid with hid | ⟨-, hid⟩
        · exact hne' i (by simp) hid
        · have := (List.getElem?_eq_some_iff.mp he).1
          omega
      · intro j e he
        rcases hfin.created j e he with ⟨e₀, he₀⟩ | h | h
        · rcases hpass.created j e₀ he₀ with h | rfl | h
          · exact .inl h
          · exact .inr (.inl (List.mem_cons_self ..))
          · by_cases hreg : ∃ i ∈ its, i.2 = some j
            · obtain ⟨i, hi, hij⟩ := hreg
              exact .inr (.inl (List.mem_cons_of_mem _ (hfin.registered i hi j hij)))
            · have hsame := hfin.others j e₀ he₀ fun i hi hij => hreg ⟨i, hi, hij⟩
              rw [he, Option.some.injEq] at hsame
              exact .inr (.inr (hsame.trans h))
        · exact .inr (.inl (List.mem_cons_of_mem _ h))
        · exact .inr (.inr h)
    · rw [hi] at hv
      cases hv

/-! ## Programs -/

theorem declareAll_waiting {k : Nat} {ids : List (Option Nat)} (h : declareAll k ts s = .ok ids t) :
    ids.length = ts.length ∧ t.scope = s.scope ∧ Waiting t (ts.zip ids) ∧
      (∀ j e, s.module.function? j = some e → t.module.function? j = some e) ∧
        (∀ r ∈ ids, ∀ id, r = some id → s.module.functions.length ≤ id) ∧
          ∀ j e, t.module.function? j = some e →
            (∃ e₀, s.module.function? j = some e₀) ∨ some j ∈ ids := by
  induction ts generalizing k s ids with
  | nil =>
    cases h
    exact ⟨rfl, rfl, ⟨by simp, by simp, by simp⟩, fun _ _ he => he, by simp,
      fun j e he => .inl ⟨e, he⟩⟩
  | cons c ts ih =>
    rcases declareAll_cons_ok h with ⟨hkind, id, u, ids', hu, hr, rfl⟩ | ⟨-, ids', hr, rfl⟩
    · obtain ⟨hlen, hscope, hwait, hold, hge, hnew⟩ := ih hr
      have hpend := declareFunction_pending hu
      obtain ⟨sig, hsig, hfree, rfl, hm, hscope'⟩ := declareFunction_ok hu
      have hlen' : (u.enrol k s.module.functions.length).module.functions.length =
          s.module.functions.length + 1 := by
        simp [LowerState.enrol, hm, Module.declare]
      refine ⟨by simp [hlen], hscope.trans hscope', ⟨?_, ?_, ?_⟩, ?_, ?_, ?_⟩
      · intro i hi id hid
        rcases List.mem_cons.mp hi with rfl | hi
        · exact hkind
        · exact hwait.kind i hi id hid
      · intro i hi id hid
        rcases List.mem_cons.mp hi with rfl | hi
        · cases hid
          obtain ⟨sig', hsig', hf⟩ := hpend
          refine ⟨sig', ?_, hold _ _ hf⟩
          cases c
          exact hsig'
        · exact hwait.pending i hi id hid
      · rw [List.zip_cons_cons, List.filterMap_cons]
        refine List.nodup_cons.mpr ⟨fun hmem => ?_, hwait.distinct⟩
        obtain ⟨i, hi, hii⟩ := List.mem_filterMap.mp hmem
        have := hge i.2 (List.of_mem_zip hi).2 _ hii
        omega
      · intro j e he
        refine hold j e ?_
        show u.module.function? j = some e
        rw [hm, ← he]
        exact List.getElem?_append_left (List.getElem?_eq_some_iff.mp he).1
      · intro r hr id hid
        rcases List.mem_cons.mp hr with rfl | hr
        · cases hid
          exact Nat.le_refl _
        · have := hge r hr id hid
          omega
      · intro j e he
        rcases hnew j e he with ⟨e₀, he₀⟩ | h
        · replace he₀ : u.module.function? j = some e₀ := he₀
          rw [hm] at he₀
          rcases created_declare he₀ with h | ⟨rfl, -⟩
          · exact .inl h
          · exact .inr (List.mem_cons_self ..)
        · exact .inr (List.mem_cons_of_mem _ h)
    · obtain ⟨hlen, hscope, hwait, hold, hge, hnew⟩ := ih hr
      refine ⟨by simp [hlen], hscope, ⟨?_, ?_, ?_⟩, hold, ?_, ?_⟩
      · intro i hi id hid
        rcases List.mem_cons.mp hi with rfl | hi
        · cases hid
        · exact hwait.kind i hi id hid
      · intro i hi id hid
        rcases List.mem_cons.mp hi with rfl | hi
        · cases hid
        · exact hwait.pending i hi id hid
      · rw [List.zip_cons_cons, List.filterMap_cons]
        exact hwait.distinct
      · intro r hr id hid
        rcases List.mem_cons.mp hr with rfl | hr
        · cases hid
        · exact hge r hr id hid
      · intro j e he
        exact (hnew j e he).imp_right (List.mem_cons_of_mem _)

theorem waiting_unregistered (s : LowerState) (ts : List Tree) :
    Waiting s (ts.zip (ts.map fun _ => none)) := by
  have hnone : ∀ i ∈ ts.zip (ts.map fun _ => (none : Option Nat)), i.2 = none := by
    intro i hi
    obtain ⟨_, -, h⟩ := List.mem_map.mp (List.of_mem_zip hi).2
    exact h.symm
  refine ⟨fun i hi id hid => ?_, fun i hi id hid => ?_, ?_⟩
  · rw [hnone i hi] at hid
    cases hid
  · rw [hnone i hi] at hid
    cases hid
  · rw [List.filterMap_eq_nil_iff.mpr hnone]
    exact .nil

theorem program_kind (h : program singlePass (.node site ts) s = .ok m u) :
    site.kind = .program := by
  refine Decidable.byContradiction fun hne => ?_
  rw [program_other hne] at h
  cases h

theorem program_runs (h : program singlePass (.node site ts) .initial = .ok m u) :
    ∃ ids s v, registration singlePass ts (started site ts) = .ok ids s ∧
      items (ts.zip ids) s = .ok () v ∧ m = v.module := by
  rw [program_eq (program_kind h)] at h
  obtain ⟨ids, s, hs, h₁⟩ := bind_ok.mp h
  obtain ⟨⟨⟩, v, hv, h₂⟩ := bind_ok.mp h₁
  cases h₂
  exact ⟨ids, s, v, hs, hv, rfl⟩

theorem program_of_runs {ids : List (Option Nat)} (kind : site.kind = .program)
    (hs : registration singlePass ts (started site ts) = .ok ids s)
    (hv : items (ts.zip ids) s = .ok () v) :
    ∃ u, program singlePass (.node site ts) .initial = .ok v.module u := by
  rw [program_eq kind]
  exact ⟨_, bind_ok.mpr ⟨ids, s, hs, bind_ok.mpr ⟨(), v, hv, rfl⟩⟩⟩

theorem program_ok (h : program singlePass (.node site ts) .initial = .ok m u) :
    site.kind = .program ∧ ∃ s ids v, s.scope = .empty ∧ Changes .empty s.module ∧
      ids.length = ts.length ∧ Waiting s (ts.zip ids) ∧ items (ts.zip ids) s = .ok () v ∧
        m = v.module ∧ ∀ j e, s.module.function? j = some e → some j ∈ ids := by
  refine ⟨program_kind h, ?_⟩
  obtain ⟨ids, s, v, hs, hv, rfl⟩ := program_runs h
  cases singlePass with
  | true =>
    cases hs
    exact ⟨_, _, v, rfl, .refl, by simp, waiting_unregistered _ ts, hv, rfl, nofun⟩
  | false =>
    obtain ⟨hlen, hscope, hwait, -, -, hnew⟩ := declareAll_waiting hs
    refine ⟨s, ids, v, hscope, (declareAll_changes hs).1, hlen, hwait, hv, rfl, fun j e he => ?_⟩
    rcases hnew j e he with ⟨e₀, he₀⟩ | h
    · cases he₀
    · exact h

end Lower

theorem Tree.lower_ok {t : Tree} (h : (t.lower singlePass).result = .ok m) :
    ∃ s, Lower.program singlePass t .initial = .ok m s := by
  unfold Tree.lower at h
  split at h
  · cases h
    exact ⟨_, ‹_›⟩
  · cases h

theorem Tree.lower_changes {t : Tree} (h : (t.lower singlePass).result = .ok m) :
    Lower.Changes .empty m := by
  obtain ⟨u, hu⟩ := Tree.lower_ok h
  cases t with
  | node site ts =>
    obtain ⟨-, s, regs, v, -, hs, -, hwait, hitems, rfl, -⟩ := Lower.program_ok hu
    exact hs.trans (Lower.items_changes hwait.registered hitems)

/-- A lowered module is assembled from the items of its program. Every function
of it stems from a declaration or is the intrinsic. -/
theorem Tree.lower_assembles {t : Tree} (h : (t.lower singlePass).result = .ok m) :
    t.kind = .program ∧ ∃ ids, m.Assembles [] t.children ids ∧
      ∀ j e, m.function? j = some e → some j ∈ ids ∨ e = .declare j Intrinsic.signature := by
  obtain ⟨u, hu⟩ := Tree.lower_ok h
  cases t with
  | node site ts =>
    obtain ⟨hkind, s, regs, v, hscope, -, hlen, hwait, hitems, rfl, hreg⟩ := Lower.program_ok hu
    obtain ⟨ids, hfin⟩ := Lower.items_finished hwait hitems
    refine ⟨hkind, ids, ?_, fun j e he => ?_⟩
    · have has := hfin.assembles
      rw [hscope, List.map_fst_zip (by omega)] at has
      exact has
    · rcases hfin.created j e he with ⟨e₀, he₀⟩ | h | h
      · have hmem := hreg j e₀ he₀
        obtain ⟨i, hi, hj⟩ := List.getElem_of_mem hmem
        have hzip : (ts.zip regs)[i]? = some (ts[i], some j) := by
          rw [List.getElem?_zip_eq_some]
          exact ⟨List.getElem?_eq_getElem (by omega), by rw [List.getElem?_eq_getElem hi, hj]⟩
        exact .inl (hfin.registered _ (List.mem_of_getElem? hzip) j rfl)
      · exact .inl h
      · exact .inr h

theorem Tree.lower_numbered {t : Tree} (h : (t.lower singlePass).result = .ok m) : m.Numbered :=
  (Tree.lower_changes h).numbered nofun

theorem Tree.lower_distinct {t : Tree} (h : (t.lower singlePass).result = .ok m) : m.Distinct :=
  (Tree.lower_changes h).distinct nofun

end TreeFlow
