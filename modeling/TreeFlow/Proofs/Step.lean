import Mathlib.Logic.Relation
import TreeFlow.Flow.Verifier
import TreeFlow.Proofs.Form
import TreeFlow.Proofs.Growth

/-!
# What a lowering step can change

A run changes its state in small steps. Lowering an expression appends
instructions to the open block under the cursor, may declare the intrinsic and
adds formats. Lowering a statement also creates blocks and slots, binds names,
ends the block under the cursor and moves the cursor to blocks that did not
exist when it began. Both statements hold of runs that fail, too.
-/

set_option autoImplicit false

namespace TreeFlow.Lower

open Relation (ReflTransGen)

variable {α β : Type}

def last : EStateM.Result LowerError LowerState α → LowerState
  | .ok _ s => s
  | .error _ s => s

theorem last_bind {x : Lower α} {k : α → Lower β} {s : LowerState} :
    last ((x >>= k) s) = last (x s) ∨ ∃ a t, x s = .ok a t ∧ last ((x >>= k) s) = last (k a t) := by
  cases h : x s with
  | ok a t => exact .inr ⟨a, t, rfl, by rw [bind_of_ok h]⟩
  | error e t => exact .inl (by rw [bind_of_error h]; rfl)

/-! ## Steps of an expression -/

inductive Emission : LowerState → LowerState → Prop
  | note {s : LowerState} (e : Event) : Emission s { s with log := s.log ++ [e] }
  | depth {s : LowerState} (d : Nat) : Emission s { s with depth := d }
  | intrinsic {s : LowerState} (absent : s.module.find? Intrinsic.name = none) :
      Emission s { s with module := s.module.declare Intrinsic.signature }
  | format {s : LowerState} : Emission s { s with module := s.module.addBytes Intrinsic.format }
  | define {s : LowerState} {id b : Nat} {f : Function} {k : Block} {i : Instr}
      (here : s.At id f b k) (unended : k.terminator = none) (fresh : i.dest? = some f.registers)
      (plain : i.isAlloca = false) (known : s.module.checkCall i = none) :
      Emission s (s.put id (f.takeRegister.append b i))
  | perform {s : LowerState} {id b : Nat} {f : Function} {k : Block} {i : Instr}
      (here : s.At id f b k) (unended : k.terminator = none) (unnamed : i.dest? = none)
      (known : s.module.checkCall i = none) :
      Emission s (s.put id (f.append b i))

abbrev Emissions := ReflTransGen Emission

def Emitting (act : Lower α) : Prop := ∀ s, Emissions s (last (act s))

theorem emitting_pure (a : α) : Emitting (pure a) := fun _ => .refl

theorem emitting_throw (e : LowerError) : Emitting (throw e : Lower α) := fun _ => .refl

theorem emitting_lift (x : Except LowerError α) : Emitting (lift x) := by
  cases x with
  | ok a => exact emitting_pure a
  | error e => exact emitting_throw e

theorem emitting_bind {x : Lower α} {k : α → Lower β} (hx : Emitting x)
    (hk : ∀ a, Emitting (k a)) : Emitting (x >>= k) := by
  intro s
  rcases last_bind (x := x) (k := k) (s := s) with h | ⟨a, t, ha, h⟩
  · rw [h]
    exact hx s
  · have hs := hx s
    rw [ha] at hs
    rw [h]
    exact hs.trans (hk a t)

theorem emitting_get {k : LowerState → Lower α} (hk : ∀ s, Emitting (k s)) :
    Emitting (get >>= k) := fun s => hk s s

theorem emitting_nested {site : Site} {x : Lower α} (hx : Emitting x) :
    Emitting (nested site x) := by
  intro s
  by_cases h : s.depth < maxDepth
  · have hb := ReflTransGen.head (Emission.depth (s.depth + 1)) (hx (deeper s))
    rw [nested_of_shallow h]
    unfold ensuring
    cases hr : x (deeper s) with
    | ok a t =>
      rw [hr] at hb
      exact hb.tail (.depth _)
    | error e t =>
      rw [hr] at hb
      exact hb.tail (.depth _)
  · rw [nested_of_deep (Nat.not_lt.mp h)]
    exact .refl

theorem emitting_define {ty : Ty} {make : Nat → Instr} (hd : ∀ d, (make d).dest? = some d)
    (ha : ∀ d, (make d).isAlloca = false) (hc : ∀ (m : Module) d, m.checkCall (make d) = none) :
    Emitting (inBlock fun b => Build.define b ty make) := by
  intro s
  cases h : inBlock (fun b => Build.define b ty make) s with
  | ok v t =>
    obtain ⟨id, f, b, k, hat, ho, -, rfl⟩ := define_ok.mp h
    exact .single (.define hat ho (hd _) (ha _) (hc _ _))
  | error e t =>
    rw [inBlock_error (fun _ _ _ _ => Build.define_error) h]
    exact .refl

theorem emitting_load (ty : Ty) (p : Value) : Emitting (load ty p) :=
  emitting_define (fun _ => rfl) (fun _ => rfl) (fun _ _ => rfl)

theorem emitting_binary (op : Arith) (l r : Value) : Emitting (binary op l r) :=
  emitting_define (fun _ => rfl) (fun _ => rfl) (fun _ _ => rfl)

theorem emitting_icmp (test : Compare) (l r : Value) : Emitting (icmp test l r) :=
  emitting_define (fun _ => rfl) (fun _ => rfl) (fun _ _ => rfl)

theorem emitting_store (v p : Value) : Emitting (store v p) := by
  intro s
  cases h : store v p s with
  | ok u t =>
    obtain ⟨id, f, b, k, hat, ho, rfl⟩ := perform_ok.mp h
    exact .single (.perform hat ho rfl rfl)
  | error e t =>
    rw [inBlock_error (fun _ _ _ _ => Build.perform_error) h]
    exact .refl

theorem callee_known {m : Module} {id : Nat} {f : Function} (h : m.function? id = some f)
    (d : Option Nat) (args : List Value) : m.checkCall (.call d id args) = none := by
  obtain ⟨hlt, -⟩ := List.getElem?_eq_some_iff.mp h
  simp [Module.checkCall, hlt]

theorem emitting_call (id : Nat) (args : List Value) : Emitting (call id args) := by
  intro s
  unfold call
  rw [get_bind]
  cases hf : s.module.function? id with
  | none => exact .refl
  | some f =>
    have hc : ∀ d, s.module.checkCall (.call d id args) = none := fun d => callee_known hf d args
    change Emissions s (last (inBlock (fun b => Build.call b id f.ret args) s))
    cases h : inBlock (fun b => Build.call b id f.ret args) s with
    | ok v t =>
      obtain ⟨j, g, b, g', hin, hb, hr, rfl⟩ := inBlock_ok.mp h
      obtain ⟨k, hk, ho, hr⟩ := Build.call_ok.mp hr
      split at hr
      · obtain ⟨-, rfl⟩ := hr
        exact .single (.perform ⟨hin, hb, hk⟩ ho rfl (hc _))
      · obtain ⟨-, rfl⟩ := hr
        exact .single (.define ⟨hin, hb, hk⟩ ho rfl rfl (hc _))
    | error e t =>
      rw [inBlock_error (fun _ _ _ _ => Build.call_error) h]
      exact .refl

/-! ## Expressions -/

theorem emitting_findCallee (site : Site) : Emitting (findCallee site) := by
  intro s
  unfold findCallee
  rw [get_bind]
  cases hf : s.module.find? site.name with
  | some id => exact .refl
  | none =>
    by_cases hn : site.name = Intrinsic.name
    · rw [hn] at hf
      simp only [hn, ↓reduceIte, note_bind, declare, get_bind, modify_bind, pure_run]
      exact .head (.note _) (.single (.intrinsic hf))
    · simp only [hn, ↓reduceIte]
      exact .refl

theorem emitting_callee (site : Site) (n : Nat) : Emitting (callee site n) := by
  refine emitting_bind (emitting_findCallee site) fun id => emitting_get fun s => ?_
  cases s.module.function? id with
  | none => exact emitting_throw _
  | some f =>
    dsimp only
    split
    · refine emitting_bind (fun s => .single .format) fun _ => emitting_bind (emitting_pure _) ?_
      exact fun _ => emitting_bind (emitting_lift _) fun _ => emitting_pure _
    · refine emitting_bind (emitting_pure _) fun _ => emitting_bind (emitting_lift _) ?_
      exact fun _ => emitting_pure _

theorem emitting_name (site : Site) : Emitting (name site) := by
  refine emitting_get fun s => ?_
  split
  · exact emitting_pure _
  · exact emitting_load _ _
  · exact emitting_pure _
  · exact emitting_throw _

theorem emitting_operate (site : Site) (op : Operator) (l r : Value) :
    Emitting (operate site op l r) := by
  unfold operate
  split
  · cases op with
    | arith op => exact emitting_binary op l r
    | compare test => exact emitting_icmp test l r
  · exact emitting_throw _

theorem emitting_arguments {ts : List Tree} (h : ∀ t ∈ ts, Emitting (expression t)) (c : Callee)
    (args : List Value) : Emitting (arguments c args ts) := by
  induction ts generalizing args with
  | nil =>
    rw [arguments]
    exact emitting_pure _
  | cons t ts ih =>
    rw [arguments]
    refine emitting_bind (h t (by simp)) fun v => emitting_bind (emitting_lift _) fun _ => ?_
    exact ih (fun t ht => h t (by simp [ht])) _

theorem emitting_callValue {site : Site} {ts : List Tree}
    (h : ∀ t ∈ ts, Emitting (expression t)) : Emitting (callValue site ts) := by
  refine emitting_bind (emitting_callee _ _) fun c => ?_
  refine emitting_bind (emitting_arguments h c c.leading) fun args => ?_
  refine emitting_bind (emitting_call _ _) fun v => ?_
  cases v with
  | none => exact emitting_throw _
  | some v => exact emitting_pure _

theorem emitting_expression (t : Tree) : Emitting (expression t) := by
  induction t using Tree.induct with
  | node site children ih =>
    obtain ⟨act, hform, heq⟩ := expression_form site children
    rw [heq]
    refine emitting_nested ?_
    cases hform with
    | literal => exact emitting_lift _
    | name => exact emitting_name site
    | binary _ l r =>
      refine emitting_bind (emitting_lift _) fun op => emitting_bind (ih l (by simp)) fun u => ?_
      exact emitting_bind (ih r (by simp)) fun v => emitting_operate site op u v
    | call _ ts => exact emitting_callValue ih
    | refused => exact emitting_throw _

theorem emitting_functionCall (t : Tree) : Emitting (functionCall t) := by
  cases t with
  | node site children =>
    refine emitting_bind (emitting_callee _ _) fun c => ?_
    refine emitting_bind (emitting_arguments (fun t _ => emitting_expression t) c _) fun args => ?_
    exact emitting_call _ _

theorem emitting_condition (t : Tree) : Emitting (condition t) := by
  refine emitting_bind (emitting_expression t) fun v => ?_
  split
  · exact emitting_pure _
  · exact emitting_icmp _ _ _
  · exact emitting_throw _

/-! ## Steps of a statement -/

def Grown (n : Nat) (s : LowerState) : Prop := ∃ id f, s.In id f ∧ n ≤ f.bodies.length

/-- A step of a statement that began when there were `n` blocks. -/
inductive Step (n : Nat) : LowerState → LowerState → Prop
  | emission {s t : LowerState} (h : Emission s t) : Step n s t
  | cursor {s : LowerState} (b : Nat) (fresh : n ≤ b) (made : Grown (b + 1) s) :
      Step n s { s with block := some b }
  | enterLoop {s : LowerState} (l : LoopTargets) (onContinue : Grown (l.onContinue + 1) s)
      (onBreak : Grown (l.onBreak + 1) s) : Step n s { s with loops := l :: s.loops }
  | leaveLoop {s : LowerState} : Step n s { s with loops := s.loops.tail }
  | bind {s : LowerState} (name : String) (storage : Storage) :
      Step n s { s with scope := s.scope.bind name storage }
  | block {s : LowerState} {id : Nat} {f : Function} (label : String)
      (inside : s.In id f) : Step n s (s.put id (f.addBlock label))
  | slot {s : LowerState} {id : Nat} {f : Function} (ty : Ty)
      (inside : s.In id f) (entry : f.bodies ≠ []) : Step n s (s.put id (f.addSlot ty))
  | burn {s : LowerState} {id : Nat} {f : Function}
      (inside : s.In id f) (entry : f.bodies = []) : Step n s (s.put id f.takeRegister)
  | seed {s : LowerState} {id : Nat} {f : Function} (v p : Value)
      (inside : s.In id f) (entry : f.bodies ≠ []) : Step n s (s.put id (f.addSeed v p))
  | close {s : LowerState} {id b : Nat} {f : Function} {k : Block} {x : Terminator}
      (here : s.At id f b k) (unended : k.terminator = none)
      (targets : ∀ j ∈ x.successors, j < f.bodies.length) : Step n s (s.put id (f.close b x))

abbrev Steps (n : Nat) := ReflTransGen (Step n)

theorem Emitting.run {act : Lower α} (h : Emitting act) {a : α} {s t : LowerState}
    (hr : act s = .ok a t) : Emissions s t := by
  have hs := h s
  rwa [hr] at hs

theorem steps_of_emissions {n : Nat} {s t : LowerState} (h : Emissions s t) : Steps n s t :=
  ReflTransGen.mono (fun _ _ he => Step.emission he) _ _ h

/-! ## What a step keeps -/

/-- A run from `s` to `t` that began when there were `n` blocks extends the
function under the cursor from `f` to `g`. Of the first `n` blocks it changes
at most the one under the cursor, and it comes back to none of them. -/
structure Kept (n id : Nat) (f : Function) (s t : LowerState) (g : Function) : Prop where
  inside : t.In id g
  grows : f.Extends g
  cursor : t.block = s.block ∨ ∃ b, n ≤ b ∧ t.block = some b
  elsewhere : ∀ j, j < n → s.block ≠ some j → g.bodies[j]? = f.bodies[j]?
  others : ∀ j e, j ≠ id → s.module.function? j = some e → t.module.function? j = some e
  globals : s.module.globals <+: t.module.globals

section Keeping

variable {n id : Nat} {f g h : Function} {s t u : LowerState}

theorem Kept.same (hin : s.In id f) (hf : t.function = s.function) (hm : t.module = s.module)
    (hb : t.block = s.block ∨ ∃ b, n ≤ b ∧ t.block = some b) : Kept n id f s t f where
  inside := ⟨hf.trans hin.function, hm ▸ hin.found⟩
  grows := .refl f
  cursor := hb
  elsewhere _ _ _ := rfl
  others _ _ _ he := hm ▸ he
  globals := hm ▸ List.prefix_refl _

theorem Kept.put (hin : s.In id f) (hg : f.Extends g)
    (he : ∀ j, j < n → s.block ≠ some j → g.bodies[j]? = f.bodies[j]?) :
    Kept n id f s (s.put id g) g where
  inside := hin.put g
  grows := hg
  cursor := .inl rfl
  elsewhere := he
  others j e hj he := by rw [LowerState.function?_put hin.found, if_neg hj, he]
  globals := List.prefix_refl _

theorem Kept.trans (h₁ : Kept n id f s t g) (h₂ : Kept n id g t u h) : Kept n id f s u h where
  inside := h₂.inside
  grows := h₁.grows.trans h₂.grows
  cursor := by
    rcases h₂.cursor with hu | hu
    · rw [hu]
      exact h₁.cursor
    · exact .inr hu
  elsewhere j hj hs := by
    have ht : t.block ≠ some j := by
      rcases h₁.cursor with ht | ⟨b, hb, ht⟩
      · rwa [ht]
      · rw [ht, ne_eq, Option.some.injEq]
        omega
    exact (h₂.elsewhere j hj ht).trans (h₁.elsewhere j hj hs)
  others j e hj he := h₂.others j e hj (h₁.others j e hj he)
  globals := h₁.globals.trans h₂.globals

theorem bodies_append_elsewhere {b : Nat} (hb : s.block = some b) (i : Instr) (j : Nat)
    (hj : s.block ≠ some j) : (f.append b i).bodies[j]? = f.bodies[j]? := by
  rw [Function.bodies_append, if_neg]
  rintro rfl
  exact hj hb

theorem Emission.kept (h : Emission s t) (hin : s.In id f) : ∃ g, Kept n id f s t g := by
  cases h with
  | note e => exact ⟨f, .same hin rfl rfl (.inl rfl)⟩
  | depth d => exact ⟨f, .same hin rfl rfl (.inl rfl)⟩
  | intrinsic =>
    have hold : ∀ j e, s.module.function? j = some e →
        (s.module.declare Intrinsic.signature).function? j = some e := by
      intro j e he
      rw [← he]
      exact List.getElem?_append_left (List.getElem?_eq_some_iff.mp he).1
    exact ⟨f, ⟨hin.function, hold id f hin.found⟩, .refl f, .inl rfl, fun _ _ _ => rfl,
      fun j e _ => hold j e, List.prefix_refl _⟩
  | format =>
    exact ⟨f, ⟨hin.function, hin.found⟩, .refl f, .inl rfl, fun _ _ _ => rfl, fun _ _ _ he => he,
      List.prefix_append _ _⟩
  | define hat ho =>
    obtain ⟨rfl, rfl⟩ := hin.unique hat.toIn
    refine ⟨_, .put hin ((Function.extends_takeRegister _).trans ?_) fun j _ hj => ?_⟩
    · exact Function.extends_append (Function.takeRegister _) hat.block ho _
    · exact bodies_append_elsewhere hat.cursor _ j hj
  | perform hat ho =>
    obtain ⟨rfl, rfl⟩ := hin.unique hat.toIn
    exact ⟨_, .put hin (Function.extends_append _ hat.block ho _) fun j _ hj =>
      bodies_append_elsewhere hat.cursor _ j hj⟩

theorem Step.kept (h : Step n s t) (hin : s.In id f) (hn : n ≤ f.bodies.length) :
    ∃ g, Kept n id f s t g := by
  cases h with
  | emission h => exact h.kept hin
  | cursor b hb _ => exact ⟨f, .same hin rfl rfl (.inr ⟨b, hb, rfl⟩)⟩
  | enterLoop l _ _ => exact ⟨f, .same hin rfl rfl (.inl rfl)⟩
  | leaveLoop => exact ⟨f, .same hin rfl rfl (.inl rfl)⟩
  | bind name storage => exact ⟨f, .same hin rfl rfl (.inl rfl)⟩
  | block label hin' =>
    obtain ⟨rfl, rfl⟩ := hin.unique hin'
    refine ⟨_, .put hin (Function.extends_addBlock _ label) fun j hj _ => ?_⟩
    rw [Function.bodies_addBlock, if_neg (by omega)]
  | slot ty hin' =>
    obtain ⟨rfl, rfl⟩ := hin.unique hin'
    exact ⟨_, .put hin (Function.extends_addSlot _ ty) fun _ _ _ => rfl⟩
  | burn hin' =>
    obtain ⟨rfl, rfl⟩ := hin.unique hin'
    exact ⟨_, .put hin (Function.extends_takeRegister _) fun _ _ _ => rfl⟩
  | seed v p hin' =>
    obtain ⟨rfl, rfl⟩ := hin.unique hin'
    exact ⟨_, .put hin (Function.extends_addSeed _ v p) fun _ _ _ => rfl⟩
  | close hat ho =>
    obtain ⟨rfl, rfl⟩ := hin.unique hat.toIn
    refine ⟨_, .put hin (Function.extends_close _ hat.block ho _) fun j _ hj => ?_⟩
    rw [Function.bodies_close, if_neg]
    rintro rfl
    exact hj hat.cursor

theorem Steps.kept (h : Steps n s t) (hin : s.In id f) (hn : n ≤ f.bodies.length) :
    ∃ g, Kept n id f s t g := by
  induction h with
  | refl => exact ⟨f, .same hin rfl rfl (.inl rfl)⟩
  | tail _ hstep ih =>
    obtain ⟨g, hg⟩ := ih
    obtain ⟨h, hh⟩ := hstep.kept hg.inside (Nat.le_trans hn hg.grows.length)
    exact ⟨h, hg.trans hh⟩

theorem Kept.extends (h : Kept n id f s t g) (hin : s.In id f) :
    s.module.Extends t.module where
  functions j e he := by
    by_cases hj : j = id
    · subst hj
      obtain rfl : f = e := by simpa [hin.found] using he
      exact ⟨g, h.inside.found, h.grows⟩
    · exact ⟨e, h.others j e hj he, .refl e⟩
  globals := h.globals

theorem Steps.grown {m : Nat} (h : Steps n s t) (hn : Grown n s) (hm : Grown m s) : Grown m t := by
  obtain ⟨id, f, hin, hf⟩ := hn
  obtain ⟨id', f', hin', hf'⟩ := hm
  obtain ⟨rfl, rfl⟩ := hin.unique hin'
  obtain ⟨g, hg⟩ := h.kept hin hf
  exact ⟨_, g, hg.inside, Nat.le_trans hf' hg.grows.length⟩

end Keeping

/-! ## Statements -/

section Statements

variable {n : Nat} {s t : LowerState}

theorem steps_of_emitting {act : Lower α} (h : Emitting act) (s : LowerState) :
    Steps n s (last (act s)) := steps_of_emissions (h s)

theorem Steps.of_ok {act : Lower α} {a : α}
    (h : Steps n s (last (act s))) (hr : act s = .ok a t) : Steps n s t := by
  rwa [hr] at h

theorem steps_bind {x : Lower α} {k : α → Lower β} (hx : Steps n s (last (x s)))
    (hk : ∀ a t, x s = .ok a t → Steps n s t → Steps n t (last (k a t))) :
    Steps n s (last ((x >>= k) s)) := by
  rcases last_bind (x := x) (k := k) (s := s) with h | ⟨a, t, ha, h⟩
  · rwa [h]
  · rw [ha] at hx
    rw [h]
    exact hx.trans (hk a t ha hx)

theorem steps_ensuring {x : Lower α} {after : LowerState → LowerState}
    (hx : Steps n s (last (x s))) (ha : ∀ t, Step n t (after t)) :
    Steps n s (last (ensuring x after s)) := by
  unfold ensuring
  cases hr : x s with
  | ok a t =>
    rw [hr] at hx
    exact hx.tail (ha t)
  | error e t =>
    rw [hr] at hx
    exact hx.tail (ha t)

theorem steps_nested {site : Site} {x : Lower α} (hx : Steps n (deeper s) (last (x (deeper s)))) :
    Steps n s (last (nested site x s)) := by
  by_cases h : s.depth < maxDepth
  · rw [nested_of_shallow h]
    exact .head (.emission (.depth _)) (steps_ensuring hx fun t => .emission (.depth _))
  · rw [nested_of_deep (Nat.not_lt.mp h)]
    exact .refl

theorem steps_terminate (x : Terminator) :
    Steps n s (last (inBlock (fun b => Build.terminate b x) s)) := by
  cases h : inBlock (fun b => Build.terminate b x) s with
  | ok u t =>
    obtain ⟨id, f, b, k, hat, ho, ht, rfl⟩ := terminate_ok.mp h
    exact .single (.close hat ho ht)
  | error e t =>
    rw [inBlock_error (fun _ _ _ _ => Build.terminate_error) h]
    exact .refl

theorem steps_br (b : Nat) : Steps n s (last (br b s)) := steps_terminate _

theorem steps_condBr (c : Value) (yes no : Nat) : Steps n s (last (condBr c yes no s)) :=
  steps_terminate _

theorem steps_ret (v : Option Value) : Steps n s (last (ret v s)) := steps_terminate _

theorem steps_terminated : Steps n s (last (terminated s)) := by
  cases h : terminated s with
  | ok c t =>
    obtain ⟨id, f, b, k, -, -, rfl⟩ := terminated_ok.mp h
    exact .refl
  | error e t =>
    rw [inBlock_error (fun b f c g hg => ?_) h]
    · exact .refl
    · split at hg <;> simp_all

theorem steps_fallThrough (b : Nat) : Steps n s (last (fallThrough b s)) := by
  refine steps_bind steps_terminated fun c t _ _ => ?_
  cases c with
  | true => exact .refl
  | false => exact steps_br b

theorem steps_newBlock (label : String) : Steps n s (last (newBlock label s)) := by
  refine steps_bind ?_ fun b t _ _ => .single (.emission (.note _))
  cases h : inFunction (Build.newBlock label) s with
  | ok b t =>
    obtain ⟨id, f, g, hin, hr, rfl⟩ := inFunction_ok.mp h
    cases hr
    exact .single (.block label hin)
  | error e t =>
    rw [inFunction_error (fun _ _ _ h => by cases h) h]
    exact .refl

theorem steps_setBlock {b : Nat} (hb : n ≤ b) (hg : Grown (b + 1) s) :
    Steps n s (last (setBlock b s)) := by
  refine .head (.emission (.note (.insertionPoint b))) (.single (.cursor b hb ?_))
  obtain ⟨id, f, hin, hf⟩ := hg
  exact ⟨id, f, ⟨hin.function, hin.found⟩, hf⟩

theorem steps_alloca (ty : Ty) : Steps n s (last (alloca ty s)) := by
  cases h : alloca ty s with
  | ok v t =>
    obtain ⟨id, f, hin, hb, -, rfl⟩ := alloca_ok.mp h
    exact .single (.slot ty hin hb)
  | error e t =>
    obtain rfl | ⟨id, f, c, g, hin, hr, rfl⟩ := inFunction_fails h
    · exact .refl
    · by_cases hb : f.bodies = []
      · rw [Build.alloca_of_empty hb] at hr
        cases hr
        exact .single (.burn hin hb)
      · rw [Build.alloca_of hb] at hr
        cases hr

theorem steps_seed (v p : Value) : Steps n s (last (seed v p s)) := by
  cases h : seed v p s with
  | ok u t =>
    obtain ⟨id, f, hin, hb, rfl⟩ := seed_ok.mp h
    exact .single (.seed v p hin hb)
  | error e t =>
    obtain rfl | ⟨id, f, c, g, hin, hr, rfl⟩ := inFunction_fails h
    · exact .refl
    · by_cases hb : f.bodies = []
      · rw [Build.seed_of_empty hb] at hr
        cases hr
        rw [LowerState.put_self hin.found]
        exact .refl
      · rw [Build.seed_of hb] at hr
        cases hr

theorem steps_variableSlot (site type : Site) : Steps n s (last (variableSlot site type s)) := by
  unfold variableSlot
  dsimp only
  split
  · exact .refl
  · refine steps_bind (steps_of_emitting (emitting_lift _) s) fun ty t _ _ => ?_
    split
    · exact .refl
    · exact steps_bind (steps_alloca ty) fun p t _ _ => .single (.bind _ _)

theorem steps_variableDeclaration (site : Site) (ts : List Tree) :
    Steps n s (last (variableDeclaration site ts s)) := by
  unfold variableDeclaration
  split
  · exact steps_bind (steps_variableSlot _ _) fun _ _ _ _ => .refl
  · refine steps_bind (steps_variableSlot _ _) fun p t _ _ => ?_
    refine steps_bind (steps_of_emitting (emitting_expression _) t) fun v t _ _ => ?_
    refine steps_bind (steps_of_emitting (emitting_lift _) t) fun _ t _ _ => ?_
    exact steps_of_emitting (emitting_store v _) t
  · exact .refl

theorem steps_assignedSlot (site : Site) : Steps n s (last (assignedSlot site s)) := by
  refine steps_bind .refl fun storage t _ _ => ?_
  split
  · exact .refl
  · refine steps_bind (steps_alloca _) fun p t _ _ => steps_bind (steps_seed _ _) fun _ t _ _ => ?_
    exact .head (.bind _ _) (.single (.emission (.note _)))
  · exact .refl
  · exact .refl

theorem steps_assignment (site : Site) (ts : List Tree) :
    Steps n s (last (assignment site ts s)) := by
  unfold assignment
  split
  · refine steps_bind (steps_of_emitting (emitting_lift _) s) fun _ t _ _ => ?_
    refine steps_bind (steps_of_emitting (emitting_lift _) t) fun update t _ _ => ?_
    refine steps_bind (steps_assignedSlot _) fun p t _ _ => ?_
    refine steps_bind (steps_of_emitting (emitting_load _ _) t) fun old t _ _ => ?_
    refine steps_bind (steps_of_emitting (emitting_expression _) t) fun new t _ _ => ?_
    refine steps_bind (steps_of_emitting (emitting_lift _) t) fun _ t _ _ => ?_
    dsimp only
    split
    · refine steps_bind .refl fun v t _ _ => ?_
      exact steps_bind (steps_of_emitting (emitting_store v _) t) fun _ _ _ _ => .single (.bind _ _)
    · refine steps_bind (steps_of_emitting (emitting_binary _ _ _) t) fun v t _ _ => ?_
      exact steps_bind (steps_of_emitting (emitting_store v _) t) fun _ _ _ _ => .single (.bind _ _)
  · exact .refl

theorem steps_returnStatement (site : Site) (ts : List Tree) :
    Steps n s (last (returnStatement site ts s)) := by
  unfold returnStatement
  split
  · exact steps_ret none
  · exact steps_bind (steps_of_emitting (emitting_expression _) s) fun v _ _ _ => steps_ret _
  · exact .refl

theorem steps_jump (site : Site) (outside : Cause) (target : LoopTargets → Nat) (ts : List Tree) :
    Steps n s (last (jump site outside target ts s)) := by
  unfold jump
  split
  · refine steps_bind .refl fun l t _ _ => ?_
    cases l with
    | some l => exact steps_br _
    | none => exact .refl
  · exact .refl

theorem newBlock_grown {label : String} {b : Nat} (h : newBlock label s = .ok b t)
    (hn : Grown n s) : n ≤ b ∧ Grown (b + 1) t := by
  obtain ⟨id, f, hin, rfl, rfl⟩ := newBlock_ok.mp h
  obtain ⟨id', f', hin', hf⟩ := hn
  obtain ⟨rfl, rfl⟩ := hin.unique hin'
  obtain ⟨hfun, hfound⟩ := hin.put (Function.addBlock _ label)
  exact ⟨hf, _, _, ⟨hfun, hfound⟩, by simp⟩

def Made (n : Nat) (bs : List Nat) (s : LowerState) : Prop :=
  Grown n s ∧ ∀ b ∈ bs, n ≤ b ∧ Grown (b + 1) s

theorem Steps.made {bs : List Nat} (h : Steps n s t) (hs : Made n bs s) : Made n bs t :=
  ⟨h.grown hs.1 hs.1, fun b hb => ⟨(hs.2 b hb).1, h.grown hs.1 (hs.2 b hb).2⟩⟩

theorem steps_then {bs : List Nat} {x : Lower α} {k : α → Lower β} (hs : Made n bs s)
    (hx : Steps n s (last (x s)))
    (hk : ∀ a t, Made n bs t → Steps n t (last (k a t))) : Steps n s (last ((x >>= k) s)) :=
  steps_bind hx fun a t _ ht => hk a t (ht.made hs)

theorem steps_newBlock_then {bs : List Nat} {label : String} {k : Nat → Lower β}
    (hs : Made n bs s) (hk : ∀ b t, Made n (b :: bs) t → Steps n t (last (k b t))) :
    Steps n s (last ((newBlock label >>= k) s)) := by
  refine steps_bind (steps_newBlock label) fun b t hb ht => hk b t ⟨(ht.made hs).1, ?_⟩
  intro c hc
  rcases List.mem_cons.mp hc with rfl | hc
  · exact newBlock_grown hb hs.1
  · exact (ht.made hs).2 c hc

def Arm (n : Nat) (arm : Nat → Lower Unit) : Prop :=
  ∀ b s, Made n [b] s → Steps n s (last (arm b s))

theorem Arm.steps {arm : Nat → Lower Unit} {bs : List Nat} {b : Nat} (ha : Arm n arm)
    (hs : Made n bs s) (hb : b ∈ bs) : Steps n s (last (arm b s)) :=
  ha b s ⟨hs.1, by simpa using hs.2 b hb⟩

theorem steps_set {bs : List Nat} {b : Nat} (hs : Made n bs s) (hb : b ∈ bs) :
    Steps n s (last (setBlock b s)) := steps_setBlock (hs.2 b hb).1 (hs.2 b hb).2

theorem steps_conditional {test : Tree} {yes : Nat → Lower Unit} {no : Option (Nat → Lower Unit)}
    (hyes : Arm n yes) (hno : ∀ arm, no = some arm → Arm n arm) (hn : Grown n s) :
    Steps n s (last (conditional test yes no s)) := by
  have hs : Made n [] s := ⟨hn, by simp⟩
  have htest : ∀ t, Steps n t (last (condition test t)) := steps_of_emitting (emitting_condition _)
  cases no with
  | none =>
    rw [conditional_none]
    refine steps_then hs (htest s) fun c t ht => ?_
    refine steps_newBlock_then ht fun y t ht => steps_newBlock_then ht fun e t ht => ?_
    refine steps_then ht (steps_condBr _ _ _) fun _ t ht => ?_
    refine steps_then ht (hyes.steps ht (by simp)) fun _ t ht => ?_
    exact steps_then ht (steps_fallThrough e) fun _ t ht => steps_set ht (by simp)
  | some no =>
    rw [conditional_some]
    refine steps_then hs (htest s) fun c t ht => ?_
    refine steps_newBlock_then ht fun y t ht => steps_newBlock_then ht fun e t ht => ?_
    refine steps_newBlock_then ht fun z t ht => ?_
    refine steps_then ht (steps_condBr _ _ _) fun _ t ht => ?_
    refine steps_then ht (hyes.steps ht (by simp)) fun _ t ht => ?_
    refine steps_then ht (steps_fallThrough e) fun _ t ht => ?_
    refine steps_then ht ((hno no rfl).steps ht (by simp)) fun _ t ht => ?_
    exact steps_then ht (steps_fallThrough e) fun _ t ht => steps_set ht (by simp)

theorem steps_inLoop {bs : List Nat} {l : LoopTargets} {body : Lower α} (hs : Made n bs s)
    (hc : l.onContinue ∈ bs) (hb : l.onBreak ∈ bs)
    (hbody : ∀ t, Made n bs t → Steps n t (last (body t))) :
    Steps n s (last (inLoop l body s)) := by
  have hpush : Steps n s { s with loops := l :: s.loops } :=
    .single (.enterLoop l (hs.2 _ hc).2 (hs.2 _ hb).2)
  refine steps_then hs hpush fun _ t ht => ?_
  exact steps_ensuring (hbody t ht) fun _ => .leaveLoop

theorem steps_loop {test : Tree} {body : Nat → Lower Unit} (hbody : Arm n body)
    (hn : Grown n s) : Steps n s (last (loop test body s)) := by
  have hs : Made n [] s := ⟨hn, by simp⟩
  unfold loop
  refine steps_newBlock_then hs fun c t ht => steps_newBlock_then ht fun b t ht => ?_
  refine steps_newBlock_then ht fun e t ht => ?_
  refine steps_then ht (steps_br c) fun _ t ht => ?_
  refine steps_then ht (steps_set ht (by simp)) fun _ t ht => ?_
  refine steps_then ht (steps_of_emitting (emitting_condition test) t) fun v t ht => ?_
  refine steps_then ht (steps_condBr _ _ _) fun _ t ht => ?_
  refine steps_then ht (steps_inLoop ht (by simp) (by simp) fun t ht => hbody.steps ht (by simp)) ?_
  intro _ t ht
  exact steps_then ht (steps_fallThrough c) fun _ t ht => steps_set ht (by simp)

theorem steps_statements {ts : List Tree}
    (h : ∀ t ∈ ts, ∀ s, Grown n s → Steps n s (last (statement t s))) (hn : Grown n s) :
    Steps n s (last (statements ts s)) := by
  induction ts generalizing s with
  | nil =>
    rw [statements]
    exact .refl
  | cons t ts ih =>
    rw [statements]
    refine steps_bind steps_terminated fun c u _ hu => ?_
    replace hn := hu.grown hn hn
    cases c with
    | true => exact .single (.emission (.note _))
    | false =>
      refine steps_bind (h t (by simp) u hn) fun _ v _ hv => ?_
      exact ih (fun t ht => h t (by simp [ht])) (hv.grown hn hn)

theorem arm_block {site : Site} {ts : List Tree}
    (h : ∀ t ∈ ts, ∀ s, Grown n s → Steps n s (last (statement t s))) :
    Arm n fun b => block b (.node site ts) := by
  intro b s hs
  dsimp only
  rw [block.eq_1]
  split
  · refine steps_then hs (steps_set hs (by simp)) fun _ t ht => ?_
    exact steps_statements h ht.1
  · exact .refl

theorem arm_elseArm {t : Tree} (hs : ∀ s, Grown n s → Steps n s (last (statement t s)))
    (hb : Arm n fun b => block b t) : Arm n (elseArm t) := by
  intro b s hm
  unfold elseArm
  split
  · exact hb b s hm
  · split
    · refine steps_then hm (steps_set hm (by simp)) fun _ t ht => ?_
      exact hs t ht.1
    · exact .refl

/-- A run of a statement, also one that fails, is a sequence of steps. -/
theorem steps_statement_and_block (t : Tree) :
    (∀ s, Grown n s → Steps n s (last (statement t s))) ∧ Arm n fun b => block b t := by
  induction t using Tree.induct with
  | node site children ih =>
    refine ⟨fun s hs => ?_, arm_block fun t ht => (ih t ht).1⟩
    obtain ⟨act, hform, heq⟩ := statement_form site children
    rw [heq]
    refine steps_nested ?_
    replace hs : Grown n (deeper s) := by
      obtain ⟨id, f, hin, hf⟩ := hs
      exact ⟨id, f, ⟨hin.function, hin.found⟩, hf⟩
    cases hform with
    | declare => exact steps_variableDeclaration _ _
    | assign => exact steps_assignment _ _
    | returns => exact steps_returnStatement _ _
    | loop _ test body =>
      refine steps_bind (steps_of_emitting (emitting_lift _) _) fun _ u _ hu => ?_
      exact steps_loop (ih body (by simp)).2 (hu.grown hs hs)
    | ifThen _ _ test yes =>
      refine steps_bind (steps_of_emitting (emitting_lift _) _) fun _ u _ hu => ?_
      exact steps_conditional (ih yes (by simp)).2 (by simp) (hu.grown hs hs)
    | ifElse _ _ test yes no =>
      have hno := ih no (by simp)
      refine steps_bind (steps_of_emitting (emitting_lift _) _) fun _ u _ hu => ?_
      refine steps_conditional (ih yes (by simp)).2 ?_ (hu.grown hs hs)
      rintro arm ⟨rfl⟩
      exact arm_elseArm hno.1 hno.2
    | leave => exact steps_jump _ _ _ _
    | again => exact steps_jump _ _ _ _
    | call =>
      exact steps_bind (steps_of_emitting (emitting_functionCall _) _) fun _ _ _ _ => .refl
    | block => exact steps_statements (fun t ht => (ih t ht).1) hs
    | refused => exact .refl

theorem steps_statement (t : Tree) (hn : Grown n s) : Steps n s (last (statement t s)) :=
  (steps_statement_and_block t).1 s hn

theorem steps_block (t : Tree) : Arm n fun b => block b t := (steps_statement_and_block t).2

end Statements

end TreeFlow.Lower
