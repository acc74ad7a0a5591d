import TreeFlow.Proofs.Comparison
import TreeFlow.Proofs.Paths
import TreeFlow.Proofs.Structure

/-!
# What lowering a statement touches

Lowering a statement gives back the depth and the loops that it was given, also
when it fails, and it leaves the constants, what was registered and the other
functions alone. Of the function under the cursor it extends the open block, and it
adds slots and seeds to the prologue and blocks at the end. Behind the functions
there may be one new declaration, that of the intrinsic. If it succeeds from an
open block, it has ended every block that it made, but for the one that is under
the cursor then.
-/

set_option autoImplicit false

namespace TreeFlow

/-! ## Blocks that a layout ends -/

section Layout

variable {m : Module} {g : Function} {p : Piece} {ls : List LoopTargets} {μ μ' : Mark}

/-- The block with index `j` has a terminator. -/
def Function.Ended (g : Function) (j : Nat) : Prop :=
  ∃ k, g.bodies[j]? = some k ∧ k.terminator ≠ none

theorem Function.Ends.ended {x : Terminator} (h : g.Ends μ x) : g.Ended μ.block := by
  obtain ⟨k, hk, -, ht⟩ := h
  exact ⟨k, hk, by simp [ht]⟩

/-- The open block of a mark, or one that is made between two marks. -/
def Mark.Spans (μ μ' : Mark) (j : Nat) : Prop :=
  j = μ.block ∧ μ.ended = false ∨ μ.blocks ≤ j ∧ j < μ'.blocks

theorem Mark.spans_head {b j : Nat} (h : j = b ∨ μ.blocks ≤ j ∧ j < μ'.blocks) :
    (μ.head b).Spans μ' j :=
  h.imp (fun hj => ⟨hj, rfl⟩) fun hj => hj

theorem Function.Falls.ended {target j : Nat} (h : g.Falls μ target)
    (hj : j = μ.block ∧ μ.ended = false ∨ g.Ended j) : g.Ended j := by
  rcases hj with ⟨rfl, hopen⟩ | hj
  · exact (h hopen).ended
  · exact hj

/-- Between two marks every block gets a terminator, but for the one where control
goes on. -/
theorem Lays.ended (h : Lays m g p ls μ μ') {j : Nat} (hj : μ.Spans μ' j) :
    j = μ'.block ∧ μ'.ended = false ∨ g.Ended j := by
  induction h with
  | assign _ _ _ target =>
    obtain ⟨hblocks, hblock, hended, -⟩ := target.blocks
    rcases hj with ⟨rfl, hopen⟩ | hj
    · exact .inl ⟨hblock.symm, hended.trans hopen⟩
    · simp only [Mark.rebind_blocks, Mark.after_blocks] at hj
      omega
  | returnNone _ ends | returnValue _ _ _ ends | leave _ _ ends | again _ _ ends =>
    rcases hj with ⟨rfl, -⟩ | hj
    · exact .inr ends.ended
    · simp only [Mark.stop_blocks, Mark.after_blocks] at hj
      omega
  | @loop site test body ls μ μ₁ c v r _ _ enters _ _ branches inside back ih =>
    have hle : μ.blocks + 3 ≤ μ₁.blocks := inside.blocks_le
    by_cases hjend : j = μ.blocks + 2
    · exact .inl ⟨hjend, rfl⟩
    refine .inr ?_
    rcases hj with ⟨rfl, -⟩ | hj
    · exact enters.ended
    by_cases hjtest : j = μ.blocks
    · exact hjtest ▸ branches.ended
    refine back.ended (ih (Mark.spans_head ?_))
    simp only [Mark.head_blocks, Mark.after_blocks, Mark.grow_blocks] at hj ⊢
    omega
  | @ifThen site test yes ls μ μ₁ c v r _ _ _ _ _ branches inside joins ih =>
    have hle : μ.blocks + 2 ≤ μ₁.blocks := inside.blocks_le
    by_cases hjend : j = μ.blocks + 1
    · exact .inl ⟨hjend, rfl⟩
    refine .inr ?_
    rcases hj with ⟨rfl, -⟩ | hj
    · exact branches.ended
    refine joins.ended (ih (Mark.spans_head ?_))
    simp only [Mark.head_blocks, Mark.after_blocks, Mark.grow_blocks] at hj ⊢
    omega
  | @ifElse site test yes no ls μ μ₁ μ₂ c v r _ _ _ _ _ _ branches inside joins otherwise joins'
      ih₁ ih₂ =>
    have hle₁ : μ.blocks + 3 ≤ μ₁.blocks := inside.blocks_le
    have hle₂ : μ₁.blocks ≤ μ₂.blocks := otherwise.blocks_le
    by_cases hjend : j = μ.blocks + 1
    · exact .inl ⟨hjend, rfl⟩
    refine .inr ?_
    rcases hj with ⟨rfl, -⟩ | hj
    · exact branches.ended
    simp only [Mark.head_blocks] at hj
    by_cases hjyes : j = μ.blocks ∨ μ.blocks + 3 ≤ j ∧ j < μ₁.blocks
    · exact joins.ended (ih₁ (Mark.spans_head hjyes))
    · exact joins'.ended (ih₂ (Mark.spans_head (by omega)))
  | block _ _ ih => exact ih hj
  | skip ended =>
    rcases hj with ⟨rfl, hopen⟩ | hj
    · rw [ended] at hopen
      cases hopen
    · omega
  | @cons t ts ls μ μ₁ μ₂ _ first rest ih₁ ih₂ =>
    -- A block that the first statement leaves open is the one where the rest starts.
    by_cases hlt : μ₁.blocks ≤ j ∧ j < μ₂.blocks
    · exact ih₂ (.inr hlt)
    · have hspans : μ.Spans μ₁ j := hj.imp_right fun hj => ⟨hj.1, by omega⟩
      rcases ih₁ hspans with hj | hj
      · exact ih₂ (.inl hj)
      · exact .inr hj
  | declare | initialise | call | nil =>
    rcases hj with hj | ⟨hle, hlt⟩
    · exact .inl hj
    · exact absurd (Nat.lt_of_le_of_lt hle hlt) (Nat.lt_irrefl _)

end Layout

namespace Lower

variable {α β : Type} {s t u : LowerState} {id n : Nat} {f g : Function}

/-! ## What is given back -/

structure Restored (s t : LowerState) : Prop where
  depth : t.depth = s.depth
  loops : t.loops = s.loops
  function : t.function = s.function
  constants : t.scope.constants = s.scope.constants
  registered : t.registered = s.registered
  globals : s.module.globals <+: t.module.globals

theorem Restored.refl (s : LowerState) : Restored s s :=
  ⟨rfl, rfl, rfl, rfl, rfl, List.prefix_refl _⟩

theorem Restored.trans (h : Restored s t) (h' : Restored t u) : Restored s u where
  depth := h'.depth.trans h.depth
  loops := h'.loops.trans h.loops
  function := h'.function.trans h.function
  constants := h'.constants.trans h.constants
  registered := h'.registered.trans h.registered
  globals := h.globals.trans h'.globals

theorem restored_put (s : LowerState) (id : Nat) (f : Function) : Restored s (s.put id f) :=
  ⟨rfl, rfl, rfl, rfl, rfl, List.prefix_refl _⟩

/-- The action gives back what it was given, whether or not it fails. -/
def Restores (x : Lower α) : Prop := ∀ s, Restored s (last (x s))

theorem restores_pure (a : α) : Restores (pure a) := fun s => .refl s

theorem restores_throw (e : LowerError) : Restores (throw e : Lower α) := fun s => .refl s

theorem restores_lift (x : Except LowerError α) : Restores (lift x) := by
  cases x with
  | ok a => exact restores_pure a
  | error e => exact restores_throw e

theorem restores_bind {x : Lower α} {k : α → Lower β} (hx : Restores x)
    (hk : ∀ a, Restores (k a)) : Restores (x >>= k) := by
  intro s
  rcases last_bind (x := x) (k := k) (s := s) with h | ⟨a, t, ha, h⟩
  · rw [h]
    exact hx s
  · have hs := hx s
    rw [ha] at hs
    rw [h]
    exact hs.trans (hk a t)

theorem restores_get {k : LowerState → Lower α} (hk : ∀ s, Restores (k s)) :
    Restores (get >>= k) := fun s => hk s s

theorem restores_inFunction (act : Build α) : Restores (inFunction act) := by
  intro s
  cases h : inFunction act s with
  | ok a t =>
    obtain ⟨id, f, g, -, -, rfl⟩ := inFunction_ok.mp h
    exact restored_put s id g
  | error e t =>
    obtain rfl | ⟨id, f, c, g, -, -, rfl⟩ := inFunction_fails h
    · exact .refl _
    · exact restored_put s id g

theorem restores_inBlock (act : Nat → Build α) : Restores (inBlock act) := by
  refine restores_bind (fun s => ?_) fun b => restores_inFunction (act b)
  unfold currentBlock
  rw [get_bind]
  cases s.block with
  | none => exact .refl s
  | some b => exact .refl s

theorem restores_nested {x : Lower α} (site : Site) (hx : Restores x) :
    Restores (nested site x) := by
  intro s
  by_cases hdepth : s.depth < maxDepth
  · have hs := hx (deeper s)
    rw [nested_of_shallow hdepth]
    unfold ensuring
    cases hr : x (deeper s) with
    | ok a t | error e t =>
      rw [hr] at hs
      have hback : t.depth - 1 = s.depth := congrArg (· - 1) hs.depth
      exact ⟨hback, hs.loops, hs.function, hs.constants, hs.registered, hs.globals⟩
  · rw [nested_of_deep (Nat.not_lt.mp hdepth)]
    exact .refl s

theorem restores_inLoop {x : Lower α} (l : LoopTargets) (hx : Restores x) :
    Restores (inLoop l x) := by
  intro s
  have hs := hx { s with loops := l :: s.loops }
  change Restored s (last (ensuring x _ { s with loops := l :: s.loops }))
  unfold ensuring
  cases hr : x { s with loops := l :: s.loops } with
  | ok a t | error e t =>
    rw [hr] at hs
    have hback : t.loops.tail = s.loops := congrArg List.tail hs.loops
    exact ⟨hs.depth, hback, hs.function, hs.constants, hs.registered, hs.globals⟩

theorem restores_findCallee (site : Site) : Restores (findCallee site) := by
  intro s
  cases hf : s.module.find? site.name with
  | some i =>
    rw [findCallee_of_some hf]
    exact .refl s
  | none =>
    by_cases hn : site.name = Intrinsic.name
    · rw [findCallee_of_intrinsic hf hn]
      exact ⟨rfl, rfl, rfl, rfl, rfl, List.prefix_refl _⟩
    · rw [findCallee_of_none hf hn]
      exact .refl s

theorem restores_callee (site : Site) (n : Nat) : Restores (callee site n) := by
  refine restores_bind (restores_findCallee site) fun id => restores_get fun s => ?_
  cases s.module.function? id with
  | none => exact restores_throw _
  | some f =>
    dsimp only
    split
    · refine restores_bind (fun s => ?_) fun _ => restores_bind (restores_pure _) ?_
      · exact ⟨rfl, rfl, rfl, rfl, rfl, List.prefix_append _ _⟩
      · exact fun _ => restores_bind (restores_lift _) fun _ => restores_pure _
    · refine restores_bind (restores_pure _) fun _ => restores_bind (restores_lift _) ?_
      exact fun _ => restores_pure _

theorem restores_arguments {ts : List Tree} (h : ∀ t ∈ ts, Restores (expression t)) (c : Callee)
    (args : List Value) : Restores (arguments c args ts) := by
  induction ts generalizing args with
  | nil =>
    rw [arguments]
    exact restores_pure _
  | cons t ts ih =>
    rw [arguments]
    refine restores_bind (h t (by simp)) fun v => restores_bind (restores_lift _) fun _ => ?_
    exact ih (fun t ht => h t (by simp [ht])) _

theorem restores_call (j : Nat) (args : List Value) : Restores (call j args) := by
  refine restores_get fun s => ?_
  cases s.module.function? j with
  | none => exact restores_throw _
  | some f => exact restores_inBlock _

theorem restores_functionCall {site : Site} {ts : List Tree}
    (h : ∀ t ∈ ts, Restores (expression t)) : Restores (functionCall (.node site ts)) := by
  refine restores_bind (restores_callee _ _) fun c => ?_
  exact restores_bind (restores_arguments h c _) fun args => restores_call c.id args

/-! ## What comes to the functions -/

/-- At most a declaration of the intrinsic, if there was none. -/
def Adds (m : Module) (extra : List Function) : Prop :=
  extra = [] ∨ m.find? Intrinsic.name = none ∧
    extra = [.declare m.functions.length Intrinsic.signature]

theorem Adds.nil_of_absent {m m' : Module} {fs extra : List Function} (h : Adds m extra)
    (hm : m'.functions = fs ++ extra) (absent : m'.find? Intrinsic.name = none) : extra = [] := by
  rcases h with rfl | ⟨-, rfl⟩
  · rfl
  · rw [Module.find?, Option.map_eq_none_iff, hm, List.find?_eq_none] at absent
    have hdeclared := absent (.declare m.functions.length Intrinsic.signature) (by simp)
    simp [Function.declare, Intrinsic.signature] at hdeclared

theorem Step.functions (h : Step n s t) (hin : s.In id f) (hout : t.In id g) :
    t.module.functions = s.module.functions.set id g ∨
      s.module.find? Intrinsic.name = none ∧ g = f ∧
        t.module.functions =
          s.module.functions ++ [.declare s.module.functions.length Intrinsic.signature] := by
  -- What leaves the module alone puts the same function back.
  have hsame : t.module = s.module → t.module.functions = s.module.functions.set id g := by
    intro hm
    have hput := congrArg (·.module.functions) (LowerState.put_self (s := s) (hm ▸ hout.found))
    rw [hm]
    exact hput.symm
  have hput : ∀ g', t = s.put id g' → t.module.functions = s.module.functions.set id g := by
    rintro g' rfl
    obtain ⟨-, rfl⟩ := (hin.put g').unique hout
    rfl
  cases h with
  | emission h =>
    cases h with
    | note | depth => exact .inl (hsame rfl)
    | intrinsic absent =>
      have hfound : (s.module.declare Intrinsic.signature).function? id = some g := hout.found
      rw [Module.function?_declare, if_neg] at hfound
      · exact .inr ⟨absent, by simpa [hin.found] using hfound.symm, rfl⟩
      · exact Nat.ne_of_lt (List.getElem?_eq_some_iff.mp hin.found).1
    | format =>
      have hfound : s.module.function? id = some g := hout.found
      have hput := congrArg (·.module.functions) (LowerState.put_self hfound)
      exact .inl hput.symm
    | define here | perform here =>
      obtain ⟨rfl, rfl⟩ := hin.unique here.toIn
      exact .inl (hput _ rfl)
  | cursor | enterLoop | leaveLoop | bind => exact .inl (hsame rfl)
  | block _ inside | slot _ inside | burn inside | seed _ _ inside =>
    obtain ⟨rfl, rfl⟩ := hin.unique inside
    exact .inl (hput _ rfl)
  | close here =>
    obtain ⟨rfl, rfl⟩ := hin.unique here.toIn
    exact .inl (hput _ rfl)

theorem Steps.functions (h : Steps n s t) (hin : s.In id f) (hn : n ≤ f.bodies.length) :
    ∃ g extra, Kept n id f s t g ∧ Adds s.module extra ∧
      t.module.functions = s.module.functions.set id g ++ extra := by
  have hid : id < s.module.functions.length := (List.getElem?_eq_some_iff.mp hin.found).1
  induction h with
  | refl =>
    have hput := congrArg (·.module.functions) (LowerState.put_self hin.found)
    exact ⟨f, [], .same hin rfl rfl (.inl rfl), .inl rfl, by rw [List.append_nil]; exact hput.symm⟩
  | @tail t u _ hstep ih =>
    obtain ⟨g, extra, hkept, hadds, hfunctions⟩ := ih
    obtain ⟨g', hkept'⟩ := hstep.kept hkept.inside (Nat.le_trans hn hkept.grows.length)
    rcases hstep.functions hkept.inside hkept'.inside with hu | ⟨habsent, rfl, hu⟩
    · refine ⟨g', extra, hkept.trans hkept', hadds, ?_⟩
      rw [hu, hfunctions, List.set_append_left _ _ (by simpa using hid), List.set_set]
    · obtain rfl := hadds.nil_of_absent hfunctions habsent
      have hbefore : s.module.find? Intrinsic.name = none := by
        cases hfind : s.module.find? Intrinsic.name with
        | none => rfl
        | some i =>
          rw [(hkept.extends hin).find? hfind] at habsent
          cases habsent
      refine ⟨g', _, hkept.trans hkept', .inr ⟨hbefore, rfl⟩, ?_⟩
      rw [hu, hfunctions, List.append_nil, List.length_set]

def Outside (s : LowerState) : Prop := ∀ id f, ¬ s.In id f

theorem Outside.congr (h : Outside s) (hfunction : t.function = s.function)
    (hfunctions : t.module.functions = s.module.functions) : Outside t := by
  intro id f hin
  refine h id f ⟨hfunction ▸ hin.function, ?_⟩
  rw [Module.function?, ← hfunctions]
  exact hin.found

theorem inFunction_outside (h : Outside s) (act : Build α) : last (inFunction act s) = s := by
  cases hr : inFunction act s with
  | ok a t =>
    obtain ⟨id, f, -, hin, -⟩ := inFunction_ok.mp hr
    exact absurd hin (h id f)
  | error e t =>
    obtain rfl | ⟨id, f, -, -, hin, -⟩ := inFunction_fails hr
    · rfl
    · exact absurd hin (h id f)

theorem inBlock_outside (h : Outside s) (act : Nat → Build α) : last (inBlock act s) = s := by
  cases hb : s.block with
  | none => simp [inBlock, currentBlock, hb, refuse, last]
  | some b =>
    rw [inBlock_of hb]
    exact inFunction_outside h (act b)

theorem Emissions.functions (h : Emissions s t) (hs : ∀ id f b k, ¬ s.At id f b k) :
    (∀ id f b k, ¬ t.At id f b k) ∧ ∃ extra, Adds s.module extra ∧
      t.module.functions = s.module.functions ++ extra := by
  induction h with
  | refl => exact ⟨hs, [], .inl rfl, (List.append_nil _).symm⟩
  | @tail t u _ hstep ih =>
    obtain ⟨ht, extra, hadds, hfunctions⟩ := ih
    cases hstep with
    | note | depth | format =>
      refine ⟨fun id f b k hat => ht id f b k ?_, extra, hadds, hfunctions⟩
      exact ⟨⟨hat.function, hat.found⟩, hat.cursor, hat.block⟩
    | intrinsic absent =>
      obtain rfl := hadds.nil_of_absent hfunctions absent
      rw [List.append_nil] at hfunctions
      refine ⟨fun id f b k hat => ?_, _, .inr ⟨?_, rfl⟩, ?_⟩
      · have hfound : (t.module.declare Intrinsic.signature).function? id = some f := hat.found
        rw [Module.function?_declare] at hfound
        split at hfound
        · cases hfound
          simpa [Function.declare] using hat.block
        · exact ht id f b k ⟨⟨hat.function, hfound⟩, hat.cursor, hat.block⟩
      · rwa [Module.find?, ← hfunctions]
      · rw [← hfunctions]
        rfl
    | define here | perform here => exact absurd here (ht _ _ _ _)

/-! ## Every action -/

structure Touches (P : α → β → Prop) (x : Lower α) : Prop where
  restores : Restores x
  result : ∀ {s t a}, x s = .ok a t → ∃ b, P a b
  steady : ∀ {s t a}, Outside s → x s = .ok a t → t.module.functions = s.module.functions
  adds : ∀ {s}, Outside s → ∃ extra, Adds s.module extra ∧
    (last (x s)).module.functions = s.module.functions ++ extra

theorem touches_of {P : α → β → Prop} {x : Lower α} (hx : Restores x)
    (hsteady : ∀ s, Outside s → (last (x s)).module.functions = s.module.functions)
    (hP : ∀ a, ∃ b, P a b) : Touches P x where
  restores := hx
  result _ := hP _
  steady hs hr := by
    have hlast := hsteady _ hs
    rwa [hr] at hlast
  adds hs := ⟨[], .inl rfl, by rw [hsteady _ hs, List.append_nil]⟩

theorem Touches.bind {γ δ : Type} {P : α → β → Prop} {Q : γ → δ → Prop} {x : Lower α}
    {k : α → Lower γ} (hx : Touches P x) (hk : ∀ a b, P a b → Touches Q (k a)) :
    Touches Q (x >>= k) where
  restores s := by
    rcases last_bind (x := x) (k := k) (s := s) with h | ⟨a, t, ha, h⟩
    · rw [h]
      exact hx.restores s
    · obtain ⟨b, hb⟩ := hx.result ha
      have hs := hx.restores s
      rw [ha] at hs
      rw [h]
      exact hs.trans ((hk a b hb).restores t)
  result hr := by
    obtain ⟨a, t, ha, hr⟩ := bind_ok.mp hr
    obtain ⟨b, hb⟩ := hx.result ha
    exact (hk a b hb).result hr
  steady {s u c} hs hr := by
    obtain ⟨a, t, ha, hr⟩ := bind_ok.mp hr
    obtain ⟨b, hb⟩ := hx.result ha
    have hfunctions := hx.steady hs ha
    have hback := hx.restores s
    rw [ha] at hback
    exact ((hk a b hb).steady (hs.congr hback.function hfunctions) hr).trans hfunctions
  adds {s} hs := by
    rcases last_bind (x := x) (k := k) (s := s) with h | ⟨a, t, ha, h⟩
    · rw [h]
      exact hx.adds hs
    · obtain ⟨b, hb⟩ := hx.result ha
      have hfunctions := hx.steady hs ha
      have hback := hx.restores s
      rw [ha] at hback
      have ht : Outside t := hs.congr hback.function hfunctions
      obtain ⟨extra, hadds, hlast⟩ := (hk a b hb).adds ht
      rw [Adds, Module.find?, hfunctions] at hadds
      exact ⟨extra, hadds, by rw [h, hlast, hfunctions]⟩

theorem Touches.around {P : α → β → Prop} {x y : Lower α} (h : Touches P x)
    (before after : LowerState → LowerState) (hy : Restores y)
    (hbefore : ∀ s, (before s).module = s.module ∧ (before s).function = s.function)
    (hafter : ∀ s, (after s).module = s.module)
    (hrun : ∀ s, (∃ e, y s = .error e s) ∨ y s = ensuring x after (before s)) : Touches P y where
  restores := hy
  result {s t a} hr := by
    rcases hrun s with ⟨e, he⟩ | he
    · rw [he] at hr
      cases hr
    · rw [he] at hr
      obtain ⟨u, hu, -⟩ := ensuring_ok.mp hr
      exact h.result hu
  steady {s t a} hs hr := by
    obtain ⟨hmodule, hfunction⟩ := hbefore s
    rcases hrun s with ⟨e, he⟩ | he
    · rw [he] at hr
      cases hr
    · rw [he] at hr
      obtain ⟨u, hu, rfl⟩ := ensuring_ok.mp hr
      rw [hafter, h.steady (hs.congr hfunction (by rw [hmodule])) hu, hmodule]
  adds {s} hs := by
    obtain ⟨hmodule, hfunction⟩ := hbefore s
    rcases hrun s with ⟨e, he⟩ | he
    · rw [he]
      exact ⟨[], .inl rfl, (List.append_nil _).symm⟩
    · obtain ⟨extra, hadds, hlast⟩ := h.adds (hs.congr hfunction (by rw [hmodule]))
      rw [hmodule] at hadds hlast
      refine ⟨extra, hadds, ?_⟩
      rw [he]
      unfold ensuring
      cases hr : x (before s) with
      | ok a t | error e t =>
        rw [hr] at hlast
        rw [← hlast]
        exact congrArg Module.functions (hafter t)

theorem Touches.nested {P : α → β → Prop} {x : Lower α} (h : Touches P x) (site : Site) :
    Touches P (nested site x) := by
  refine h.around deeper shallower (restores_nested site h.restores) (fun s => ⟨rfl, rfl⟩)
    (fun s => rfl) fun s => ?_
  by_cases hdepth : s.depth < maxDepth
  · exact .inr (nested_of_shallow hdepth)
  · exact .inl ⟨_, nested_of_deep (Nat.not_lt.mp hdepth)⟩

theorem Touches.inLoop {P : α → β → Prop} {x : Lower α} (h : Touches P x) (l : LoopTargets) :
    Touches P (inLoop l x) :=
  h.around (fun s => { s with loops := l :: s.loops }) (fun s => { s with loops := s.loops.tail })
    (restores_inLoop l h.restores) (fun _ => ⟨rfl, rfl⟩) (fun _ => rfl) fun _ => .inr rfl

theorem touches_inFunction {P : α → β → Prop} (act : Build α) (hP : ∀ a, ∃ b, P a b) :
    Touches P (inFunction act) :=
  touches_of (restores_inFunction act) (fun s hs => by rw [inFunction_outside hs]) hP

theorem touches_inBlock {P : α → β → Prop} (act : Nat → Build α) (hP : ∀ a, ∃ b, P a b) :
    Touches P (inBlock act) :=
  touches_of (restores_inBlock act) (fun s hs => by rw [inBlock_outside hs]) hP

theorem touches_functionCall {R : Value → Value → Prop} (hR : ∀ v, R v v) {site : Site}
    {ts : List Tree} (h : ∀ t ∈ ts, Restores (expression t)) :
    Touches (ResultsRelated R) (functionCall (.node site ts)) where
  restores := restores_functionCall h
  result {_ _ v} _ := ⟨v, fun a ha => ⟨a, ha, hR a⟩⟩
  steady {s u v} hs hr := by
    obtain ⟨c, t, ht, hr⟩ := bind_ok.mp hr
    obtain ⟨args, w, hw, hr⟩ := bind_ok.mp hr
    have hsteps := (emitting_callee site ts.length).run ht
    have hsteps' := (emitting_arguments (fun t _ => emitting_expression t) c _).run hw
    obtain ⟨hat, -⟩ :=
      Emissions.functions (hsteps.trans hsteps') fun id f _ _ hat => hs id f hat.toIn
    unfold call at hr
    rw [get_bind] at hr
    cases hf : w.module.function? c.id with
    | none =>
      rw [hf] at hr
      cases hr
    | some f =>
      rw [hf] at hr
      obtain ⟨id, g, b, g', hin, hb, hrun, -⟩ := inBlock_ok.mp hr
      obtain ⟨k, hk, -⟩ := Build.call_ok.mp hrun
      exact absurd ⟨hin, hb, hk⟩ (hat id g b k)
  adds {s} hs :=
    (Emissions.functions (emitting_functionCall _ s) fun id f _ _ hat => hs id f hat.toIn).2

def touching : Comparison where
  holds P x _ := Touches P x
  value v w := v.ty = w.ty
  called _ := True
  value_ty h := h.symm
  value_const _ ty := Eq.refl ty
  pure {_ _ _ a b} h :=
    { restores := restores_pure a
      result := fun hr => by
        cases hr
        exact ⟨b, h⟩
      steady := fun _ hr => by
        cases hr
        rfl
      adds := fun _ => ⟨[], .inl rfl, (List.append_nil _).symm⟩ }
  throw _ e _ :=
    { restores := restores_throw e
      result := fun hr => by cases hr
      steady := fun _ hr => by cases hr
      adds := fun _ => ⟨[], .inl rfl, (List.append_nil _).symm⟩ }
  bind := Touches.bind
  note _ := touches_of (fun _ => ⟨rfl, rfl, rfl, rfl, rfl, List.prefix_refl _⟩)
    (fun _ _ => rfl) fun _ => ⟨(), trivial⟩
  nestedValue site h := h.nested site
  nested site h := h.nested site
  inLoop l h := h.inLoop l
  innermostLoop := touches_of (fun s => .refl s) (fun _ _ => rfl) fun l => ⟨l, rfl⟩
  lookup _ := touches_of (fun s => .refl s) (fun _ _ => rfl) fun b => ⟨b, by
    cases b with
    | none => exact .none
    | some b =>
      refine .some (b.related_refl ?_)
      exact fun _ => rfl⟩
  bindName _ _ _ _ := touches_of (fun _ => ⟨rfl, rfl, rfl, rfl, rfl, List.prefix_refl _⟩)
    (fun _ _ => rfl) fun _ => ⟨(), trivial⟩
  newBlock label := (touches_inFunction (P := Eq) _ fun b => ⟨b, rfl⟩).bind fun b _ _ =>
    Touches.bind (P := fun _ _ => True) (β := Unit)
      (touches_of (fun _ => ⟨rfl, rfl, rfl, rfl, rfl, List.prefix_refl _⟩) (fun _ _ => rfl)
        fun _ => ⟨(), trivial⟩)
      fun _ _ _ => touches_of (restores_pure b) (fun _ _ => rfl) fun c => ⟨c, rfl⟩
  setBlock _ := touches_of (fun _ => ⟨rfl, rfl, rfl, rfl, rfl, List.prefix_refl _⟩)
    (fun _ _ => rfl) fun _ => ⟨(), trivial⟩
  alloca _ := touches_inFunction _ fun v => ⟨v, rfl⟩
  seed _ _ := touches_inFunction _ fun _ => ⟨(), trivial⟩
  define _ _ _ _ := touches_inBlock _ fun v => ⟨v, rfl⟩
  store _ _ := touches_inBlock _ fun _ => ⟨(), trivial⟩
  terminate _ := touches_inBlock _ fun _ => ⟨(), trivial⟩
  terminated := touches_inBlock _ fun ended => ⟨ended, rfl⟩
  functionCall _ _ _ hts := by
    refine touches_functionCall ?_ fun t ht => (hts t ht).restores
    exact fun _ => rfl

theorem touches_statement (t : Tree) : Touches (fun _ _ : Unit => True) (statement t) :=
  (touching.tree t fun _ _ _ => trivial).1

/-! ## Statements -/

/-- What a run that began with the cursor on a block makes of a function. The other
blocks change in the prologue at most, and terminators stay. -/
structure Tended (cursor : Option Nat) (f g : Function) : Prop where
  grows : f.Extends g
  elsewhere : ∀ j k, f.block? j = some k → cursor ≠ some j →
    ∃ code, k.instrs = f.lead j ++ code ∧
      g.block? j = some { k with instrs := g.lead j ++ code }
  terminators : ∀ j k x, f.block? j = some k → k.terminator = some x →
    ∃ l, g.block? j = some l ∧ l.terminator = some x

theorem Kept.tended (h : Kept f.bodies.length id f s t g) : Tended s.block f g where
  grows := h.grows
  elsewhere j k hk hj := by
    obtain ⟨l, hl, rfl⟩ := Function.block?_eq_some.mp hk
    refine ⟨l.instrs, rfl, Function.block?_eq_some.mpr ⟨l, ?_, rfl⟩⟩
    rw [h.elsewhere j (List.getElem?_eq_some_iff.mp hl).1 hj, hl]
  terminators j k x hk hx := by
    obtain ⟨l, hl, rfl⟩ := Function.block?_eq_some.mp hk
    obtain ⟨l', hl', hext⟩ := h.grows.blocks j l hl
    have hended : l.terminator = some x := hx
    obtain rfl := hext.ended (by simp [hended])
    exact ⟨_, Function.block?_eq_some.mpr ⟨_, hl', rfl⟩, hx⟩

/-- What a run leaves as it was. -/
structure Owned (s t : LowerState) : Prop extends Restored s t where
  inside : ∀ id f, s.In id f → ∃ g extra, t.In id g ∧ Tended s.block f g ∧ Adds s.module extra ∧
    t.module.functions = s.module.functions.set id g ++ extra
  outside : Outside s → ∃ extra, Adds s.module extra ∧
    t.module.functions = s.module.functions ++ extra

/-- Lowering a statement touches only what it owns, whether or not it fails. If it
succeeds from an open block, all blocks that it made have been ended, but for the one
under the cursor, which is the block where it began or a new one. -/
theorem statement_owned (t : Tree) (s : LowerState) :
    Owned s (last (statement t s)) ∧
      ∀ x u id f b k, statement t s = .ok x u → s.At id f b k → k.terminator = none →
        ∃ g c l, u.At id g c l ∧ (c = b ∨ f.bodies.length ≤ c) ∧
          ∀ j, f.bodies.length ≤ j → j < g.bodies.length → j ≠ c → g.Ended j := by
  have htouches := touches_statement t
  refine ⟨⟨htouches.restores s, fun id f hin => ?_, htouches.adds⟩, ?_⟩
  · have hsteps : Steps f.bodies.length s (last (statement t s)) :=
      steps_statement t ⟨id, f, hin, Nat.le_refl _⟩
    obtain ⟨g, extra, hkept, hadds, hfunctions⟩ := hsteps.functions hin (Nat.le_refl _)
    exact ⟨g, extra, hkept.inside, hkept.tended, hadds, hfunctions⟩
  · intro x u id f b k hr hat hopen
    obtain ⟨g, c, l, hend, -, hlays⟩ := (statement_lays t).1 hat hopen hr
    have hcode := hlays u.module g (.refl _) (.refl _)
    refine ⟨g, c, l, hend, hcode.cursor.imp_right (·.1), fun j hj hlt hne => ?_⟩
    rcases hcode.ended (.inr ⟨hj, hlt⟩) with ⟨rfl, -⟩ | hended
    · exact absurd rfl hne
    · exact hended

def atEntry : LowerState :=
  let f : Function :=
    { name := "main", ret := .i32, params := [], variadic := false, id := 0, slots := [],
      seeds := [], bodies := [⟨0, "entry", [], none⟩], registers := 0 }
  { module := ⟨none, [f], []⟩, scope := .empty, registered := [(0, 0)], function := some 0
    block := some 0, loops := [], depth := 0, log := [] }

/-- `if (printf(1)) { return 2; } else { int y; }` -/
def forking : Tree :=
  .bare .statement "if" [.bare .functionCall "printf" [.bare .literal "1" []],
    .bare .block "" [.bare .returnStatement "" [.bare .literal "2" []]],
    .bare .block "" [.bare .variableDeclaration "y" [.bare .identifier "int" []]]]

theorem forking_owned :
    ∃ u, statement forking atEntry = .ok () u ∧ u.block = some 2 ∧ Owned atEntry u ∧
      ∃ g l, u.At 0 g 2 l ∧ g.bodies.length = 4 ∧ g.Ended 1 ∧ g.Ended 3 := by
  obtain ⟨u, hrun⟩ := ok_of_run' (show (statement forking).run' atEntry = some () by decide +kernel)
  have hblock : (last (statement forking atEntry)).block = some 2 := by decide +kernel
  have hcount : (last (statement forking atEntry)).module.functions[0]?.map (·.bodies.length) =
      some 4 := by decide +kernel
  obtain ⟨howned, hended⟩ := statement_owned forking atEntry
  rw [hrun] at hblock hcount howned
  obtain ⟨g, c, l, hat, -, hclosed⟩ := hended () u 0 _ 0 _ hrun ⟨⟨rfl, rfl⟩, rfl, rfl⟩ rfl
  have hlength : g.bodies.length = 4 := by
    have hfound : u.module.functions[0]? = some g := hat.found
    simpa [last, hfound] using hcount
  obtain rfl : c = 2 := Option.some.inj (hat.cursor.symm.trans hblock)
  exact ⟨u, hrun, hblock, howned, g, l, hat, hlength, hclosed 1 (by decide) (by omega) (by decide),
    hclosed 3 (by decide) (by omega) (by decide)⟩

end Lower

end TreeFlow
