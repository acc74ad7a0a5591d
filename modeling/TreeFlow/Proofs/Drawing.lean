import TreeFlow.Proofs.Tracing

/-!
# The skeleton of a layout

A layout keeps in its blocks the control flow that the skeleton of its piece
has. The code of a statement reads the incoming value of a parameter where the
skeleton says so, and only the stores of the skeleton go to the slot of the
parameter.
-/

set_option autoImplicit false

namespace TreeFlow

def Mentioned (v : Value) (code : List Instr) : Prop := ∃ i ∈ code, v ∈ i.operands

def Quiet (p : Value) (code : List Instr) : Prop := ∀ i ∈ code, ∀ w, i ≠ .store w p

theorem mentioned_append {v : Value} {c c' : List Instr} :
    Mentioned v (c ++ c') ↔ Mentioned v c ∨ Mentioned v c' := by
  simp only [Mentioned, List.mem_append, or_and_right, exists_or]

theorem mentioned_one {v : Value} {i : Instr} : Mentioned v [i] ↔ v ∈ i.operands := by
  simp only [Mentioned, List.mem_singleton, exists_eq_left]

theorem mentioned_nil {v : Value} : ¬ Mentioned v [] := fun ⟨_, hi, _⟩ => by cases hi

theorem quiet_append {p : Value} {c c' : List Instr} :
    Quiet p (c ++ c') ↔ Quiet p c ∧ Quiet p c' := by
  simp only [Quiet, List.forall_mem_append]

/-! ## Expressions -/

section Emitted

variable {m : Module} {scope : Scope} {r r' : Nat} {c : List Instr}

theorem Emits.quiet {q : Piece} {vs : List Value} (h : Emits m scope q r c vs r') (p : Value) :
    Quiet p c := by
  induction h with
  | slot =>
    intro i hi w
    obtain rfl := List.mem_singleton.mp hi
    exact Instr.noConfusion
  | @binary _ _ _ op _ _ _ _ _ _ _ _ _ _ _ _ ihl ihr =>
    refine quiet_append.mpr ⟨quiet_append.mpr ⟨ihl, ihr⟩, fun i hi w => ?_⟩
    obtain rfl := List.mem_singleton.mp hi
    cases op <;> exact Instr.noConfusion
  | call _ _ _ _ _ ih =>
    refine quiet_append.mpr ⟨ih, fun i hi w => ?_⟩
    obtain rfl := List.mem_singleton.mp hi
    exact Instr.noConfusion
  | command _ _ _ _ _ ih =>
    refine quiet_append.mpr ⟨ih, fun i hi w => ?_⟩
    obtain rfl := List.mem_singleton.mp hi
    exact Instr.noConfusion
  | cons _ _ ihh iht => exact quiet_append.mpr ⟨ihh, iht⟩
  | _ => exact fun _ hi => by cases hi

theorem Tests.quiet {t : Tree} {v : Value} (h : Tests m scope t r c v r') (p : Value) :
    Quiet p c := by
  cases h with
  | truth code => exact code.quiet p
  | nonzero code =>
    refine quiet_append.mpr ⟨code.quiet p, fun i hi w => ?_⟩
    obtain rfl := List.mem_singleton.mp hi
    exact Instr.noConfusion

theorem Module.Reaches.lead_ne {name : String} {id : Nat} {f : Function} {lead : List Value}
    (h : m.Reaches name id f lead) {i : Nat} {ty : Ty} : Value.param i ty ∉ lead := by
  have hlead := h.leading
  split at hlead
  · obtain ⟨g, -, rfl⟩ := hlead
    intro hmem
    cases List.mem_singleton.mp hmem
  · subst hlead
    exact List.not_mem_nil

/-- In the scope the name `x` stands for the parameter, if it is fresh, and no
other name does. -/
structure Scope.Names (s : Scope) (x : String) (fresh : Bool) (v : Value) : Prop where
  param : ∃ i, v = .param i .i32
  register : ∀ y, s.local? y = some (.register v) ↔ y = x ∧ fresh = true
  slot : ∀ y w ty, s.local? y = some (.slot w ty) → w ≠ v

theorem Emits.reads_iff {q : Piece} {vs : List Value} (h : Emits m scope q r c vs r') {x : String}
    {fresh : Bool} {v : Value} (hn : scope.Names x fresh v) :
    Mentioned v c ∨ v ∈ vs ↔ (fresh && q.mentions x) = true := by
  obtain ⟨i, rfl⟩ := hn.param
  have hlocal : ∀ {y : String}, y = x ∧ fresh = true ↔
      scope.lookup y = some (.stored (.register (.param i .i32))) := by
    intro y
    rw [← hn.register]
    unfold Scope.lookup
    cases scope.local? y with
    | none => cases scope.constant? y <;> simp
    | some st => simp
  have hleaf : ∀ {site : Site}, site.kind = .identifier →
      ((fresh && (Piece.one (.node site [])).mentions x) = true ↔
        site.name = x ∧ fresh = true) := by
    intro site kind
    simp [Piece.mentions_node, Piece.mentions_nil, kind, and_comm]
  induction h with
  | literal kind => simp [mentioned_nil, Piece.mentions_node, Piece.mentions_nil, kind, Value.int]
  | register kind bound =>
    rw [hleaf kind, hlocal, bound]
    simp [mentioned_nil, eq_comm]
  | slot kind bound =>
    rw [hleaf kind, hlocal, bound]
    have hne := hn.slot _ _ _ (Scope.local?_of_lookup bound)
    simp [mentioned_one, Instr.operands, hne.symm]
  | constant kind bound =>
    rw [hleaf kind, hlocal, bound]
    simp [mentioned_nil, Value.int]
  | @binary site a b op r r₁ r₂ c₁ c₂ u w kind _ _ _ _ ihl ihr =>
    have hop : (op.instr r₂ u w).operands = [u, w] := by cases op <;> rfl
    have hmentions : (Piece.one (.node site [a, b])).mentions x =
        ((Piece.one a).mentions x || (Piece.one b).mentions x) := by
      simp [Piece.mentions_node, Piece.mentions_cons, Piece.mentions_nil, kind]
    simp only [hmentions, Bool.and_or_distrib_left, Bool.or_eq_true, ← ihl, ← ihr,
      mentioned_append, mentioned_one, hop, List.mem_cons, List.not_mem_nil, or_false, reduceCtorEq]
    exact or_or_or_comm
  | call kind callee _ _ _ ih =>
    rw [Piece.mentions_node]
    simp only [kind, reduceCtorEq, false_and, decide_false, Bool.false_or, ← ih, mentioned_append,
      mentioned_one, Instr.operands, List.mem_append, callee.lead_ne, false_or, List.mem_singleton,
      or_false]
  | command kind callee _ _ _ ih =>
    rw [Piece.mentions_node]
    simp only [kind, reduceCtorEq, false_and, decide_false, Bool.false_or, ← ih, mentioned_append,
      mentioned_one, Instr.operands, List.mem_append, callee.lead_ne, false_or, List.not_mem_nil,
      or_false]
  | nil => simp [mentioned_nil, Piece.mentions_nil]
  | cons _ _ ihh iht =>
    simp only [Piece.mentions_cons, Bool.and_or_distrib_left, Bool.or_eq_true, ← ihh, ← iht,
      mentioned_append, List.mem_cons, List.not_mem_nil, or_false]
    exact or_or_or_comm

theorem Emits.unreturned {site : Site} {ts : List Tree} {vs : List Value} {i : Nat} {ty : Ty}
    (h : Emits m scope (.one (.node site ts)) r c vs r') (hkind : site.kind = .functionCall) :
    Value.param i ty ∉ vs := by
  cases h with
  | call => exact fun hmem => by cases List.mem_singleton.mp hmem
  | command => exact List.not_mem_nil
  | literal kind => cases hkind.symm.trans kind
  | register kind => cases hkind.symm.trans kind
  | slot kind => cases hkind.symm.trans kind
  | constant kind => cases hkind.symm.trans kind
  | binary kind => cases hkind.symm.trans kind

theorem Tests.reads_iff {t : Tree} {w : Value} (h : Tests m scope t r c w r') {x : String}
    {fresh : Bool} {v : Value} (hn : scope.Names x fresh v) :
    w ≠ v ∧ (Mentioned v c ↔ (fresh && (Piece.one t).mentions x) = true) := by
  obtain ⟨i, rfl⟩ := hn.param
  cases h with
  | truth code ty =>
    have hne : w ≠ .param i .i32 := by
      rintro rfl
      cases ty
    refine ⟨hne, ?_⟩
    rw [← code.reads_iff hn, List.mem_singleton, or_iff_left hne.symm]
  | nonzero code =>
    refine ⟨Value.noConfusion, ?_⟩
    rw [← code.reads_iff hn, mentioned_append, mentioned_one]
    simp [Instr.operands, Value.int]

/-! ## Assignments -/

theorem Update.code_stores (u : Update) (old new q : Value) (r : Nat) :
    ∃ c w, u.code old new q r = c ++ [.store w q] ∧ ∀ p, Quiet p c := by
  cases u with
  | replace => exact ⟨[], new, rfl, fun _ _ hi => by cases hi⟩
  | combine op =>
    refine ⟨[.binary r op old new], .reg r old.ty, rfl, fun p i hi w => ?_⟩
    obtain rfl := List.mem_singleton.mp hi
    exact Instr.noConfusion

theorem Update.mentioned_assign (u : Update) {i d d' : Nat} {ty ty' : Ty} {w q : Value}
    (hq : q = .reg d' ty') :
    Mentioned (.param i .i32) (.load d ty q :: c ++ u.code (.reg d ty) w q r) ↔
      Mentioned (.param i .i32) c ∨ .param i .i32 ∈ [w] := by
  subst hq
  rw [← List.singleton_append, List.append_assoc, mentioned_append, mentioned_append]
  cases u with
  | replace => simp [mentioned_one, Update.code, Instr.operands]
  | combine op => simp [Mentioned, Update.code, Instr.operands]

end Emitted

/-- The slot `p` is seeded with the parameter `v`, and so is no other. -/
structure Function.Seeded (g : Function) (v p : Value) : Prop where
  param : ∃ i, v = .param i .i32
  seed : ⟨v, p⟩ ∈ g.seeds
  only : ∀ s ∈ g.seeds, s.value = v → s.pointer = p

section Layout

variable {m : Module} {g : Function} {x : String} {v p : Value} {ls : List LoopTargets}
  {μ μ' μ₁ : Mark} {ph : Phase}

theorem Mark.Binds.names (h : μ.Binds g x v ph) (hs : g.Seeded v p) :
    μ.scope.Names x ph.fresh v where
  param := hs.param
  register := h.register
  slot y w ty hy := by
    obtain ⟨d, ty', rfl, -⟩ := h.slots y w ty hy
    obtain ⟨i, rfl⟩ := hs.param
    exact Value.noConfusion

theorem Mark.Binds.pointer_ne (h : μ.Binds g x v ph) (hs : g.Seeded v p) {name : String} {ty : Ty}
    (ha : (μ.slot name ty).Awaited g) : μ.pointer ty ≠ p := by
  obtain ⟨j, hj⟩ := List.getElem?_of_mem hs.seed
  by_cases hlt : j < μ.seeds
  · exact ((h.seeds j _ hlt hj).ne (μ.pointer_newer ty)).symm
  · exact (μ.pointer_older ty).ne (ha j _ (Nat.not_lt.mp hlt) hj)

theorem Assigns.pointer_iff {name : String} {q : Value} {ty : Ty} (h : Assigns g name μ q ty μ₁)
    (hs : g.Seeded v p) (hb : μ.Binds g x v ph) (ha : μ₁.Awaited g) :
    q = p ↔ name = x ∧ ph.redeclared = false := by
  have hb₁ := h.binds hb
  have hname : μ₁.scope.local? name = some (.slot q ty) := by rw [h.local?, if_pos rfl]
  have hredeclared : (if name = x then ph.assign else ph).redeclared = ph.redeclared := by
    split <;> rfl
  obtain ⟨j, hj⟩ := List.getElem?_of_mem hs.seed
  by_cases hlt : j < μ₁.seeds
  · have hslot := hb₁.slot j p hlt hj name
    rw [hredeclared] at hslot
    rw [← hslot, hname]
    simp
  · -- The seed is still to come, so neither side holds.
    have hnewer := ha j _ (Nat.not_lt.mp hlt) hj
    refine iff_of_false ((hb₁.slots name q ty hname).ne hnewer) ?_
    rintro ⟨rfl, hr⟩
    have hassigned : (if name = name then ph.assign else ph).assigned = true := by
      simp only [if_true, Phase.assign, hr, Bool.not_false, Bool.or_true]
    obtain ⟨j', w, hj', hw⟩ := hb₁.seeded.mp hassigned
    obtain rfl : w = p := hs.only _ (List.mem_of_getElem? hw) rfl
    exact (hb₁.seeds j' _ hj' hw).ne hnewer rfl

end Layout

/-! ## Drawn skeletons -/

structure Mark.Ahead (μ : Mark) (n : Nat) (μ' : Mark) : Prop where
  block : μ'.block = μ.block
  offset : μ'.offset = μ.offset + n
  ended : μ'.ended = μ.ended
  blocks : μ'.blocks = μ.blocks

/-- The function has between the marks the control flow of the skeleton, with
the reads of `v` and the stores to `p` that the skeleton has. -/
inductive Drawn (g : Function) (v p : Value) : Skeleton → List LoopTargets → Mark → Mark → Prop
  | idle {ls : List LoopTargets} {μ μ' : Mark} (ahead : μ.Ahead 0 μ') :
      Drawn g v p (.code false) ls μ μ'
  | code {reads : Bool} {ls : List LoopTargets} {μ μ' : Mark} {c : List Instr} (holds : g.Holds μ c)
      (quiet : Quiet p c) (read : Mentioned v c ↔ reads = true) (ahead : μ.Ahead c.length μ') :
      Drawn g v p (.code reads) ls μ μ'
  | store {ls : List LoopTargets} {μ μ' : Mark} {c : List Instr} {w : Value}
      (holds : g.Holds μ (c ++ [.store w p])) (quiet : Quiet p c)
      (unread : ¬ Mentioned v (c ++ [.store w p])) (ahead : μ.Ahead (c.length + 1) μ') :
      Drawn g v p .store ls μ μ'
  | stop {reads : Bool} {ls : List LoopTargets} {μ : Mark} {c : List Instr} {w : Option Value}
      {r : Nat} (holds : g.Holds μ c) (quiet : Quiet p c)
      (ends : g.Ends (μ.after c.length r) (.ret w))
      (read : Mentioned v c ∨ v ∈ (Terminator.ret w).operands ↔ reads = true) :
      Drawn g v p (.stop reads) ls μ (μ.after c.length r).stop
  | leave {l : LoopTargets} {ls : List LoopTargets} {μ : Mark} (ends : g.Ends μ (.br l.onBreak)) :
      Drawn g v p .leave (l :: ls) μ μ.stop
  | again {l : LoopTargets} {ls : List LoopTargets} {μ : Mark}
      (ends : g.Ends μ (.br l.onContinue)) : Drawn g v p .again (l :: ls) μ μ.stop
  | seq {a b : Skeleton} {ls : List LoopTargets} {μ μ₁ μ₂ : Mark} (first : Drawn g v p a ls μ μ₁)
      (unended : μ₁.ended = false) (rest : Drawn g v p b ls μ₁ μ₂) :
      Drawn g v p (.seq a b) ls μ μ₂
  | loop {reads : Bool} {body : Skeleton} {ls : List LoopTargets} {μ μ₁ : Mark} {c : List Instr}
      {w : Value} {r : Nat} (enters : g.Ends μ (.br μ.blocks))
      (holds : g.Holds ((μ.grow 3).head μ.blocks) c) (quiet : Quiet p c)
      (read : Mentioned v c ↔ reads = true) (other : w ≠ v)
      (branches : g.Ends (((μ.grow 3).head μ.blocks).after c.length r)
        (.condBr w (μ.blocks + 1) (μ.blocks + 2)))
      (inside : Drawn g v p body (⟨μ.blocks, μ.blocks + 2⟩ :: ls)
        ((((μ.grow 3).head μ.blocks).after c.length r).head (μ.blocks + 1)) μ₁)
      (back : g.Falls μ₁ μ.blocks) :
      Drawn g v p (.loop reads body) ls μ (μ₁.head (μ.blocks + 2))
  | ifThen {reads : Bool} {yes : Skeleton} {ls : List LoopTargets} {μ μ₁ : Mark} {c : List Instr}
      {w : Value} {r : Nat} (holds : g.Holds μ c) (quiet : Quiet p c)
      (read : Mentioned v c ↔ reads = true) (other : w ≠ v)
      (branches : g.Ends (μ.after c.length r) (.condBr w μ.blocks (μ.blocks + 1)))
      (inside : Drawn g v p yes ls (((μ.after c.length r).grow 2).head μ.blocks) μ₁)
      (joins : g.Falls μ₁ (μ.blocks + 1)) :
      Drawn g v p (.branch reads yes (.code false)) ls μ (μ₁.head (μ.blocks + 1))
  | ifElse {reads : Bool} {yes no : Skeleton} {ls : List LoopTargets} {μ μ₁ μ₂ : Mark}
      {c : List Instr} {w : Value} {r : Nat} (holds : g.Holds μ c) (quiet : Quiet p c)
      (read : Mentioned v c ↔ reads = true) (other : w ≠ v)
      (branches : g.Ends (μ.after c.length r) (.condBr w μ.blocks (μ.blocks + 2)))
      (inside : Drawn g v p yes ls (((μ.after c.length r).grow 3).head μ.blocks) μ₁)
      (joins : g.Falls μ₁ (μ.blocks + 1))
      (otherwise : Drawn g v p no ls (μ₁.head (μ.blocks + 2)) μ₂)
      (joins' : g.Falls μ₂ (μ.blocks + 1)) :
      Drawn g v p (.branch reads yes no) ls μ (μ₂.head (μ.blocks + 1))

section Drawing

variable {m : Module} {g : Function} {x : String} {v p : Value} {q : Piece} {ls : List LoopTargets}
  {μ μ' μ₁ : Mark} {ph : Phase}

theorem quiet_store {w u : Value} (h : u ≠ p) : Quiet p [.store w u] := by
  intro i hi w' he
  obtain rfl := List.mem_singleton.mp hi
  exact h (Instr.store.inj he).2

theorem Function.Ends.holds_nil {y : Terminator} (h : g.Ends μ y) : g.Holds μ [] := by
  obtain ⟨k, hk, -⟩ := h
  exact ⟨k, hk, List.nil_prefix⟩

theorem Lays.drawn_assign {site : Site} {op rhs : Tree} {update : Update} {u w : Value} {ty : Ty}
    {c : List Instr} {r : Nat} (hs : g.Seeded v p) (hb : μ.Binds g x v ph) (ha : μ₁.Awaited g)
    (kind : site.kind = .assignment) (target : Assigns g site.name μ u ty μ₁)
    (code : Emits m μ₁.scope (.one rhs) (μ₁.registers + 1) c [w] r)
    (holds : g.Holds μ (.load μ₁.registers ty u :: c ++ update.code (.reg μ₁.registers ty) w u r)) :
    Drawn g v p ((Piece.one (.node site [op, rhs])).trace x ph).1 ls μ
      ((μ₁.after (.load μ₁.registers ty u :: c ++
        update.code (.reg μ₁.registers ty) w u r).length (update.next r)).rebind
          site.name u ty) := by
  have hb₁ := target.binds hb
  have hname : μ₁.scope.local? site.name = some (.slot u ty) := by rw [target.local?, if_pos rfl]
  obtain ⟨d, ty', hu, -⟩ := hb₁.slots _ _ _ hname
  have hread := code.reads_iff (hb₁.names hs)
  obtain ⟨i, rfl⟩ := hs.param
  rw [← update.mentioned_assign hu] at hread
  have htarget := target.pointer_iff hs hb ha
  obtain ⟨hblocks, hblock, hended, hoffset⟩ := target.blocks
  obtain ⟨c', w', hcode, hquiet⟩ := update.code_stores (.reg μ₁.registers ty) w u r
  have hquiet' : Quiet p (.load μ₁.registers ty u :: c ++ c') := by
    refine quiet_append.mpr ⟨fun i hi w => ?_, hquiet p⟩
    rcases List.mem_cons.mp hi with rfl | hi
    · exact Instr.noConfusion
    · exact code.quiet p i hi w
  rw [hcode, ← List.append_assoc] at holds hread ⊢
  rw [Piece.trace_assign kind]
  have hother : u ≠ p → Quiet p (.load μ₁.registers ty u :: c ++ c' ++ [.store w' u]) :=
    fun hne => quiet_append.mpr ⟨hquiet', quiet_store hne⟩
  by_cases hx : site.name = x
  · rw [if_pos hx, Phase.fresh_assign, Bool.false_and] at hread
    rw [if_pos hx]
    cases hr : ph.redeclared with
    | true =>
      have hne : u ≠ p := fun h => Bool.false_ne_true ((htarget.mp h).2.symm.trans hr)
      exact .code holds (hother hne) hread ⟨hblock, by simp [hoffset], hended, hblocks⟩
    | false =>
      obtain rfl := htarget.mpr ⟨hx, hr⟩
      exact .store holds hquiet' (fun h => Bool.false_ne_true (hread.mp h))
        ⟨hblock, by simp [hoffset, Nat.add_assoc], hended, hblocks⟩
  · have hne : u ≠ p := fun h => hx (htarget.mp h).1
    rw [if_neg hx] at hread
    rw [if_neg hx]
    exact .code holds (hother hne) hread ⟨hblock, by simp [hoffset], hended, hblocks⟩

/-- A layout draws the skeleton of its piece. -/
theorem Lays.drawn (h : Lays m g q ls μ μ') (hs : g.Seeded v p) (hμ : μ.ended = false)
    (hb : μ.Binds g x v ph) (ha : μ'.Awaited g) : Drawn g v p (q.trace x ph).1 ls μ μ' := by
  induction h generalizing ph with
  | declare kind =>
    rw [Piece.trace_declare kind]
    exact .idle ⟨rfl, rfl, rfl, rfl⟩
  | @initialise site _ _ _ μ ty _ _ _ kind _ _ _ _ code _ holds =>
    rw [Piece.trace_initialise kind]
    have hb' := hb.declare site.name ty
    have ha' : (μ.slot site.name ty).Awaited g := ha.mono code.registers_le rfl
    have hne := hb.pointer_ne hs ha'
    have hread := code.reads_iff (hb'.names hs)
    refine .code holds (quiet_append.mpr ⟨code.quiet p, quiet_store hne⟩) ?_
      ⟨rfl, by simp, rfl, rfl⟩
    rw [mentioned_append, mentioned_one, Tree.reads, ← hread]
    obtain ⟨i, rfl⟩ := hs.param
    simp [Instr.operands, Mark.pointer]
  | @assign site op rhs ls μ μ₁ update u ty c w r kind _ _ target code _ holds =>
    have hr := Nat.le_trans code.registers_le (update.le_next r)
    exact drawn_assign hs hb (ha.mono (Nat.le_trans (Nat.le_succ _) hr) rfl) kind target code holds
  | @returnNone _ _ μ kind ends =>
    rw [Piece.trace_returnNone kind]
    exact .stop (c := []) (r := μ.registers) ends.holds_nil (fun _ hi => by cases hi) ends
      (by simp [mentioned_nil, Terminator.operands])
  | returnValue kind code holds ends =>
    rw [Piece.trace_returnValue kind]
    refine .stop holds (code.quiet p) ends ?_
    rw [Tree.reads, ← code.reads_iff (hb.names hs)]
    rfl
  | loop kind blockBody enters code holds branches inside back ih =>
    rw [Piece.trace_loop kind blockBody]
    obtain ⟨hother, hread⟩ := code.reads_iff (hb.names hs)
    refine .loop enters holds (code.quiet p) hread hother branches (ih rfl ?_ ?_) back
    · exact hb.mono (fun _ => rfl) code.registers_le rfl
    · exact ha.mono (Nat.le_refl _) rfl
  | ifThen kind _ blockYes code holds branches inside joins ih =>
    rw [Piece.trace_ifThen kind blockYes]
    obtain ⟨hother, hread⟩ := code.reads_iff (hb.names hs)
    refine .ifThen holds (code.quiet p) hread hother branches (ih rfl ?_ ?_) joins
    · exact hb.mono (fun _ => rfl) code.registers_le rfl
    · exact ha.mono (Nat.le_refl _) rfl
  | @ifElse _ _ yes no _ μ μ₁ μ₂ c _ r kind _ blockYes _ code holds branches inside joins otherwise
      joins' ih₁ ih₂ =>
    rw [Piece.trace_ifElse kind blockYes]
    obtain ⟨hother, hread⟩ := code.reads_iff (hb.names hs)
    have hbYes : (((μ.after c.length r).grow 3).head μ.blocks).Binds g x v ph :=
      hb.mono (fun _ => rfl) code.registers_le rfl
    have hbNo : (μ₁.head (μ.blocks + 2)).Binds g x v _ :=
      (inside.traced rfl hbYes).1.mono (fun _ => rfl) (Nat.le_refl _) rfl
    have haNo : μ₂.Awaited g := ha.mono (Nat.le_refl _) rfl
    have haYes : μ₁.Awaited g := (otherwise.awaited haNo).mono (Nat.le_refl _) rfl
    exact .ifElse holds (code.quiet p) hread hother branches (ih₁ rfl hbYes haYes) joins
      (ih₂ rfl hbNo haNo) joins'
  | leave kind named ends =>
    rw [Piece.trace_leave kind named]
    exact .leave ends
  | again kind named ends =>
    rw [Piece.trace_again kind named]
    exact .again ends
  | call kind code holds =>
    rw [Piece.trace_call kind]
    refine .code holds (code.quiet p) ?_ ⟨rfl, rfl, rfl, rfl⟩
    obtain ⟨i, rfl⟩ := hs.param
    rw [Tree.reads, ← code.reads_iff (hb.names hs), or_iff_left (code.unreturned kind)]
  | block kind _ ih =>
    rw [Piece.trace_block kind]
    exact ih hμ hb ha
  | nil =>
    rw [Piece.trace_nil]
    exact .idle ⟨rfl, rfl, rfl, rfl⟩
  | skip ended =>
    rw [hμ] at ended
    cases ended
  | @cons t ts ls μ μ₁ μ₂ _ first rest ih₁ ih₂ =>
    obtain ⟨hb₁, hended⟩ := first.traced hμ hb
    have hdrawn := ih₁ hμ hb (rest.awaited ha)
    cases he : μ₁.ended with
    | true =>
      obtain rfl := rest.stopped he
      rw [Piece.trace_ended (hended.symm.trans he)]
      exact hdrawn
    | false =>
      rw [Piece.trace_cons (hended.symm.trans he)]
      exact .seq hdrawn he (ih₂ he hb₁ ha)

end Drawing

end TreeFlow
