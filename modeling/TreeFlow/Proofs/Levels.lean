import TreeFlow.Proofs.DeadCode
import TreeFlow.Proofs.Linking
import TreeFlow.Proofs.Ownership
import TreeFlow.Proofs.Quiet
import TreeFlow.Proofs.Skeleton

/-!
# Levels of nesting

The statements in the body of a function are at level one. The statements of a block
are one level below the statement that the block belongs to, a conditional in place of
a second arm is one level below the conditional, and an expression is one level below
what it is part of. There is a limit to the levels. Where a program keeps to it,
lowering does not fail on its account, and where lowering does, the site it names is
on the first level behind the limit. What stands behind the end of a block is skipped,
and it may be on any level.
-/

set_option autoImplicit false

namespace TreeFlow

variable {ts : List Tree} {site : Site}

/-! ## The levels of a tree -/

namespace Tree

mutual

/-- The nodes of an expression, which is itself at level `n`. -/
def expressionLevels (n : Nat) : Tree → List (Nat × Site)
  | .node site ts => (n, site) :: argumentLevels (n + 1) ts

def argumentLevels (n : Nat) : List Tree → List (Nat × Site)
  | [] => []
  | t :: ts => t.expressionLevels n ++ argumentLevels n ts

end

mutual

/-- Control does not go on behind the statement. -/
def ends : Tree → Bool
  | .node site ts =>
    match site.kind with
    | .returnStatement => true
    | .statement => site.name == "break" || site.name == "continue"
    | .block => endsAny ts
    | _ => false

def endsAny : List Tree → Bool
  | [] => false
  | t :: ts => t.ends || endsAny ts

end

mutual

/-- The nodes below a statement, where those right below it are at level `n`. Unless
dead code counts, the statements behind the end of a block are left out. -/
def beneath (dead : Bool) (n : Nat) : Tree → List (Nat × Site)
  | .node site ts =>
    match site.kind, ts with
    | .variableDeclaration, [_, init] => init.expressionLevels n
    | .assignment, [_, value] => value.expressionLevels n
    | .returnStatement, [value] => value.expressionLevels n
    | .functionCall, ts => argumentLevels n ts
    | .whileStatement, [test, body] => test.expressionLevels n ++ body.beneath dead n
    | .statement, [test, yes] =>
      if site.name = "if" then test.expressionLevels n ++ yes.beneath dead n else []
    | .statement, [test, yes, no] =>
      if site.name = "if" then
        test.expressionLevels n ++ yes.beneath dead n ++
          if no.kind = .block then no.beneath dead n else (n, no.site) :: no.beneath dead (n + 1)
      else []
    | .block, ts => rowLevels dead n ts
    | _, _ => []

def rowLevels (dead : Bool) (n : Nat) : List Tree → List (Nat × Site)
  | [] => []
  | t :: ts =>
    (n, t.site) :: t.beneath dead (n + 1) ++
      if !dead && t.ends then [] else rowLevels dead n ts

end

def itemLevels (dead : Bool) (f : Tree) : List (Nat × Site) :=
  if f.kind = .functionDeclaration then rowLevels dead 1 f.statements else []

/-- The statements and expressions of a program with their levels. -/
def levels (dead : Bool) (t : Tree) : List (Nat × Site) := t.children.flatMap (itemLevels dead)

section Forms

variable {t test yes no : Tree} (dead : Bool) (n : Nat)

theorem beneath_declare (kind : site.kind = .variableDeclaration) :
    (node site [t]).beneath dead n = [] := by
  rw [Site.eq_of_kind kind]
  rfl

theorem beneath_initialise {init : Tree} (kind : site.kind = .variableDeclaration) :
    (node site [t, init]).beneath dead n = init.expressionLevels n := by
  rw [Site.eq_of_kind kind]
  rfl

theorem beneath_assign {value : Tree} (kind : site.kind = .assignment) :
    (node site [t, value]).beneath dead n = value.expressionLevels n := by
  rw [Site.eq_of_kind kind]
  rfl

theorem beneath_returnNone (kind : site.kind = .returnStatement) :
    (node site []).beneath dead n = [] := by
  rw [Site.eq_of_kind kind]
  rfl

theorem beneath_returnValue (kind : site.kind = .returnStatement) :
    (node site [t]).beneath dead n = t.expressionLevels n := by
  rw [Site.eq_of_kind kind]
  rfl

theorem beneath_call (kind : site.kind = .functionCall) :
    (node site ts).beneath dead n = argumentLevels n ts := by
  rw [Site.eq_of_kind kind]
  rfl

theorem beneath_loop {body : Tree} (kind : site.kind = .whileStatement) :
    (node site [test, body]).beneath dead n =
      test.expressionLevels n ++ body.beneath dead n := by
  rw [Site.eq_of_kind kind]
  rfl

theorem beneath_ifThen (kind : site.kind = .statement) (name : site.name = "if") :
    (node site [test, yes]).beneath dead n =
      test.expressionLevels n ++ yes.beneath dead n := by
  rw [Site.eq_of_kind kind]
  exact if_pos name

theorem beneath_ifElse (kind : site.kind = .statement) (name : site.name = "if") :
    (node site [test, yes, no]).beneath dead n =
      test.expressionLevels n ++ yes.beneath dead n ++
        if no.kind = .block then no.beneath dead n
        else (n, no.site) :: no.beneath dead (n + 1) := by
  rw [Site.eq_of_kind kind]
  exact if_pos name

theorem beneath_jump (kind : site.kind = .statement) : (node site []).beneath dead n = [] := by
  rw [Site.eq_of_kind kind]
  rfl

theorem beneath_block (h : t.kind = .block) : t.beneath dead n = rowLevels dead n t.children := by
  cases t with
  | node site ts =>
    rw [Site.eq_of_kind (show site.kind = .block from h)]
    rfl

end Forms

theorem rowLevels_ended {n : Nat} {t : Tree} (h : t.ends = true) :
    rowLevels false n (t :: ts) = (n, t.site) :: t.beneath false (n + 1) := by
  simp [rowLevels, h]

theorem rowLevels_open {n : Nat} {t : Tree} (h : t.ends = false) :
    rowLevels false n (t :: ts) =
      (n, t.site) :: t.beneath false (n + 1) ++ rowLevels false n ts := by
  simp [rowLevels, h]

theorem rowLevels_subset {n : Nat} (h : ∀ t ∈ ts, ∀ n, t.beneath false n ⊆ t.beneath true n) :
    rowLevels false n ts ⊆ rowLevels true n ts := by
  induction ts with
  | nil => exact List.Subset.refl _
  | cons t ts ih =>
    have hhead := h t (by simp) (n + 1)
    have htail := ih fun t ht => h t (by simp [ht])
    rw [rowLevels, rowLevels]
    refine List.append_subset.mpr ⟨?_, ?_⟩
    · exact fun x hx => List.mem_append_left _ (List.cons_subset_cons _ hhead hx)
    · split
      · exact List.nil_subset _
      · exact fun x hx => List.mem_append_right _ (htail hx)

theorem append_subset_append {α : Type} {xs ys xs' ys' : List α} (hx : xs ⊆ xs') (hy : ys ⊆ ys') :
    xs ++ ys ⊆ xs' ++ ys' :=
  List.append_subset.mpr
    ⟨fun _ h => List.mem_append_left _ (hx h), fun _ h => List.mem_append_right _ (hy h)⟩

theorem beneath_subset (t : Tree) (n : Nat) : t.beneath false n ⊆ t.beneath true n := by
  induction t using Tree.induct generalizing n with
  | node site ts ih =>
    unfold beneath
    split
    · exact List.Subset.refl _
    · exact List.Subset.refl _
    · exact List.Subset.refl _
    · exact List.Subset.refl _
    · rename_i test body _
      exact append_subset_append (List.Subset.refl _) (ih body (by simp) n)
    · rename_i test yes _
      split
      · exact append_subset_append (List.Subset.refl _) (ih yes (by simp) n)
      · exact List.Subset.refl _
    · rename_i test yes no _
      split
      · refine append_subset_append
          (append_subset_append (List.Subset.refl _) (ih yes (by simp) n)) ?_
        split
        · exact ih no (by simp) n
        · exact List.cons_subset_cons _ (ih no (by simp) (n + 1))
      · exact List.Subset.refl _
    · exact rowLevels_subset ih
    · exact List.Subset.refl _

theorem levels_subset (t : Tree) : t.levels false ⊆ t.levels true := by
  intro x hx
  obtain ⟨f, hf, hx⟩ := List.mem_flatMap.mp hx
  refine List.mem_flatMap.mpr ⟨f, hf, ?_⟩
  unfold itemLevels at hx ⊢
  split at hx
  · rw [if_pos ‹_›]
    exact rowLevels_subset (fun t _ n => beneath_subset t n) hx
  · cases hx

end Tree

/-! ## Statements that end their block -/

def Piece.ends : Piece → Bool
  | .one t => t.ends
  | .many ts => Tree.endsAny ts

section Ends

variable {m : Module} {g : Function} {p : Piece} {ls : List LoopTargets} {μ μ' : Mark}

/-- A piece that starts in an open block leaves it ended if its source says so. -/
theorem Lays.ended_eq (h : Lays m g p ls μ μ') (hopen : μ.ended = false) :
    μ'.ended = p.ends := by
  induction h with
  | declare kind | initialise kind | call kind =>
    rw [Site.eq_of_kind kind]
    exact hopen
  | assign kind _ _ target =>
    rw [Site.eq_of_kind kind]
    exact target.blocks.2.2.1.trans hopen
  | returnNone kind | returnValue kind | loop kind =>
    rw [Site.eq_of_kind kind]
    rfl
  | ifThen kind named | ifElse kind named =>
    rw [Site.eq_of_kind kind, named]
    rfl
  | leave kind named | again kind named =>
    rw [Site.eq_of_kind kind, named]
    rfl
  | block kind _ ih =>
    rw [Site.eq_of_kind kind]
    exact ih hopen
  | nil => exact hopen
  | skip ended =>
    rw [hopen] at ended
    cases ended
  | @cons t ts _ μ μ₁ μ₂ _ first rest ih₁ ih₂ =>
    have hfirst : μ₁.ended = t.ends := ih₁ hopen
    change μ₂.ended = (t.ends || Tree.endsAny ts)
    cases hends : t.ends with
    | true =>
      rw [rest.stopped (hfirst.trans hends), hfirst, hends]
      rfl
    | false => exact ih₂ (hfirst.trans hends)

end Ends

namespace Lower

variable {α β : Type} {s t u : LowerState} {ns ms : List (Nat × Site)}

theorem statement_leaves {c : Tree} {x : Unit} (hs : Unended s) (h : statement c s = .ok x u) :
    ∃ id f b k, u.At id f b k ∧ k.terminated = c.ends := by
  obtain ⟨id, f, b, k, hat, hopen⟩ := hs
  obtain ⟨g, c', l, hend, -, hlays⟩ := (statement_lays c).1 hat hopen h
  refine ⟨id, g, c', l, hend, (hlays u.module g (.refl _) (.refl _)).ended_eq ?_⟩
  simp [Mark.of, Block.terminated, hopen]

/-! ## Runs within the limit -/

/-- The run succeeds only if the nodes are within the limit, and if it fails on account
of the levels, it names one of the nodes, which is on the first level behind it. -/
structure Within (ns : List (Nat × Site)) (r : EStateM.Result LowerError LowerState α) :
    Prop where
  fits : ∀ {a t}, r = .ok a t → ∀ n ∈ ns, n.1 ≤ maxDepth
  names : ∀ {e t}, r = .error e t → Shallow e ∨
    ∃ n ∈ ns, n.1 = maxDepth + 1 ∧ e = n.2.fault (.tooDeep n.2.kind)

theorem Quiet.within {x : Lower α} (h : Quiet x) (s : LowerState) : Within [] (x s) where
  fits _ _ hn := absurd hn List.not_mem_nil
  names hr := .inl (h hr)

theorem within_of_ok {r : EStateM.Result LowerError LowerState α} {a : α} (h : r = .ok a t) :
    Within [] r where
  fits _ _ hn := absurd hn List.not_mem_nil
  names hr := by cases h.symm.trans hr

theorem within_throw {e : LowerError} (h : Shallow e) : Within ns ((throw e : Lower α) s) where
  fits hr := by cases hr
  names hr := by
    cases hr
    exact .inl h

theorem within_bind {x : Lower α} {k : α → Lower β} (hx : Within ns (x s))
    (hk : ∀ a t, x s = .ok a t → Within ms (k a t)) : Within (ns ++ ms) ((x >>= k) s) where
  fits hr n hn := by
    obtain ⟨a, t, ha, hr⟩ := bind_ok.mp hr
    rcases List.mem_append.mp hn with hn | hn
    · exact hx.fits ha n hn
    · exact (hk a t ha).fits hr n hn
  names hr := by
    rcases bind_error.mp hr with hr | ⟨a, t, ha, hr⟩
    · exact (hx.names hr).imp_right fun ⟨n, hn, h⟩ => ⟨n, List.mem_append_left _ hn, h⟩
    · exact ((hk a t ha).names hr).imp_right fun ⟨n, hn, h⟩ =>
        ⟨n, List.mem_append_right _ hn, h⟩

theorem within_after {x : Lower α} {k : α → Lower β} (hx : Quiet x)
    (hk : ∀ a t, x s = .ok a t → Within ns (k a t)) : Within ns ((x >>= k) s) :=
  within_bind (hx.within s) hk

theorem within_before {x : Lower α} {k : α → Lower β} (hx : Within ns (x s))
    (hk : ∀ a, Quiet (k a)) : Within ns ((x >>= k) s) := by
  have hbind := within_bind hx fun a t _ => (hk a).within t
  rwa [List.append_nil] at hbind

theorem within_ensuring {x : Lower α} {after : LowerState → LowerState} (h : Within ns (x s)) :
    Within ns (ensuring x after s) where
  fits hr := by
    obtain ⟨t, ht, -⟩ := ensuring_ok.mp hr
    exact h.fits ht
  names hr := by
    obtain ⟨t, ht, -⟩ := ensuring_error.mp hr
    exact h.names ht

theorem within_nested {x : Lower α} (hs : s.depth ≤ maxDepth)
    (hx : s.depth < maxDepth → Within ns (x (deeper s))) :
    Within ((s.depth + 1, site) :: ns) (nested site x s) := by
  by_cases hdepth : s.depth < maxDepth
  · rw [nested_of_shallow hdepth]
    have hinner : Within ns (ensuring x shallower (deeper s)) := within_ensuring (hx hdepth)
    refine ⟨fun hr n hn => ?_, fun hr => ?_⟩
    · rcases List.mem_cons.mp hn with rfl | hn
      · exact hdepth
      · exact hinner.fits hr n hn
    · exact (hinner.names hr).imp_right fun ⟨n, hn, h⟩ => ⟨n, List.mem_cons_of_mem _ hn, h⟩
  · have hlimit : s.depth = maxDepth := Nat.le_antisymm hs (Nat.not_lt.mp hdepth)
    rw [nested_of_deep (Nat.not_lt.mp hdepth)]
    refine ⟨fun hr => ?_, fun hr => ?_⟩
    · cases hr
    · cases hr
      exact .inr ⟨(s.depth + 1, site), List.mem_cons_self, congrArg (· + 1) hlimit, rfl⟩

theorem Restores.depth {x : Lower α} {a : α} (h : Restores x) (hr : x s = .ok a t) :
    t.depth = s.depth := by
  have hs := h s
  rw [hr] at hs
  exact hs.depth

/-! ### Expressions -/

theorem restores_expression (t : Tree) : Restores (expression t) :=
  (touching.expression t fun _ _ _ => trivial).restores

def ExpressionWithin (c : Tree) : Prop :=
  ∀ {s : LowerState}, s.depth ≤ maxDepth →
    Within (c.expressionLevels (s.depth + 1)) (expression c s)

theorem arguments_within (ih : ∀ t ∈ ts, ExpressionWithin t) (c : Callee) (args : List Value)
    (hs : s.depth ≤ maxDepth) :
    Within (Tree.argumentLevels (s.depth + 1) ts) (arguments c args ts s) := by
  induction ts generalizing s args with
  | nil =>
    rw [arguments]
    exact (quiet_pure args).within s
  | cons t ts ihs =>
    rw [arguments, Tree.argumentLevels]
    refine within_bind (ih t (by simp) hs) fun v u hu => ?_
    refine within_after (quiet_lift fun _ => shallow_checkArgument) fun _ w hw => ?_
    obtain ⟨-, rfl⟩ := lift_ok.mp hw
    have hdepth := (restores_expression t).depth hu
    rw [← hdepth]
    exact ihs (fun t ht => ih t (by simp [ht])) _ (hdepth ▸ hs)

theorem functionCall_within (ih : ∀ t ∈ ts, ExpressionWithin t) (hs : s.depth ≤ maxDepth) :
    Within (Tree.argumentLevels (s.depth + 1) ts) (functionCall (.node site ts) s) := by
  refine within_after (quiet_callee site _) fun c u hu => ?_
  have hdepth := (restores_callee site _).depth hu
  rw [← hdepth]
  exact within_before (arguments_within ih c _ (hdepth ▸ hs)) fun args => quiet_call c.id args

theorem expression_within (c : Tree) : ExpressionWithin c := by
  induction c using Tree.induct with
  | node site ts ih =>
    intro s hs
    obtain ⟨act, hform, hact⟩ := expression_form site ts
    rw [hact, Tree.expressionLevels]
    refine within_nested hs fun hlimit => ?_
    have hdepth : (deeper s).depth ≤ maxDepth := hlimit
    cases hform with
    | literal =>
      refine (quiet_lift fun e he => ?_).within _
      cases hn : site.literal with
      | ok n =>
        rw [hn] at he
        cases he
      | error e' =>
        rw [hn] at he
        cases he
        exact shallow_literal hn
    | name => exact (quiet_name site).within _
    | binary _ l r =>
      refine within_after (quiet_lift fun _ => shallow_operator) fun op u hu => ?_
      obtain ⟨-, rfl⟩ := lift_ok.mp hu
      refine within_bind (ih l (by simp) hdepth) fun v u hu => ?_
      have hback := (restores_expression l).depth hu
      rw [Tree.argumentLevels, Tree.argumentLevels, List.append_nil]
      refine within_before ?_ fun w => quiet_operate site op v w
      have hright := ih r (by simp) (s := u) (hback ▸ hdepth)
      rwa [hback] at hright
    | call =>
      rw [callValue_eq]
      refine within_before (functionCall_within ih hdepth) fun out => ?_
      cases out with
      | none => exact quiet_throw nofun
      | some v => exact quiet_pure v
    | refused _ c _ shallow => exact within_throw shallow

theorem condition_within (c : Tree) (hs : s.depth ≤ maxDepth) :
    Within (c.expressionLevels (s.depth + 1)) (condition c s) := by
  refine within_before (expression_within c hs) fun v => ?_
  cases v.ty with
  | i1 => exact quiet_pure v
  | i32 => exact quiet_inBlock _
  | _ => exact quiet_throw nofun

/-! ### Simple statements -/

section Statements

variable {d : Nat}

theorem variableDeclaration_within (kind : site.kind = .variableDeclaration)
    (hs : s.depth ≤ maxDepth) :
    Within ((Tree.node site ts).beneath false (s.depth + 1)) (variableDeclaration site ts s) := by
  rcases ts with _ | ⟨type, _ | ⟨init, _ | ⟨_, _⟩⟩⟩
  · exact within_throw nofun
  · rw [Tree.beneath_declare _ _ kind]
    exact (quiet_bind (quiet_variableSlot site type.site) fun _ => quiet_pure ()).within s
  · rw [Tree.beneath_initialise _ _ kind]
    refine within_after (quiet_variableSlot site type.site) fun slot t ht => ?_
    have htouches : Touches (SlotsRelated touching.value) (variableSlot site type.site) :=
      touching.variableSlot site type.site
    rw [← htouches.restores.depth ht] at hs ⊢
    refine within_before (expression_within init hs) fun v => ?_
    exact quiet_bind (quiet_lift fun _ => shallow_checkStore) fun _ => quiet_inBlock _
  · exact within_throw nofun

theorem assignment_within (kind : site.kind = .assignment) (hs : s.depth ≤ maxDepth) :
    Within ((Tree.node site ts).beneath false (s.depth + 1)) (assignment site ts s) := by
  rcases ts with _ | ⟨op, _ | ⟨value, _ | ⟨_, _⟩⟩⟩
  · exact within_throw nofun
  · exact within_throw nofun
  · rw [Tree.beneath_assign _ _ kind]
    refine within_after (quiet_lift fun _ => shallow_require) fun _ t ht => ?_
    obtain ⟨-, rfl⟩ := lift_ok.mp ht
    refine within_after (quiet_lift fun _ => shallow_update) fun update t ht => ?_
    obtain ⟨-, rfl⟩ := lift_ok.mp ht
    refine within_after (quiet_assignedSlot site) fun slot u hu => ?_
    have htouches : Touches (SlotsRelated touching.value) (assignedSlot site) :=
      touching.assignedSlot site
    rw [← htouches.restores.depth hu] at hs ⊢
    refine within_after (quiet_inBlock _) fun old w hw => ?_
    rw [← (restores_inBlock _).depth hw] at hs ⊢
    refine within_before (expression_within value hs) fun new => ?_
    refine quiet_bind (quiet_lift fun _ => shallow_checkStore) fun _ => ?_
    have hstore : ∀ v, Quiet (do
        store v slot.1
        bind site.name (.slot slot.1 slot.2)) := fun v =>
      quiet_bind (quiet_inBlock _) fun _ => quiet_of_ok fun _ => ⟨_, _, rfl⟩
    cases update with
    | replace => exact quiet_bind (quiet_pure new) hstore
    | combine op => exact quiet_bind (quiet_inBlock _) hstore
  · exact within_throw nofun

theorem returnStatement_within (kind : site.kind = .returnStatement) (hs : s.depth ≤ maxDepth) :
    Within ((Tree.node site ts).beneath false (s.depth + 1)) (returnStatement site ts s) := by
  rcases ts with _ | ⟨value, _ | ⟨_, _⟩⟩
  · rw [Tree.beneath_returnNone _ _ kind]
    exact (quiet_inBlock _).within s
  · rw [Tree.beneath_returnValue _ _ kind]
    exact within_before (expression_within value hs) fun v => quiet_inBlock _
  · exact within_throw nofun

theorem jump_within {target : LoopTargets → Nat} (kind : site.kind = .statement) {c : Cause}
    (shallow : ∀ k, c ≠ .tooDeep k) (s : LowerState) :
    Within ((Tree.node site ts).beneath false d) (jump site c target ts s) := by
  rcases ts with _ | ⟨_, _⟩
  · rw [Tree.beneath_jump _ _ kind]
    refine (quiet_bind (quiet_of_ok fun _ => ⟨_, _, rfl⟩) fun l => ?_).within s
    cases l with
    | some l => exact quiet_inBlock _
    | none => exact quiet_throw shallow
  · exact within_throw nofun

/-! ### Arms -/

def Aside (c : Nat) (s : LowerState) : Prop := OpenAt c s ∧ s.block ≠ some c

theorem Aside.run {c : Nat} {x : Lower α} {a : α} (h : Aside c s)
    (hx : Steps (c + 1) s (last (x s))) (hr : x s = .ok a t) : Aside c t :=
  (hx.of_ok hr).openAt h.1.grown (Nat.lt_succ_self c) h.2 h.1

theorem newBlock_aside {label : String} {c : Nat} (hs : Unended s)
    (hr : newBlock label s = .ok c t) : Aside c t := by
  obtain ⟨id, f, b, k, hat, -⟩ := hs
  exact ⟨newBlock_openAt hr, newBlock_away hr ⟨id, f, b, k, hat⟩⟩

theorem restores_newBlock (label : String) : Restores (newBlock label) :=
  restores_bind (restores_inFunction _) fun _ =>
    restores_bind (fun _ => ⟨rfl, rfl, rfl, rfl, rfl, List.prefix_refl _⟩) fun _ => restores_pure _

theorem restores_setBlock (b : Nat) : Restores (setBlock b) :=
  fun _ => ⟨rfl, rfl, rfl, rfl, rfl, List.prefix_refl _⟩

theorem restores_condition (c : Tree) : Restores (condition c) := by
  have htouches : Touches touching.value (condition c) := touching.condition c fun _ _ _ => trivial
  exact htouches.restores

theorem restores_fallThrough (b : Nat) : Restores (fallThrough b) := by
  have htouches : Touches (fun _ _ : Unit => True) (fallThrough b) := touching.fallThrough b
  exact htouches.restores

theorem restores_statement (c : Tree) : Restores (statement c) := (touches_statement c).restores

theorem restores_block (b : Nat) (c : Tree) : Restores (block b c) := by
  have htouches : Touches (fun _ _ : Unit => True) (block b c) :=
    (touching.tree c fun _ _ _ => trivial).2 b
  exact htouches.restores

def StatementWithin (c : Tree) : Prop :=
  ∀ {s : LowerState}, s.depth ≤ maxDepth → Unended s →
    Within ((s.depth + 1, c.site) :: c.beneath false (s.depth + 2)) (statement c s)

def ArmWithin (c : Tree) : Prop :=
  ∀ {s : LowerState} {b : Nat}, s.depth ≤ maxDepth → OpenAt b s →
    Within (Tree.rowLevels false (s.depth + 1) c.children) (block b c s)

theorem require_within {arm : Tree} {x : Lower Unit} (hx : arm.kind = .block → Within ns (x s)) :
    Within ns ((do lift (site.require 1 .block arm); x) s) := by
  refine within_after (quiet_lift fun _ => shallow_require) fun _ u hu => ?_
  obtain ⟨hrequire, rfl⟩ := lift_ok.mp hu
  exact hx (require_ok hrequire)

theorem ifThen_within {test yes : Tree} (hyes : ArmWithin yes) (hs : s.depth ≤ maxDepth)
    (hopen : Unended s) :
    Within (test.expressionLevels (s.depth + 1) ++
        Tree.rowLevels false (s.depth + 1) yes.children)
      (conditional test (fun b => block b yes) none s) := by
  rw [conditional_none]
  refine within_bind (condition_within test hs) fun v t ht => ?_
  rw [← (restores_condition test).depth ht] at hs ⊢
  replace hopen := Emissions.unended ((emitting_condition test).run ht) hopen
  refine within_after (quiet_newBlock _) fun y t hy => ?_
  rw [← (restores_newBlock _).depth hy] at hs ⊢
  have haside := newBlock_aside hopen hy
  refine within_after (quiet_newBlock _) fun e t he => ?_
  rw [← (restores_newBlock _).depth he] at hs ⊢
  replace haside := haside.run (steps_newBlock _) he
  refine within_after (quiet_inBlock _) fun _ t ht => ?_
  rw [← (restores_inBlock _).depth ht] at hs ⊢
  replace haside := haside.run (steps_condBr v y e) ht
  exact within_before (hyes hs haside.1) fun _ => quiet_end e e

theorem elseArm_within {no : Tree} {b : Nat} (harm : ArmWithin no) (hno : StatementWithin no)
    (hs : s.depth ≤ maxDepth) (hopen : OpenAt b s) :
    Within
      (if no.kind = .block then no.beneath false (s.depth + 1)
        else (s.depth + 1, no.site) :: no.beneath false (s.depth + 2))
      (elseArm no b s) := by
  unfold elseArm
  by_cases hblock : no.kind = .block
  · rw [if_pos hblock, if_pos hblock, Tree.beneath_block _ _ hblock]
    exact harm hs hopen
  · rw [if_neg hblock, if_neg hblock]
    by_cases hchain : no.kind = .statement ∧ no.name = "if"
    · rw [if_pos hchain]
      refine within_after (quiet_setBlock b) fun _ t ht => ?_
      rw [← (restores_setBlock b).depth ht] at hs ⊢
      obtain ⟨hopen, hcursor⟩ := setBlock_openAt ht hopen
      exact hno hs (unended_iff.mpr ⟨b, hcursor, hopen⟩)
    · rw [if_neg hchain]
      exact within_throw nofun

theorem ifElse_within {test yes no : Tree} (hyes : ArmWithin yes) (harm : ArmWithin no)
    (hno : StatementWithin no) (hs : s.depth ≤ maxDepth) (hopen : Unended s) :
    Within
      (test.expressionLevels (s.depth + 1) ++
        Tree.rowLevels false (s.depth + 1) yes.children ++
        if no.kind = .block then no.beneath false (s.depth + 1)
        else (s.depth + 1, no.site) :: no.beneath false (s.depth + 2))
      (conditional test (fun b => block b yes) (some (elseArm no)) s) := by
  rw [conditional_some, List.append_assoc]
  refine within_bind (condition_within test hs) fun v t ht => ?_
  rw [← (restores_condition test).depth ht] at hs ⊢
  replace hopen := Emissions.unended ((emitting_condition test).run ht) hopen
  refine within_after (quiet_newBlock _) fun y t hy => ?_
  rw [← (restores_newBlock _).depth hy] at hs ⊢
  have hfirst := newBlock_aside hopen hy
  replace hopen := newBlock_unended hy hopen
  refine within_after (quiet_newBlock _) fun e t he => ?_
  rw [← (restores_newBlock _).depth he] at hs ⊢
  replace hfirst := hfirst.run (steps_newBlock _) he
  replace hopen := newBlock_unended he hopen
  refine within_after (quiet_newBlock _) fun z t hz => ?_
  rw [← (restores_newBlock _).depth hz] at hs ⊢
  -- The second arm keeps its block to itself until its turn comes.
  have hsecond := newBlock_aside hopen hz
  have hyz : y ≠ z := Nat.ne_of_lt (newBlock_grown hz hfirst.1.grown).1
  replace hfirst := hfirst.run (steps_newBlock _) hz
  refine within_after (quiet_inBlock _) fun _ t ht => ?_
  rw [← (restores_inBlock _).depth ht] at hs ⊢
  replace hfirst := hfirst.run (steps_condBr v y z) ht
  replace hsecond := hsecond.run (steps_condBr v y z) ht
  refine within_bind (hyes hs hfirst.1) fun _ u hu => ?_
  rw [← (restores_block y yes).depth hu] at hs ⊢
  replace hsecond : Aside z u := block_openAt hyz hsecond.1 hu
  refine within_after (quiet_fallThrough e) fun _ w hw => ?_
  rw [← (restores_fallThrough e).depth hw] at hs ⊢
  replace hsecond := hsecond.run (steps_fallThrough e) hw
  exact within_before (elseArm_within harm hno hs hsecond.1) fun _ => quiet_end e e

theorem inLoop_within {l : LoopTargets} {x : Lower Unit}
    (h : Within ns (x { s with loops := l :: s.loops })) : Within ns (inLoop l x s) :=
  within_ensuring h

theorem loop_within {test body : Tree} (hbody : ArmWithin body) (hs : s.depth ≤ maxDepth)
    (hopen : Unended s) :
    Within (test.expressionLevels (s.depth + 1) ++
        Tree.rowLevels false (s.depth + 1) body.children)
      (loop test (fun b => block b body) s) := by
  unfold loop
  refine within_after (quiet_newBlock _) fun c t hc => ?_
  rw [← (restores_newBlock _).depth hc] at hs ⊢
  replace hopen := newBlock_unended hc hopen
  refine within_after (quiet_newBlock _) fun b t hb => ?_
  rw [← (restores_newBlock _).depth hb] at hs ⊢
  have haside := newBlock_aside hopen hb
  have hcb : c ≠ b := Nat.ne_of_lt (newBlock_grown hb (newBlock_openAt hc).grown).1
  refine within_after (quiet_newBlock _) fun e t he => ?_
  rw [← (restores_newBlock _).depth he] at hs ⊢
  replace haside := haside.run (steps_newBlock _) he
  refine within_after (quiet_inBlock _) fun _ t ht => ?_
  rw [← (restores_inBlock _).depth ht] at hs ⊢
  replace haside := haside.run (steps_br c) ht
  refine within_after (quiet_setBlock c) fun _ t ht => ?_
  rw [← (restores_setBlock c).depth ht] at hs ⊢
  obtain ⟨hopen, hcursor⟩ := setBlock_openAt ht haside.1
  replace haside : Aside b t := ⟨hopen, by simpa [hcursor] using hcb⟩
  refine within_bind (condition_within test hs) fun v t ht => ?_
  rw [← (restores_condition test).depth ht] at hs ⊢
  replace haside := haside.run (steps_of_emitting (emitting_condition test) _) ht
  refine within_after (quiet_inBlock _) fun _ w hw => ?_
  rw [← (restores_inBlock _).depth hw] at hs ⊢
  obtain ⟨id, f, k, hin, hk, ho⟩ := (haside.run (steps_condBr v b e) hw).1
  refine within_before (inLoop_within ?_) fun _ => quiet_end c e
  exact hbody (s := { w with loops := ⟨c, e⟩ :: w.loops }) hs
    ⟨id, f, k, ⟨hin.function, hin.found⟩, hk, ho⟩

/-! ### Rows -/

theorem statements_within (ih : ∀ t ∈ ts, StatementWithin t) (hs : s.depth ≤ maxDepth)
    (hopen : Unended s) :
    Within (Tree.rowLevels false (s.depth + 1) ts) (statements ts s) := by
  induction ts generalizing s with
  | nil =>
    rw [statements, Tree.rowLevels]
    exact (quiet_pure ()).within s
  | cons c ts ihs =>
    have hterminated : terminated s = .ok false s := by
      obtain ⟨id, f, b, k, hat, ho⟩ := hopen
      exact terminated_ok.mpr ⟨id, f, b, k, hat, by simp [Block.terminated, ho], rfl⟩
    rw [statements, bind_of_ok hterminated]
    have hc := ih c List.mem_cons_self hs hopen
    cases hends : c.ends with
    | true =>
      -- What follows is skipped.
      rw [Tree.rowLevels_ended hends, ← List.append_nil (_ :: _)]
      refine within_bind hc fun _ u hu => ?_
      obtain ⟨id, f, b, k, hat, hended⟩ := statement_leaves hopen hu
      have hterminated : terminated u = .ok true u :=
        terminated_ok.mpr ⟨id, f, b, k, hat, (hended.trans hends).symm, rfl⟩
      obtain ⟨log, hlog⟩ := statements_ended hterminated ts
      exact within_of_ok hlog
    | false =>
      rw [Tree.rowLevels_open hends]
      refine within_bind hc fun _ u hu => ?_
      obtain ⟨id, f, b, k, hat, hended⟩ := statement_leaves hopen hu
      have hopen : k.terminator = none := by simpa [Block.terminated, hends] using hended
      rw [← (restores_statement c).depth hu] at hs ⊢
      exact ihs (fun t ht => ih t (List.mem_cons_of_mem c ht)) hs ⟨id, f, b, k, hat, hopen⟩

theorem arm_within {c : Tree} (ih : ∀ t ∈ c.children, StatementWithin t) : ArmWithin c := by
  intro s b hs hopen
  cases c with
  | node site ts =>
    rw [block]
    by_cases hkind : site.kind = .block
    · rw [if_pos hkind]
      refine within_after (quiet_setBlock b) fun _ t ht => ?_
      rw [← (restores_setBlock b).depth ht] at hs ⊢
      obtain ⟨hopen, hcursor⟩ := setBlock_openAt ht hopen
      exact statements_within ih hs (unended_iff.mpr ⟨b, hcursor, hopen⟩)
    · rw [if_neg hkind]
      exact within_throw fun k hk => by cases hk

/-- Statements in an open block, and arms that start in one, keep to their levels. -/
theorem tree_within (c : Tree) : StatementWithin c ∧ ArmWithin c := by
  induction c using Tree.induct with
  | node site ts ih =>
    have hrow : ∀ t ∈ ts, StatementWithin t := fun t ht => (ih t ht).1
    refine ⟨fun {s} hs hopen => ?_, arm_within (c := .node site ts) hrow⟩
    obtain ⟨act, hform, hact⟩ := statement_form site ts
    rw [hact]
    refine within_nested hs fun hlimit => ?_
    have hdepth : (deeper s).depth ≤ maxDepth := hlimit
    have hdeeper : Unended (deeper s) := Emission.unended (.depth _) hopen
    cases hform with
    | declare kind => exact variableDeclaration_within kind hdepth
    | assign kind => exact assignment_within kind hdepth
    | returns kind => exact returnStatement_within kind hdepth
    | loop kind test body =>
      refine require_within fun hbody => ?_
      rw [Tree.beneath_loop _ _ kind, Tree.beneath_block _ _ hbody]
      exact loop_within (ih body (by simp)).2 hdepth hdeeper
    | ifThen kind name test yes =>
      refine require_within fun hyes => ?_
      rw [Tree.beneath_ifThen _ _ kind name, Tree.beneath_block _ _ hyes]
      exact ifThen_within (ih yes (by simp)).2 hdepth hdeeper
    | ifElse kind name test yes no =>
      obtain ⟨hno, harm⟩ := ih no (by simp)
      refine require_within fun hyes => ?_
      rw [Tree.beneath_ifElse _ _ kind name, Tree.beneath_block _ _ hyes]
      exact ifElse_within (ih yes (by simp)).2 harm hno hdepth hdeeper
    | leave kind => exact jump_within kind (c := .breakOutsideLoop) nofun _
    | again kind => exact jump_within kind (c := .continueOutsideLoop) nofun _
    | call kind =>
      rw [Tree.beneath_call _ _ kind]
      refine within_before ?_ fun _ => quiet_pure ()
      exact functionCall_within (fun t _ => expression_within t) hdepth
    | block kind =>
      rw [Tree.beneath_block _ _ (t := .node site ts) kind]
      exact statements_within hrow hdepth hdeeper
    | refused _ _ _ shallow => exact within_throw shallow

end Statements

/-! ### Programs -/

theorem enter_found {id b : Nat} (h : enter id s = .ok b t) :
    ∃ f, s.module.function? id = some f := by
  obtain ⟨_, s₁, hs₁, h⟩ := bind_ok.mp h
  cases hs₁
  obtain ⟨_, s₂, hs₂, -⟩ := bind_ok.mp h
  obtain ⟨id', f, -, hin, -⟩ := inFunction_ok.mp hs₂
  obtain rfl : id = id' := Option.some.inj hin.function
  exact ⟨f, hin.found⟩

theorem body_within {id : Nat} (c : Tree) :
    Within (Tree.rowLevels false 1 c.children) (body site id c s) := by
  cases hf : s.module.function? id with
  | none =>
    refine within_after (quiet_of_ok fun _ => ⟨_, _, rfl⟩) fun _ t ht => ?_
    cases ht
    refine within_after (quiet_enter id) fun b u hu => ?_
    obtain ⟨f, hf'⟩ := enter_found hu
    cases hf.symm.trans hf'
  | some f =>
    rw [body_eq hf]
    have hopen : OpenAt f.bodies.length (opened site s id f) := by
      have hb := f.bodies_addBlock "entry" f.bodies.length
      rw [if_pos rfl] at hb
      exact ⟨id, _, _, opened_in hf, hb, rfl⟩
    have harm := (tree_within c).2 (Nat.zero_le _) hopen
    refine within_before (within_before harm fun _ => ?_) fun _ => quiet_of_ok fun _ => ⟨_, _, rfl⟩
    refine quiet_bind (quiet_inBlock _) fun ended => ?_
    cases ended with
    | true => exact quiet_pure ()
    | false => exact quiet_bind (quiet_of_ok fun _ => ⟨_, _, rfl⟩) fun _ => quiet_inBlock _

theorem bodyOf_within {c : Tree} {id : Nat} :
    Within (Tree.rowLevels false 1 c.statements) (bodyOf c.site c.children id s) := by
  cases c with
  | node site ts =>
    rcases ts with _ | ⟨result, _ | ⟨params, _ | ⟨body, _ | ⟨_, _⟩⟩⟩⟩
    · exact within_throw nofun
    · exact within_throw nofun
    · exact within_throw nofun
    · exact body_within body
    · exact within_throw nofun

theorem item_within (c : Tree) (registered : Option Nat) :
    Within (c.itemLevels false) (item c registered s) := by
  unfold Tree.itemLevels
  rcases item_form c registered with ⟨hkind, hitem⟩ | ⟨hkind, hitem⟩ | hitem
  · rw [hitem, if_neg (by simp [hkind])]
    exact (quiet_directive c.site c.children).within s
  · rw [hitem, if_pos hkind]
    cases registered with
    | some id =>
      rw [function_some]
      exact bodyOf_within
    | none =>
      rw [function_none]
      exact within_after (quiet_declareFunction _ _) fun id t _ => bodyOf_within
  · rw [hitem]
    exact within_throw nofun

theorem items_within (is : List (Tree × Option Nat)) (s : LowerState) :
    Within ((is.map Prod.fst).flatMap (Tree.itemLevels false)) (items is s) := by
  induction is generalizing s with
  | nil =>
    rw [items]
    exact (quiet_pure ()).within s
  | cons i is ih =>
    rw [items, List.map_cons, List.flatMap_cons]
    exact within_bind (item_within i.1 i.2) fun _ t _ => ih t

theorem quiet_conclude : Quiet conclude := quiet_get fun _ => quiet_of_ok fun _ => ⟨_, _, rfl⟩

theorem program_within (singlePass : Bool) (t : Tree) :
    Within (t.levels false) (program singlePass t .initial) := by
  cases t with
  | node site ts =>
    by_cases hkind : site.kind = .program
    · have hrest : ∀ ids u, ids.length = ts.length → Within ((Tree.node site ts).levels false)
          ((items (ts.zip ids) >>= fun _ => conclude) u) := by
        intro ids u hlength
        have hitems := items_within (ts.zip ids) u
        rw [List.map_fst_zip (Nat.le_of_eq hlength.symm)] at hitems
        exact within_before hitems fun _ => quiet_conclude
      rw [program_eq hkind]
      cases singlePass with
      | true => exact hrest _ _ (List.length_map _)
      | false =>
        refine within_after (quiet_declareAll 0 ts) fun ids u hu => ?_
        exact hrest ids u (declareAll_waiting hu).1
    · rw [program_other hkind]
      exact within_throw fun k hk => by cases hk

end Lower

namespace Tree

theorem lower_within (singlePass : Bool) (t : Tree) :
    (∀ m, (t.lower singlePass).result = .ok m → ∀ n ∈ t.levels false, n.1 ≤ maxDepth) ∧
      ∀ e, (t.lower singlePass).result = .error e →
        Lower.Shallow e ∨
          ∃ n ∈ t.levels false, n.1 = maxDepth + 1 ∧ e = n.2.fault (.tooDeep n.2.kind) := by
  have hwithin := Lower.program_within singlePass t
  unfold lower
  cases hrun : Lower.program singlePass t .initial with
  | ok m s => exact ⟨fun _ _ => hwithin.fits hrun, fun e he => by cases he⟩
  | error e s =>
    refine ⟨fun m hm => ?_, fun e' he => ?_⟩
    · cases hm
    · cases he
      exact hwithin.names hrun

/-- The limit is exact. Whatever a successful run lowers is within it, a run of a
program within it does not fail for its sake, and one that does names a node on the
level right behind it. -/
theorem lower_levels (singlePass : Bool) (t : Tree) :
    (∀ m, (t.lower singlePass).result = .ok m → ∀ n ∈ t.levels false, n.1 ≤ 128) ∧
    (∀ e, (t.lower singlePass).result = .error e → (∀ n ∈ t.levels true, n.1 ≤ 128) →
      ∀ k, e.cause ≠ .tooDeep k) ∧
    ∀ e k, (t.lower singlePass).result = .error e → e.cause = .tooDeep k →
      ∃ n ∈ t.levels false, n.1 = 129 ∧ n.2.kind = k ∧ e = n.2.fault (.tooDeep k) := by
  obtain ⟨hfits, hnames⟩ := lower_within singlePass t
  refine ⟨hfits, fun e he hlevels => ?_, fun e k he hk => ?_⟩
  · rcases hnames e he with hshallow | ⟨n, hn, hlevel, -⟩
    · exact hshallow
    · have hle : n.1 ≤ maxDepth := hlevels n (levels_subset t hn)
      omega
  · rcases hnames e he with hshallow | ⟨n, hn, hlevel, rfl⟩
    · exact absurd hk (hshallow k)
    · cases hk
      exact ⟨n, hn, hlevel, rfl, rfl⟩

def burrow (ts : List Tree) : Nat → Tree
  | 0 => bare .block "" ts
  | n + 1 => bare .block "" [burrow ts n]

def dug (ts : List Tree) (n : Nat) : Tree :=
  bare .program "" [bare .functionDeclaration "f"
    [bare .identifier "void" [], bare .parameters "" [], burrow ts n]]

/-- On the last level a return ends the function, with more levels in the dead code
behind it, and a `break` fails because there is no loop. On the level behind that
not even the return is lowered. -/
theorem dug_levels :
    (∃ m, ((dug [bare .returnStatement "" [], burrow [] 5] 127).lower false).result = .ok m ∧
      ∀ n ∈ (dug [bare .returnStatement "" [], burrow [] 5] 127).levels false, n.1 ≤ 128) ∧
    (∃ e, ((dug [bare .statement "break" []] 127).lower true).result = .error e ∧
      ∀ k, e.cause ≠ .tooDeep k) ∧
    ∃ e, ((dug [bare .returnStatement "" []] 128).lower false).result = .error e ∧
      ∃ n ∈ (dug [bare .returnStatement "" []] 128).levels false,
        n.1 = 129 ∧ n.2.kind = .returnStatement ∧ e = n.2.fault (.tooDeep .returnStatement) := by
  obtain ⟨m, hm⟩ : ∃ m,
      ((dug [bare .returnStatement "" [], burrow [] 5] 127).lower false).result = .ok m :=
    Lower.except_of_isOk (by decide +kernel)
  have houtside : ((dug [bare .statement "break" []] 127).lower true).result =
      .error ((bare .statement "break" []).site.fault .breakOutsideLoop) := by decide +kernel
  have hdeep : ((dug [bare .returnStatement "" []] 128).lower false).result =
      .error ((bare .returnStatement "" []).site.fault (.tooDeep .returnStatement)) := by
    decide +kernel
  exact ⟨⟨m, hm, (lower_levels false _).1 m hm⟩,
    ⟨_, houtside, (lower_levels true _).2.1 _ houtside (by decide +kernel)⟩,
    ⟨_, hdeep, (lower_levels false _).2.2 _ _ hdeep rfl⟩⟩

end Tree

end TreeFlow
