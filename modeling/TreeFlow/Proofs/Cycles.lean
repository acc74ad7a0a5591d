import Mathlib.Data.List.Chain
import TreeFlow.Proofs.Joins

/-!
# Cycles of control flow

Control comes back to a block only through the test of a loop. From every block,
all ways on come to a test of a loop or to an end: a conditional leads on to its
arms and to the block behind it, and a body of a loop that does not come to its
test again leaves it. So the edges that do not enter a test are well-founded, and
each cycle enters one.
-/

set_option autoImplicit false

namespace TreeFlow

namespace Function

variable {g : Function} {T : Nat → Prop} {x : Nat}

/-- Each block of the list leads to the next one, and the last to the first. -/
def Cycle (g : Function) (c : List Nat) : Prop :=
  ∃ h : c ≠ [], c.IsChain (fun x y => y ∈ g.successors x) ∧ c.head h ∈ g.successors (c.getLast h)

/-- All ways on from a block come to the set or to an end. -/
def Settles (g : Function) (T : Nat → Prop) (x : Nat) : Prop :=
  Acc (fun y x => y ∈ g.successors x ∧ ¬ T y) x

theorem settles_of (h : ∀ y ∈ g.successors x, T y ∨ g.Settles T y) : g.Settles T x :=
  Acc.intro x fun y hy => (h y hy.1).resolve_left hy.2

theorem settles_nil (h : g.successors x = []) : g.Settles T x :=
  settles_of fun y hy => by
    rw [h] at hy
    cases hy

theorem settles_one {y : Nat} (h : g.successors x = [y]) (hy : T y ∨ g.Settles T y) :
    g.Settles T x :=
  settles_of (by simpa [h] using hy)

theorem settles_two {y z : Nat} (h : g.successors x = [y, z]) (hy : g.Settles T y)
    (hz : g.Settles T z) : g.Settles T x :=
  settles_of (by simpa [h] using ⟨.inr hy, .inr hz⟩)

theorem Cycle.meets {c : List Nat} (hc : g.Cycle c) (h : ∀ x, g.Settles T x) : ∃ x ∈ c, T x := by
  obtain ⟨hne, hchain, hback⟩ := hc
  by_contra hout
  have hout : ∀ x ∈ c, ¬ T x := fun x hx hT => hout ⟨x, hx, hT⟩
  -- The cycle, taken backwards, would descend forever.
  have hdown : c.reverse.IsChain fun y x => y ∈ g.successors x ∧ ¬ T y :=
    List.isChain_reverse.mpr (hchain.imp_of_mem_imp fun x y _ hy hxy => ⟨hxy, hout y hy⟩)
  have hwf : WellFounded fun y x => y ∈ g.successors x ∧ ¬ T y := ⟨h⟩
  have hnot := hwf.asymmetricₙ (List.reverse_ne_nil_iff.mpr hne) hdown
  rw [List.getLast_reverse, List.head_reverse] at hnot
  exact hnot ⟨hback, hout _ (List.head_mem hne)⟩

end Function

/-! ## Layouts -/

theorem Mark.fills_quiet {μ μ' : Mark} {x : Nat} (h : μ'.cursor = μ.cursor) (hx : μ.Fills μ' x) :
    x ∈ μ'.cursor.open? := by
  obtain ⟨hended, hx⟩ := hx
  have hblocks : μ'.blocks = μ.blocks := congrArg Cursor.blocks h
  rw [h, Mark.mem_open]
  exact ⟨hended, by omega⟩

theorem Mark.fills_stop {μ μ' : Mark} {x : Nat} (h : μ'.cursor = μ.cursor.stop)
    (hx : μ.Fills μ' x) : x = μ.block := by
  obtain ⟨-, hx⟩ := hx
  have hblocks : μ'.blocks = μ.blocks := congrArg Cursor.blocks h
  omega

theorem Function.Falls.settles {g : Function} {T : Nat → Prop} {μ : Mark} {x y : Nat}
    (h : g.Falls μ y) (hy : T y ∨ g.Settles T y) (hx : x ∈ μ.cursor.open?) : g.Settles T x := by
  obtain ⟨hended, rfl⟩ := Mark.mem_open.mp hx
  exact Function.settles_one (h hended).successors hy

/-- In a piece whose loops have their tests in the set, control comes to the set,
to an end, or out of the piece. -/
theorem Lays.settles {m : Module} {g : Function} {p : Piece} {ls : List LoopTargets} {μ μ' : Mark}
    {T : Nat → Prop} (h : Lays m g p ls μ μ')
    (hT : ∀ v ∈ p.visits μ.cursor, v.1.kind = .whileStatement → T v.2.blocks)
    (hls : ∀ l ∈ ls, T l.onContinue ∧ g.Settles T l.onBreak)
    (hopen : ∀ x ∈ μ'.cursor.open?, g.Settles T x) :
    ∀ x, μ.Fills μ' x → g.Settles T x := by
  induction h with
  | declare | initialise | call => exact fun x hx => hopen x (Mark.fills_quiet rfl hx)
  | assign _ _ _ target => exact fun x hx => hopen x (Mark.fills_quiet target.cursor hx)
  | returnNone _ ends | returnValue _ _ _ ends =>
    intro x hx
    obtain rfl := Mark.fills_stop rfl hx
    exact Function.settles_nil ends.successors
  | leave _ _ ends =>
    intro x hx
    obtain rfl := Mark.fills_stop rfl hx
    exact Function.settles_one ends.successors (.inr (hls _ (by simp)).2)
  | again _ _ ends =>
    intro x hx
    obtain rfl := Mark.fills_stop rfl hx
    exact Function.settles_one ends.successors (.inl (hls _ (by simp)).1)
  | @loop site test body ls μ μ₁ c v r kind block enters _ _ branches inside back ih =>
    rw [Piece.visits_loop _ kind block, List.forall_mem_cons] at hT
    have htest : T μ.blocks := hT.1 kind
    have hstop : g.Settles T (μ.blocks + 2) := hopen _ (Mark.mem_open.mpr ⟨rfl, rfl⟩)
    have hbody := ih hT.2 (List.forall_mem_cons.mpr ⟨⟨htest, hstop⟩, hls⟩) fun x hx =>
      back.settles (.inl htest) hx
    rintro x ⟨-, rfl | ⟨hlo, hhi⟩⟩
    · exact Function.settles_one enters.successors (.inl htest)
    · replace hhi : x < μ₁.blocks := hhi
      obtain rfl | rfl | hx : x = μ.blocks ∨ x = μ.blocks + 2 ∨
          (x = μ.blocks + 1 ∨ μ.blocks + 3 ≤ x ∧ x < μ₁.blocks) := by omega
      · exact Function.settles_two branches.successors (hbody _ ⟨rfl, .inl rfl⟩) hstop
      · exact hstop
      · exact hbody x ⟨rfl, hx⟩
  | @ifThen site test yes ls μ μ₁ c v r kind _ block _ _ branches inside joins ih =>
    rw [Piece.visits_ifThen _ kind block, List.forall_mem_cons] at hT
    have hstop : g.Settles T (μ.blocks + 1) := hopen _ (Mark.mem_open.mpr ⟨rfl, rfl⟩)
    have hyes := ih hT.2 hls fun x hx => joins.settles (.inr hstop) hx
    rintro x ⟨-, rfl | ⟨hlo, hhi⟩⟩
    · exact Function.settles_two branches.successors (hyes _ ⟨rfl, .inl rfl⟩) hstop
    · replace hhi : x < μ₁.blocks := hhi
      obtain rfl | hx : x = μ.blocks + 1 ∨
          (x = μ.blocks ∨ μ.blocks + 2 ≤ x ∧ x < μ₁.blocks) := by omega
      · exact hstop
      · exact hyes x ⟨rfl, hx⟩
  | @ifElse site test yes no ls μ μ₁ μ₂ c v r kind _ block _ _ _ branches inside joins otherwise
      joins' ih₁ ih₂ =>
    rw [Piece.visits_ifElse μ.cursor kind block inside.drafted, List.forall_mem_cons,
      List.forall_mem_append] at hT
    obtain ⟨-, hT₁, hT₂⟩ := hT
    have hstop : g.Settles T (μ.blocks + 1) := hopen _ (Mark.mem_open.mpr ⟨rfl, rfl⟩)
    have hyes := ih₁ hT₁ hls fun x hx => joins.settles (.inr hstop) hx
    have hno := ih₂ hT₂ hls fun x hx => joins'.settles (.inr hstop) hx
    rintro x ⟨-, rfl | ⟨hlo, hhi⟩⟩
    · exact Function.settles_two branches.successors (hyes _ ⟨rfl, .inl rfl⟩)
        (hno _ ⟨rfl, .inl rfl⟩)
    · replace hhi : x < μ₂.blocks := hhi
      obtain rfl | hx | hx : x = μ.blocks + 1 ∨
          (x = μ.blocks ∨ μ.blocks + 3 ≤ x ∧ x < μ₁.blocks) ∨
            (x = μ.blocks + 2 ∨ μ₁.blocks ≤ x ∧ x < μ₂.blocks) := by omega
      · exact hstop
      · exact hyes x ⟨rfl, hx⟩
      · exact hno x ⟨rfl, hx⟩
  | block kind _ ih =>
    rw [Piece.visits_block _ kind, List.forall_mem_cons] at hT
    exact ih hT.2 hls hopen
  | nil => exact fun x hx => hopen x (Mark.fills_quiet rfl hx)
  | skip => exact fun x hx => hopen x (Mark.fills_quiet rfl hx)
  | @cons t ts ls μ μ₁ μ₂ unended first rest ih₁ ih₂ =>
    rw [Piece.visits_cons _ unended, first.drafted, List.forall_mem_append] at hT
    have hle := first.blocks_le
    -- What stands behind settles first, as the first statement leads there.
    have hrest := ih₂ hT.2 hls hopen
    have hfirst := ih₁ hT.1 hls fun x hx => by
      obtain ⟨hended, rfl⟩ := Mark.mem_open.mp hx
      exact hrest _ ⟨hended, .inl rfl⟩
    rintro x ⟨-, hx⟩
    cases hended : μ₁.ended with
    | true =>
      obtain rfl := rest.stopped hended
      exact hfirst x ⟨unended, hx⟩
    | false =>
      obtain hx | hx : (x = μ.block ∨ μ.blocks ≤ x ∧ x < μ₁.blocks) ∨
          μ₁.blocks ≤ x ∧ x < μ₂.blocks := by omega
      · exact hfirst x ⟨unended, hx⟩
      · exact hrest x ⟨hended, .inr hx⟩

theorem Lays.visits_subtrees {m : Module} {g : Function} {p : Piece} {ls : List LoopTargets}
    {μ μ' : Mark} (h : Lays m g p ls μ μ') : ∀ v ∈ p.visits μ.cursor, v.1 ∈ p.subtrees := by
  induction h with
  | declare kind | initialise kind | assign kind | returnNone kind | returnValue kind | call kind =>
    rw [Piece.visits_leaf _ (by simp [kind])]
    exact List.forall_mem_singleton.mpr (Tree.mem_subtrees_self _)
  | leave kind | again kind =>
    rw [Piece.visits_jump _ kind]
    exact List.forall_mem_singleton.mpr (Tree.mem_subtrees_self _)
  | @loop _ _ body _ _ _ _ _ _ kind block _ _ _ _ _ _ ih =>
    rw [Piece.visits_loop _ kind block]
    exact List.forall_mem_cons.mpr ⟨Tree.mem_subtrees_self _, fun v hv =>
      Piece.subtrees_one (by simp) (fun _ h => h) (body.subtreesAll_children (ih v hv))⟩
  | @ifThen _ _ yes _ _ _ _ _ _ kind _ block _ _ _ _ _ ih =>
    rw [Piece.visits_ifThen _ kind block]
    exact List.forall_mem_cons.mpr ⟨Tree.mem_subtrees_self _, fun v hv =>
      Piece.subtrees_one (by simp) (fun _ h => h) (yes.subtreesAll_children (ih v hv))⟩
  | @ifElse site test yes no ls μ μ₁ μ₂ c v r kind _ block _ _ _ _ inside _ _ _ ih₁ ih₂ =>
    rw [Piece.visits_ifElse μ.cursor kind block inside.drafted, List.forall_mem_cons,
      List.forall_mem_append]
    exact ⟨Tree.mem_subtrees_self _, fun v hv =>
      Piece.subtrees_one (by simp) (fun _ h => h) (yes.subtreesAll_children (ih₁ v hv)),
      fun v hv => Piece.subtrees_one (by simp) (fun _ h => h) (no.subtrees_arm (ih₂ v hv))⟩
  | block kind _ ih =>
    rw [Piece.visits_block _ kind]
    exact List.forall_mem_cons.mpr ⟨Tree.mem_subtrees_self _, fun v hv =>
      List.mem_cons_of_mem _ (ih v hv)⟩
  | nil => nofun
  | skip ended =>
    rw [Piece.visits_ended _ ended]
    nofun
  | cons unended first _ ih₁ ih₂ =>
    rw [Piece.visits_cons _ unended, first.drafted]
    exact List.forall_mem_append.mpr ⟨fun v hv => List.mem_append_left _ (ih₁ v hv),
      fun v hv => List.mem_append_right _ (ih₂ v hv)⟩

/-! ## Whole functions -/

namespace Module.Compiles

variable {m : Module} {constants : List (String × Int)} {f : Tree} {id : Nat} {g : Function}

theorem settles (h : m.Compiles constants f id g) (x : Nat) :
    g.Settles (fun y => ∃ v ∈ f.visits, v.1.kind = .whileStatement ∧ v.2.blocks = y) x := by
  obtain ⟨μ, hlays, -, hrest⟩ := h.laid
  by_cases hx : (Mark.entry constants g.toSignature).Fills μ x
  · refine hlays.settles (fun v hv hkind => ⟨v, hv, hkind, rfl⟩) nofun (fun y hy => ?_) x hx
    exact Function.settles_nil (hrest y fun hclosed => hclosed.2 hy)
  · exact Function.settles_nil (hrest x fun hclosed => hx hclosed.1)

theorem visits_subtrees (h : m.Compiles constants f id g) : ∀ v ∈ f.visits, v.1 ∈ f.subtrees := by
  obtain ⟨_, _, body, hchildren, -⟩ := h.body
  obtain ⟨μ, hlays, -⟩ := h.laid
  intro v hv
  have hmem : v.1 ∈ (Piece.many f.statements).subtrees := hlays.visits_subtrees v hv
  rw [show f.statements = body.children by simp only [Tree.statements, hchildren]] at hmem
  exact Tree.subtrees_child (by simp [hchildren]) (body.subtreesAll_children hmem)

end Module.Compiles

/-- Each cycle of a lowered function passes the test of a `while` statement of its
declaration. A declaration without such a statement has no cycle, and neither has
a function that was not declared. -/
theorem Tree.lower_cycles {singlePass : Bool} {t : Tree} {m : Module} {id : Nat} {g : Function}
    (h : (t.lower singlePass).result = .ok m) (hg : m.function? id = some g) :
    ((∃ d ∈ t.declarations, m.find? d.2.name = some id) ∨ ∀ c, ¬ g.Cycle c) ∧
      ∀ d ∈ t.declarations, m.find? d.2.name = some id →
        (∀ c, g.Cycle c → ∃ v ∈ d.2.visits, v.1.kind = .whileStatement ∧
          v.1.LoweredAt v.2 id g ∧ g.Labelled v.2.blocks "while.cond" ∧ v.2.blocks ∈ c) ∧
        ((∀ u ∈ d.2.subtrees, u.kind ≠ .whileStatement) → ∀ c, ¬ g.Cycle c) := by
  refine ⟨?_, fun d hd hfind => ?_⟩
  · rcases Tree.lower_compiles h hg with ⟨constants, f, hf, hcomp⟩ | rfl
    · exact .inl ⟨(constants, f), hf, Tree.lower_find h hcomp⟩
    · exact .inr fun c hc => List.not_mem_nil hc.2.2
  · obtain ⟨-, ids, has, -⟩ := Tree.lower_assembles h
    obtain ⟨id', g', hcomp⟩ := has.declared hd
    obtain rfl : id' = id := Option.some.inj ((Tree.lower_find h hcomp).symm.trans hfind)
    obtain rfl : g' = g := Option.some.inj (hcomp.function.symm.trans hg)
    have hlowered := (Tree.lower_ran h (Tree.mem_of_declarationsFrom hd) hcomp).lowered
    refine ⟨fun c hc => ?_, fun hnone c hc => ?_⟩
    · obtain ⟨x, hx, v, hv, hkind, rfl⟩ := hc.meets hcomp.settles
      exact ⟨v, hv, hkind, hlowered v hv, (hlowered v hv).test hkind, hx⟩
    · obtain ⟨x, -, v, hv, hkind, -⟩ := hc.meets hcomp.settles
      exact hnone v.1 (hcomp.visits_subtrees v hv) hkind

theorem Tree.nestedLoops_cycle :
    ∃ m g, ((bare .program "" [nestedLoops]).lower false).result = .ok m ∧
      m.function? 0 = some g ∧ m.find? "f" = some 0 ∧ g.Cycle [8, 4, 5] ∧
        ∃ v ∈ nestedLoops.visits, v.1.kind = .whileStatement ∧ v.2.blocks ∈ [8, 4, 5] ∧
          g.Labelled v.2.blocks "while.cond" := by
  have hrun : (((bare .program "" [nestedLoops]).lower false).result.toOption.bind fun m =>
      (m.function? 0).map fun g =>
        (m.find? "f", g.successors 8, g.successors 4, g.successors 5)) =
          some (some 0, [4], [5, 6], [7, 8]) := by decide +kernel
  obtain ⟨m, hm, hrun⟩ := Option.bind_eq_some_iff.mp hrun
  obtain ⟨g, hg, hedges⟩ := Option.map_eq_some_iff.mp hrun
  simp only [Prod.mk.injEq] at hedges
  obtain ⟨hfind, h8, h4, h5⟩ := hedges
  have hok : ((bare .program "" [nestedLoops]).lower false).result = .ok m := by
    cases hresult : ((bare .program "" [nestedLoops]).lower false).result with
    | error e => simp [hresult, Except.toOption] at hm
    | ok m' => simpa [hresult, Except.toOption] using hm
  have hcycle : g.Cycle [8, 4, 5] := ⟨by simp, by simp [h8, h4], by simp [h5]⟩
  obtain ⟨v, hv, hkind, -, hlabel, hmem⟩ :=
    ((Tree.lower_cycles hok hg).2 ([], nestedLoops) (List.mem_singleton_self _) hfind).1 _ hcycle
  exact ⟨m, g, hok, hg, hfind, hcycle, v, hv, hkind, hmem, hlabel⟩

end TreeFlow
