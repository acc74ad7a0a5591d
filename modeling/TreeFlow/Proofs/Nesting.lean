import TreeFlow.Proofs.DeadCode
import TreeFlow.Proofs.Step

/-!
# Nested blocks and chained conditionals

A block among the statements of a block stands for its statements, and a conditional
in place of the second arm of a conditional stands for a block with just that
statement. Written out in this way, a program that lowers to a module still lowers to
the same module. The converse does not hold, for a nested block takes a level of its
own, and there is a limit to the levels.
-/

set_option autoImplicit false

namespace TreeFlow

variable {ts : List Tree}

namespace Tree

def enclosed (t : Tree) : Tree :=
  if t.kind = .statement ∧ t.name = "if" then .node ⟨.block, "", t.site.location⟩ [t] else t

def encloseArm : List Tree → List Tree
  | [test, yes, no] => [test, yes, no.enclosed]
  | ts => ts

mutual

/-- The tree in which no block is a statement of another one and no conditional is the
second arm of another one. -/
def spread : Tree → Tree
  | .node site ts => .node site (
    if site.kind = .block then spreadRow ts
    else if site.kind = .statement ∧ site.name = "if" then encloseArm (spreadAll ts)
    else spreadAll ts)

def spreadAll : List Tree → List Tree
  | [] => []
  | t :: ts => t.spread :: spreadAll ts

def spreadRow : List Tree → List Tree
  | [] => []
  | t :: ts => (if t.kind = .block then t.spread.children else [t.spread]) ++ spreadRow ts

end

def spreadItem : Tree → Tree
  | .node site [result, params, body] =>
    if site.kind = .functionDeclaration then .node site [result, params, body.spread]
    else .node site [result, params, body]
  | t => t

def spreadBodies : Tree → Tree
  | .node site ts => .node site (ts.map spreadItem)

/-- No block stands among the statements of a block, and no conditional is the second
arm of a conditional. -/
def Flat (t : Tree) : Prop :=
  ∀ u ∈ t.subtrees, (u.kind = .block → ∀ c ∈ u.children, c.kind ≠ .block) ∧
    (u.kind = .statement ∧ u.name = "if" → ∀ test yes no, u.children = [test, yes, no] →
      ¬(no.kind = .statement ∧ no.name = "if"))

theorem Flat.node {site : Site} (hts : ∀ t ∈ ts, t.Flat)
    (hblock : site.kind = .block → ∀ t ∈ ts, t.kind ≠ .block)
    (hif : site.kind = .statement ∧ site.name = "if" → ∀ test yes no, ts = [test, yes, no] →
      ¬(no.kind = .statement ∧ no.name = "if")) : (node site ts).Flat := by
  intro u hu
  rcases mem_subtrees_node.mp hu with rfl | ⟨t, ht, hu⟩
  · exact ⟨hblock, hif⟩
  · exact hts t ht u hu

theorem Flat.child {t c : Tree} (h : t.Flat) (hc : c ∈ t.children) : c.Flat :=
  fun u hu => h u (subtrees_child hc hu)

theorem mem_spreadAll {t : Tree} : t ∈ spreadAll ts ↔ ∃ u ∈ ts, u.spread = t := by
  induction ts with
  | nil => simp [spreadAll]
  | cons u ts ih => simp [spreadAll, ih, eq_comm]

theorem site_spread (t : Tree) : t.spread.site = t.site := by
  cases t
  rfl

theorem mem_spreadRow {t : Tree} (h : t ∈ spreadRow ts) :
    ∃ u ∈ ts, u.kind = .block ∧ t ∈ u.spread.children ∨ u.kind ≠ .block ∧ t = u.spread := by
  induction ts with
  | nil => cases h
  | cons u ts ih =>
    rw [spreadRow] at h
    rcases List.mem_append.mp h with h | h
    · refine ⟨u, by simp, ?_⟩
      by_cases hu : u.kind = .block
      · rw [if_pos hu] at h
        exact .inl ⟨hu, h⟩
      · rw [if_neg hu] at h
        exact .inr ⟨hu, List.mem_singleton.mp h⟩
    · obtain ⟨c, hc, h⟩ := ih h
      exact ⟨c, by simp [hc], h⟩

theorem enclosed_flat {t : Tree} (h : t.Flat) : t.enclosed.Flat := by
  unfold enclosed
  split
  · next hif =>
    refine .node (fun c hc => List.mem_singleton.mp hc ▸ h) (fun _ c hc => ?_) fun hk => ?_
    · rw [List.mem_singleton.mp hc, hif.1]
      decide
    · cases hk.1
  · exact h

theorem enclosed_not_if (t : Tree) : ¬(t.enclosed.kind = .statement ∧ t.enclosed.name = "if") := by
  unfold enclosed
  split
  · intro h
    cases h.1
  · assumption

theorem encloseArm_flat (h : ∀ t ∈ ts, t.Flat) : ∀ t ∈ encloseArm ts, t.Flat := by
  unfold encloseArm
  split
  · next test yes no =>
    simp only [List.mem_cons, List.not_mem_nil, or_false, forall_eq_or_imp, forall_eq] at h ⊢
    exact ⟨h.1, h.2.1, enclosed_flat h.2.2⟩
  · exact h

theorem encloseArm_third {test yes no : Tree} (h : encloseArm ts = [test, yes, no]) :
    ¬(no.kind = .statement ∧ no.name = "if") := by
  unfold encloseArm at h
  split at h
  · cases h
    exact enclosed_not_if _
  · next hthree => exact absurd h (hthree test yes no)

theorem spread_flat (t : Tree) : t.spread.Flat := by
  induction t using Tree.induct with
  | node site ts ih =>
    have hall : ∀ t ∈ spreadAll ts, t.Flat := fun t ht => by
      obtain ⟨u, hu, rfl⟩ := mem_spreadAll.mp ht
      exact ih u hu
    rw [spread]
    by_cases hblock : site.kind = .block
    · rw [if_pos hblock]
      refine .node (fun t ht => ?_) (fun _ t ht => ?_) fun hk => ?_
      · obtain ⟨u, hu, ⟨-, ht⟩ | ⟨-, rfl⟩⟩ := mem_spreadRow ht
        · exact (ih u hu).child ht
        · exact ih u hu
      · obtain ⟨u, hu, ⟨hk, ht⟩ | ⟨hk, rfl⟩⟩ := mem_spreadRow ht
        · refine (ih u hu _ (mem_subtrees_self _)).1 ?_ t ht
          rw [kind, site_spread]
          exact hk
        · rw [kind, site_spread]
          exact hk
      · rw [hk.1] at hblock
        cases hblock
    · rw [if_neg hblock]
      by_cases hif : site.kind = .statement ∧ site.name = "if"
      · rw [if_pos hif]
        exact .node (encloseArm_flat hall) (fun hk => absurd hk hblock)
          fun _ _ _ _ => encloseArm_third
      · rw [if_neg hif]
        exact .node hall (fun hk => absurd hk hblock) fun hk => absurd hk hif

theorem kind_spreadItem (t : Tree) : t.spreadItem.kind = t.kind := by
  unfold spreadItem
  split
  · split
    · rfl
    · rfl
  · rfl

theorem spreadItem_flat {t result params body : Tree} (hkind : t.kind = .functionDeclaration)
    (hchildren : t.spreadItem.children = [result, params, body]) : body.Flat := by
  unfold spreadItem at hchildren
  split at hchildren
  · next site result' params' body' =>
    replace hkind : site.kind = .functionDeclaration := hkind
    rw [if_pos hkind] at hchildren
    cases hchildren
    exact spread_flat body'
  · next hthree =>
    obtain ⟨site, ts⟩ := t
    cases hchildren
    exact absurd rfl (hthree site result params body)

end Tree

namespace Lower

/-! ## Ended blocks -/

section Ended

variable {s t : LowerState}

theorem inFunction_refuses {α : Type} {act : Build α} {e : LowerError}
    (h : inFunction act s = .error e t) : e.cause.kind = .invalidIr := by
  unfold inFunction at h
  split at h
  · cases h
    rfl
  · split at h
    · cases h
      rfl
    · split at h
      · cases h
      · cases h
        rfl

theorem inBlock_refuses {α : Type} {act : Nat → Build α} {e : LowerError}
    (h : inBlock act s = .error e t) : e.cause.kind = .invalidIr := by
  cases hb : s.block with
  | none =>
    have herror : inBlock act s = .error ⟨.builder .noInsertionPoint, none⟩ s := by
      refine bind_of_error ?_
      simp only [currentBlock, get_bind, hb]
      rfl
    rw [herror] at h
    cases h
    rfl
  | some b =>
    rw [inBlock_of hb] at h
    exact inFunction_refuses h

theorem terminated_log {ended : Bool} (h : terminated s = .ok ended s) (log : List Event) :
    terminated { s with log := log } = .ok ended { s with log := log } :=
  terminated_of_same h rfl rfl rfl

theorem Variation.Varies.terminated {V : Variation} {n n' : Nat} {s s' : LowerState}
    (h : V.Varies n n' s s') (ended : Bool) :
    Lower.terminated s' = .ok ended s' ↔ Lower.terminated s = .ok ended s := by
  have hfunctions : s'.module.functions = s.module.functions := by rw [h.module]
  constructor
  · exact fun hs' => terminated_of_same hs' h.function.symm hfunctions.symm h.block.symm
  · exact fun hs => terminated_of_same hs h.function hfunctions h.block

theorem Emission.ended (h : Emission s t) (hs : terminated s = .ok true s) :
    terminated t = .ok true t := by
  obtain ⟨id, f, b, k, hat, hk, -⟩ := terminated_ok.mp hs
  have hclosed : k.terminator ≠ none := by
    intro hnone
    simp [Block.terminated, hnone] at hk
  cases h with
  | note => exact terminated_of_same hs rfl rfl rfl
  | depth => exact terminated_of_same hs rfl rfl rfl
  | format => exact terminated_of_same hs rfl rfl rfl
  | intrinsic =>
    have hfound : (s.module.declare Intrinsic.signature).function? id = some f := by
      obtain ⟨hlt, -⟩ := List.getElem?_eq_some_iff.mp hat.found
      rw [Module.function?_declare, if_neg (Nat.ne_of_lt hlt)]
      exact hat.found
    exact terminated_ok.mpr ⟨id, f, b, k, ⟨⟨hat.function, hfound⟩, hat.cursor, hat.block⟩, hk, rfl⟩
  | define here unended =>
    obtain ⟨rfl, rfl, rfl, rfl⟩ := hat.unique here
    exact absurd unended hclosed
  | perform here unended =>
    obtain ⟨rfl, rfl, rfl, rfl⟩ := hat.unique here
    exact absurd unended hclosed

theorem Emissions.ended (h : Emissions s t) (hs : terminated s = .ok true s) :
    terminated t = .ok true t := by
  induction h with
  | refl => exact hs
  | tail _ hlast ih => exact hlast.ended ih

theorem newBlock_ended {label : String} {b : Nat} (h : newBlock label s = .ok b t)
    (hs : terminated s = .ok true s) : terminated t = .ok true t := by
  obtain ⟨id, f, b', k, hat, hk, -⟩ := terminated_ok.mp hs
  obtain ⟨id', f', hin, -, rfl⟩ := newBlock_ok.mp h
  obtain ⟨rfl, rfl⟩ := hat.toIn.unique hin
  have hblock : (f'.addBlock label).bodies[b']? = some k := by
    obtain ⟨hlt, -⟩ := List.getElem?_eq_some_iff.mp hat.block
    rw [Function.addBlock, List.getElem?_append_left hlt]
    exact hat.block
  exact terminated_ok.mpr ⟨id', _, b', k,
    ⟨⟨hat.function, (hat.toIn.put _).found⟩, hat.cursor, hblock⟩, hk, rfl⟩

theorem terminate_of_ended {x : Terminator} {u : Unit} (hs : terminated s = .ok true s) :
    inBlock (fun b => Build.terminate b x) s ≠ .ok u t := by
  intro h
  obtain ⟨id, f, b, k, hat, hk, -⟩ := terminated_ok.mp hs
  obtain ⟨id', f', b', k', hat', hopen, -⟩ := terminate_ok.mp h
  obtain ⟨rfl, rfl, rfl, rfl⟩ := hat.unique hat'
  simp [Block.terminated, hopen] at hk

theorem conditional_of_ended {test : Tree} {yes : Nat → Lower Unit}
    {no : Option (Nat → Lower Unit)} {u : Unit} (hs : terminated s = .ok true s) :
    conditional test yes no s ≠ .ok u t := by
  intro h
  cases no with
  | none =>
    rw [conditional_none] at h
    obtain ⟨c, s₁, h₁, h⟩ := bind_ok.mp h
    obtain ⟨y, s₂, h₂, h⟩ := bind_ok.mp h
    obtain ⟨e, s₃, h₃, h⟩ := bind_ok.mp h
    obtain ⟨_, s₄, h₄, -⟩ := bind_ok.mp h
    have hended := ((emitting_condition test).run h₁).ended hs
    exact terminate_of_ended (newBlock_ended h₃ (newBlock_ended h₂ hended)) h₄
  | some arm =>
    rw [conditional_some] at h
    obtain ⟨c, s₁, h₁, h⟩ := bind_ok.mp h
    obtain ⟨y, s₂, h₂, h⟩ := bind_ok.mp h
    obtain ⟨e, s₃, h₃, h⟩ := bind_ok.mp h
    obtain ⟨o, s₄, h₄, h⟩ := bind_ok.mp h
    obtain ⟨_, s₅, h₅, -⟩ := bind_ok.mp h
    have hended := ((emitting_condition test).run h₁).ended hs
    exact terminate_of_ended (newBlock_ended h₄ (newBlock_ended h₃ (newBlock_ended h₂ hended))) h₅

theorem choice_of_ended {site : Site} {u : Unit} (hs : terminated s = .ok true s) :
    choice site ts s ≠ .ok u t := by
  intro h
  unfold choice at h
  split at h
  · obtain ⟨_, s₁, h₁, hrest⟩ := bind_ok.mp h
    obtain ⟨-, rfl⟩ := lift_ok.mp h₁
    exact conditional_of_ended hs hrest
  · obtain ⟨_, s₁, h₁, hrest⟩ := bind_ok.mp h
    obtain ⟨-, rfl⟩ := lift_ok.mp h₁
    exact conditional_of_ended hs hrest
  · cases h

theorem statement_of_ended {site : Site} (kind : site.kind = .statement) (name : site.name = "if")
    {u : Unit} (hs : terminated s = .ok true s) :
    statement (.node site ts) s ≠ .ok u t := by
  intro h
  rw [statement_named kind, if_pos name] at h
  obtain ⟨-, w, hw, -⟩ := nested_ok.mp h
  exact choice_of_ended (Emission.ended (.depth (s.depth + 1)) hs) hw

end Ended

/-! ## Rows of statements -/

section Rows

theorem bind_run_congr {α β : Type} {x y : Lower α} {s : LowerState} (h : x s = y s)
    (k : α → Lower β) : (x >>= k) s = (y >>= k) s := by
  change EStateM.bind x k s = EStateM.bind y k s
  simp only [EStateM.bind, h]

theorem statements_open {s : LowerState} (h : terminated s = .ok false s) (t : Tree)
    (ts : List Tree) : statements (t :: ts) s = (do statement t; statements ts : Lower Unit) s := by
  rw [statements]
  exact bind_of_ok h

theorem agrees_refl_statements {strict : Prop} (ts : List Tree) :
    Agrees (.plain strict) (statements ts) (statements ts) :=
  agrees_statements (List.forall₂_same.mpr fun t _ => (alike_refl t).statement)

theorem agrees_append (us vs : List Tree) :
    Agrees (.plain True) (do statements us; statements vs) (statements (us ++ vs)) := by
  induction us with
  | nil =>
    rw [statements, pure_bind]
    exact agrees_refl_statements vs
  | cons u us ih =>
    intro n n' s s' hs
    rw [List.cons_append]
    have hterminated := agrees_terminated n n' hs
    generalize hr : terminated s = r, hr' : terminated s' = r' at hterminated
    cases hterminated with
    | lax hlax => exact absurd trivial hlax
    | refused hlax => exact absurd trivial hlax
    | same =>
      rw [bind_of_error (by rw [statements, bind_of_error hr]), statements, bind_of_error hr']
      exact .same
    | @ok ended t t' ht =>
      obtain ⟨_, _, _, _, -, -, rfl⟩ := terminated_ok.mp hr
      obtain ⟨_, _, _, _, -, -, rfl⟩ := terminated_ok.mp hr'
      cases ended with
      | true =>
        obtain ⟨log, hlog⟩ := statements_ended hr (u :: us)
        obtain ⟨log₁, hlog₁⟩ := statements_ended (terminated_log hr log) vs
        obtain ⟨log', hlog'⟩ := statements_ended hr' (u :: (us ++ vs))
        rw [bind_of_ok hlog, hlog₁, hlog']
        exact .ok { ht with }
      | false =>
        have hrest : Agrees (.plain True) (do statement u; statements us; statements vs)
            (do statement u; statements (us ++ vs)) :=
          (alike_refl u).statement.bind fun _ => ih
        rw [bind_run_congr (statements_open hr u us), statements_open hr', bind_assoc]
        exact hrest n n' ht

theorem Agrees.trans_strict {α : Type} {strict : Prop} {x y z : Lower α}
    (hxy : Agrees (.plain strict) x y) (hyz : Agrees (.plain True) y z) :
    Agrees (.plain strict) x z := by
  intro n n' s s' hs
  have hsame : (Variation.plain True).Varies n' n' s' s' :=
    ⟨rfl, rfl, rfl, rfl, ⟨rfl, rfl, fun _ h => absurd trivial h⟩, hs.depth', hs.depth',
      Nat.le_refl _, fun _ => rfl⟩
  have hfirst := hxy n n' hs
  have hsecond := hyz n' n' hsame
  generalize x s = r, y s' = r', z s' = r'' at hfirst hsecond
  cases hsecond with
  | lax hlax => exact absurd trivial hlax
  | refused hlax => exact absurd trivial hlax
  | same =>
    cases hfirst with
    | same => exact .same
    | lax hlax => exact .lax hlax
    | refused hlax hkind => exact .refused hlax hkind
  | ok ht' =>
    cases hfirst with
    | lax hlax => exact .lax hlax
    | ok ht =>
      refine .ok { ht with
        module := ht'.module.trans ht.module
        function := ht'.function.trans ht.function
        block := ht'.block.trans ht.block
        loops := ht'.loops.trans ht.loops
        scope := ⟨ht'.scope.locals.trans ht.scope.locals,
          Eq.trans ht.scope.constants ht'.scope.constants, fun _ h => absurd trivial h⟩
        depth' := ht'.depth' }

theorem Agrees.unnested {V : Variation} (hlax : ¬V.strict) {α : Type} {x y : Lower α}
    (h : Agrees V x y) (site : Site) : Agrees V (Lower.nested site x) y := by
  intro n n' s s' hs
  by_cases hdeep : s.depth < maxDepth
  · have hdeeper : V.Varies (n + 1) n' (deeper s) s' :=
      { hs with
        depth := congrArg (· + 1) hs.depth
        flatter := Nat.le_succ_of_le hs.flatter
        level := fun hstrict => absurd hstrict hlax }
    have hrun := h (n + 1) n' hdeeper
    rw [nested_of_shallow hdeep]
    unfold ensuring
    generalize x (deeper s) = r, y s' = r' at hrun
    cases hrun with
    | same => exact .same
    | lax => exact .lax hlax
    | refused _ hkind => exact .refused hlax hkind
    | ok ht =>
      exact .ok { ht with
        depth := congrArg (· - 1) ht.depth
        flatter := hs.flatter
        level := fun hstrict => absurd hstrict hlax }
  · rw [nested_of_deep (Nat.not_lt.mp hdeep)]
    exact .lax hlax

theorem agrees_replaced {t : Tree} {us : List Tree}
    (h : Agrees (.plain False) (statement t) (statements us)) {ts vs : List Tree}
    (hrest : Agrees (.plain False) (statements ts) (statements vs)) :
    Agrees (.plain False) (statements (t :: ts)) (statements (us ++ vs)) := by
  intro n n' s s' hs
  cases hr : terminated s with
  | error e u =>
    rw [statements, bind_of_error hr]
    exact .lax id
  | ok ended u =>
    obtain ⟨_, _, _, _, -, -, rfl⟩ := terminated_ok.mp hr
    have hr' := (hs.terminated _).mpr hr
    cases ended with
    | true =>
      obtain ⟨log, hlog⟩ := statements_ended hr (t :: ts)
      obtain ⟨log', hlog'⟩ := statements_ended hr' (us ++ vs)
      rw [hlog, hlog']
      exact .ok { hs with }
    | false =>
      rw [statements_open hr]
      exact (h.bind fun _ => hrest).trans_strict (agrees_append us vs) n n' hs

/-! ## The tree written out -/

theorem agrees_alone {t t' : Tree} (h : Agrees (.plain False) (statement t) (statement t'))
    (hif : t.kind = .statement ∧ t.name = "if") :
    Agrees (.plain False) (statement t) (statements [t']) := by
  intro n n' s s' hs
  cases hr' : terminated s' with
  | error e u =>
    rw [statements, bind_of_error hr']
    exact .refused id (inBlock_refuses hr')
  | ok ended u =>
    obtain ⟨_, _, _, _, -, -, rfl⟩ := terminated_ok.mp hr'
    have hr := (hs.terminated _).mp hr'
    cases ended with
    | true =>
      -- the row is skipped, but then the conditional finds no open block either
      obtain ⟨site, ts⟩ := t
      cases hrun : statement (.node site ts) s with
      | ok _ v => exact absurd hrun (statement_of_ended hif.1 hif.2 hr)
      | error e v => exact .lax id
    | false =>
      have hone : statements [t'] u = statement t' u := by
        rw [statements_open hr', statements, bind_pure]
      rw [hone]
      exact h n n' hs

/-- A conditional may be put into a block of its own. -/
theorem agrees_enclosed {t t' : Tree} (h : Alike (.plain False) t t') (b : Nat) :
    Agrees (.plain False) (elseArm t b) (elseArm t'.enclosed b) := by
  by_cases hif : t.kind = .statement ∧ t.name = "if"
  · have hif' : t'.kind = .statement ∧ t'.name = "if" := by
      rw [Tree.kind, Tree.name, h.site]
      exact hif
    have hblock : t.kind ≠ .block := by
      rw [hif.1]
      decide
    have hleft : elseArm t b = (do setBlock b; statement t) := by
      rw [elseArm, if_neg hblock, if_pos hif]
    have hright : elseArm t'.enclosed b = (do setBlock b; statements [t']) := by
      rw [Tree.enclosed, if_pos hif']
      rfl
    rw [hleft, hright]
    exact (agrees_setBlock b).bind fun _ => agrees_alone h.statement hif
  · have hif' : ¬(t'.kind = .statement ∧ t'.name = "if") := by
      rw [Tree.kind, Tree.name, h.site]
      exact hif
    rw [Tree.enclosed, if_neg hif']
    exact agrees_elseArm h.site h.statement h.block b

end Rows

end Lower

namespace Tree

open Lower

theorem spreadAll_alike (h : ∀ t ∈ ts, Alike (.plain False) t t.spread) :
    List.Forall₂ (Alike (.plain False)) ts (spreadAll ts) := by
  induction ts with
  | nil => exact .nil
  | cons t ts ih => exact .cons (h t (by simp)) (ih fun t ht => h t (by simp [ht]))

theorem spreadRow_agrees (h : ∀ t ∈ ts, Alike (.plain False) t t.spread)
    (hrow : ∀ t ∈ ts, t.kind = .block →
      Agrees (.plain False) (Lower.statements t.children) (Lower.statements t.spread.children)) :
    Agrees (.plain False) (Lower.statements ts) (Lower.statements (spreadRow ts)) := by
  induction ts with
  | nil => exact agrees_refl_statements []
  | cons t ts ih =>
    have hrest := ih (fun t ht => h t (by simp [ht])) fun t ht => hrow t (by simp [ht])
    rw [spreadRow]
    by_cases hblock : t.kind = .block
    · have hinner := hrow t (by simp) hblock
      rw [if_pos hblock]
      refine agrees_replaced ?_ hrest
      obtain ⟨site, cs⟩ := t
      rw [statement_block (show site.kind = .block from hblock)]
      exact hinner.unnested id site
    · rw [if_neg hblock]
      exact agrees_cons ((h t (by simp)).statement.bind fun _ => hrest)

theorem encloseArm_children {site : Site} (kind : site.kind = .statement)
    (name : site.name = "if") {ts ts' : List Tree}
    (h : List.Forall₂ (Alike (.plain False)) ts ts') :
    Children (.plain False) site.role ts (encloseArm ts') := by
  have hlength := h.length_eq
  by_cases hthree : ts'.length = 3
  · obtain ⟨a', b', c', rfl⟩ := List.length_eq_three.mp hthree
    obtain ⟨a, b, c, rfl⟩ := List.length_eq_three.mp (hlength.trans hthree)
    rcases h with _ | ⟨ha, _ | ⟨hb, _ | ⟨hc, -⟩⟩⟩
    have harm : Plays (.plain False) c c'.enclosed (site.role 2) := by
      simp only [Site.role, kind, if_pos name]
      exact agrees_enclosed hc
    exact .cons (ha.plays _) (.cons (hb.plays _) (.cons harm .nil))
  · have hsame : encloseArm ts' = ts' := by
      unfold encloseArm
      split
      · exact absurd rfl hthree
      · rfl
    rw [hsame]
    exact .of_alike h _

theorem spread_alike (t : Tree) : Alike (.plain False) t t.spread ∧
    (t.kind = .block → Agrees (.plain False) (Lower.statements t.children)
      (Lower.statements t.spread.children)) := by
  induction t using Tree.induct with
  | node site ts ih =>
    have hts := fun t ht => (ih t ht).1
    have hrow := spreadRow_agrees hts fun t ht => (ih t ht).2
    rw [spread]
    by_cases hblock : site.kind = .block
    · rw [if_pos hblock]
      exact ⟨alike_node (fun _ => hrow) fun hk => absurd hblock hk, fun _ => hrow⟩
    · rw [if_neg hblock]
      refine ⟨?_, fun hk => absurd hk hblock⟩
      by_cases hif : site.kind = .statement ∧ site.name = "if"
      · rw [if_pos hif]
        exact alike_node (fun hk => absurd hk hblock)
          fun _ => encloseArm_children hif.1 hif.2 (spreadAll_alike hts)
      · rw [if_neg hif]
        exact alike_of_children (spreadAll_alike hts)

theorem spreadItem_revised (t : Tree) : Revised False t t.spreadItem := by
  unfold spreadItem
  split
  · split
    · exact .body _ _ _ (spread_alike _).1
    · exact .same _
  · exact .same t

/-- Writing out the nested blocks and the chained conditionals of a program changes
nothing about the module it lowers to, and none are left. -/
theorem lower_spread {singlePass : Bool} {t : Tree} {m : Module}
    (h : (t.lower singlePass).result = .ok m) :
    (t.spreadBodies.lower singlePass).result = .ok m ∧
      ∀ f ∈ t.spreadBodies.children, f.kind = .functionDeclaration →
        ∀ result params body, f.children = [result, params, body] → body.Flat := by
  obtain ⟨site, ts⟩ := t
  have hitems : List.Forall₂ (Revised False) ts (ts.map spreadItem) :=
    List.forall₂_map_right_iff.mpr (List.forall₂_same.mpr fun t _ => spreadItem_revised t)
  refine ⟨(lower_revised hitems singlePass site).2 m h, fun f hf hkind _ _ _ hchildren => ?_⟩
  obtain ⟨g, -, rfl⟩ := List.mem_map.mp hf
  exact spreadItem_flat (kind_spreadItem g ▸ hkind) hchildren

/-- `{ int y; { if (x) {} else if (x) { { return x; } y = x; } } }` -/
def ladder : Tree :=
  let x := bare .identifier "x" []
  let inner := bare .block "" [bare .block "" [bare .returnStatement "" [x]],
    bare .assignment "y" [bare .identifier "=" [], x]]
  bare .block "" [bare .variableDeclaration "y" [bare .identifier "int" []],
    bare .block "" [bare .statement "if" [x, bare .block "" [], bare .statement "if" [x, inner]]]]

def ladderFlat : Tree :=
  let x := bare .identifier "x" []
  let inner := bare .block "" [bare .returnStatement "" [x],
    bare .assignment "y" [bare .identifier "=" [], x]]
  bare .block "" [bare .variableDeclaration "y" [bare .identifier "int" []],
    bare .statement "if" [x, bare .block "" [],
      bare .block "" [bare .statement "if" [x, inner]]]]

theorem ladder_spread :
    ∃ m, ((bare .program "" [reader ladder]).lower true).result = .ok m ∧
      ((bare .program "" [reader ladderFlat]).lower true).result = .ok m := by
  obtain ⟨m, hm⟩ : ∃ m, ((bare .program "" [reader ladder]).lower true).result = .ok m :=
    except_of_isOk (by decide +kernel)
  have hspread : (bare .program "" [reader ladder]).spreadBodies =
      bare .program "" [reader ladderFlat] := by
    simp [spreadBodies, spreadItem, spread, spreadRow, spreadAll, encloseArm, enclosed, reader,
      ladder, ladderFlat, bare, kind, name, Tree.site, children]
  exact ⟨m, hm, hspread ▸ (lower_spread hm).1⟩

end Tree

end TreeFlow
