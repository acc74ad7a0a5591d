import TreeFlow.Proofs.Drafting

/-!
# Visited statements

The statements of a function that are lowered, each with the cursor at which it
is reached. A run of the lowering comes by each of them in a state with that
cursor. What stands behind the end of a block is not visited.
-/

set_option autoImplicit false

namespace TreeFlow

variable {x : Unit} {c : Tree} {g : Function}

namespace Tree

mutual

/-- The statements that are visited inside of a statement, from the cursor at
which it is reached itself. -/
def within : Tree → Cursor → List (Tree × Cursor)
  | .node site children, κ =>
    match site.kind, children with
    | .whileStatement, [_, body] => body.within ⟨κ.blocks + 1, κ.blocks + 3, false⟩
    | .statement, [_, yes] => yes.within ⟨κ.blocks, κ.blocks + 2, false⟩
    | .statement, [_, yes, no] =>
      let first := yes.draft ⟨κ.blocks, κ.blocks + 3, false⟩
      let second : Cursor := ⟨κ.blocks + 2, first.cursor.blocks, false⟩
      yes.within ⟨κ.blocks, κ.blocks + 3, false⟩ ++
        (if no.kind = .block then [] else [(no, second)]) ++ no.within second
    | .block, ts => withinAll ts κ
    | _, _ => []

def withinAll : List Tree → Cursor → List (Tree × Cursor)
  | [], _ => []
  | t :: ts, κ =>
    if κ.ended then [] else (t, κ) :: t.within κ ++ withinAll ts (t.draft κ).cursor

end

def visits (f : Tree) : List (Tree × Cursor) := withinAll f.statements ⟨0, 1, false⟩

end Tree

def Tree.makes (c : Tree) : List String :=
  match c.kind, c.children with
  | .whileStatement, [_, _] => ["while.cond", "while.body", "while.end"]
  | .statement, [_, _] => ["if.then", "if.end"]
  | .statement, [_, _, _] => ["if.then", "if.end", "if.else"]
  | _, _ => []

def Piece.visits : Piece → Cursor → List (Tree × Cursor)
  | .one t, κ => (t, κ) :: t.within κ
  | .many ts, κ => Tree.withinAll ts κ

/-! ## The forms of statements -/

section Forms

variable {site : Site} {t test yes no : Tree} {ts : List Tree} (κ : Cursor)

theorem Tree.within_of_block (h : t.kind = .block) : t.within κ = Tree.withinAll t.children κ := by
  cases t with
  | node site ts =>
    rw [Site.eq_of_kind (show site.kind = .block from h)]
    rfl

namespace Piece

theorem visits_arm (no : Tree) :
    no.arm.visits κ = (if no.kind = .block then [] else [(no, κ)]) ++ no.within κ := by
  unfold Tree.arm
  split
  · exact (Tree.within_of_block κ ‹_›).symm
  · rfl

theorem visits_leaf (h : site.kind ∉ [.whileStatement, .statement, .block]) :
    (one (.node site ts)).visits κ = [(.node site ts, κ)] := by
  cases hk : site.kind with
  | whileStatement => simp [hk] at h
  | statement => simp [hk] at h
  | block => simp [hk] at h
  | _ =>
    rw [Site.eq_of_kind hk]
    rfl

theorem visits_jump (kind : site.kind = .statement) :
    (one (.node site [])).visits κ = [(.node site [], κ)] := by
  rw [Site.eq_of_kind kind]
  rfl

theorem visits_loop {body : Tree} (kind : site.kind = .whileStatement)
    (block : body.kind = .block) :
    (one (.node site [test, body])).visits κ = (.node site [test, body], κ) ::
      (many body.children).visits ⟨κ.blocks + 1, κ.blocks + 3, false⟩ := by
  rw [Site.eq_of_kind kind, visits, visits, ← Tree.within_of_block _ block]
  rfl

theorem visits_ifThen (kind : site.kind = .statement) (block : yes.kind = .block) :
    (one (.node site [test, yes])).visits κ = (.node site [test, yes], κ) ::
      (many yes.children).visits ⟨κ.blocks, κ.blocks + 2, false⟩ := by
  rw [Site.eq_of_kind kind, visits, visits, ← Tree.within_of_block _ block]
  rfl

theorem visits_ifElse {κ₁ : Cursor} (kind : site.kind = .statement) (block : yes.kind = .block)
    (first : ((many yes.children).draft ⟨κ.blocks, κ.blocks + 3, false⟩).cursor = κ₁) :
    (one (.node site [test, yes, no])).visits κ = (.node site [test, yes, no], κ) ::
      ((many yes.children).visits ⟨κ.blocks, κ.blocks + 3, false⟩ ++
        no.arm.visits ⟨κ.blocks + 2, κ₁.blocks, false⟩) := by
  have hyes : ∀ κ, (many yes.children).draft κ = yes.draft κ := fun κ =>
    (Tree.draft_of_block κ block).symm
  rw [← first, Site.eq_of_kind kind, visits_arm, hyes, visits, visits,
    ← Tree.within_of_block _ block, ← List.append_assoc]
  rfl

theorem visits_block (kind : site.kind = .block) :
    (one (.node site ts)).visits κ = (.node site ts, κ) :: (many ts).visits κ := by
  rw [Site.eq_of_kind kind]
  rfl

theorem visits_ended (h : κ.ended = true) : (many ts).visits κ = [] := by
  cases ts with
  | nil => rfl
  | cons t ts => exact if_pos h

theorem visits_cons (h : κ.ended = false) :
    (many (t :: ts)).visits κ =
      (one t).visits κ ++ (many ts).visits ((one t).draft κ).cursor := by
  obtain ⟨block, blocks, ended⟩ := κ
  cases h
  rfl

end Piece

theorem Tree.makes_leaf (h : site.kind ∉ [.whileStatement, .statement]) :
    (Tree.node site ts).makes = [] := by
  cases hk : site.kind with
  | whileStatement => simp [hk] at h
  | statement => simp [hk] at h
  | _ =>
    rw [Site.eq_of_kind hk]
    rfl

theorem Tree.makes_jump (site : Site) : (Tree.node site []).makes = [] := by
  cases hk : site.kind <;> rw [Site.eq_of_kind hk] <;> rfl

theorem Tree.makes_loop {body : Tree} (kind : site.kind = .whileStatement) :
    (Tree.node site [test, body]).makes = ["while.cond", "while.body", "while.end"] := by
  rw [Site.eq_of_kind kind]
  rfl

theorem Tree.makes_ifThen (kind : site.kind = .statement) :
    (Tree.node site [test, yes]).makes = ["if.then", "if.end"] := by
  rw [Site.eq_of_kind kind]
  rfl

theorem Tree.makes_ifElse (kind : site.kind = .statement) :
    (Tree.node site [test, yes, no]).makes = ["if.then", "if.end", "if.else"] := by
  rw [Site.eq_of_kind kind]
  rfl

end Forms

/-! ## Named blocks -/

namespace Function

variable {f : Function} {b n : Nat} {name : String} {names : List String}

def Labelled (f : Function) (b : Nat) (name : String) : Prop :=
  ∃ k, f.block? b = some k ∧ k.label = name ++ "." ++ toString b

def Named (f : Function) (n : Nat) (names : List String) : Prop :=
  ∀ i name, names[i]? = some name → f.Labelled (n + i) name

theorem labelled_iff :
    f.Labelled b name ↔ ∃ k, f.bodies[b]? = some k ∧ k.label = name ++ "." ++ toString b := by
  constructor
  · rintro ⟨l, hl, hlabel⟩
    obtain ⟨k, hk, rfl⟩ := block?_eq_some.mp hl
    exact ⟨k, hk, hlabel⟩
  · rintro ⟨k, hk, hlabel⟩
    exact ⟨_, block?_eq_some.mpr ⟨k, hk, rfl⟩, hlabel⟩

theorem Labelled.mono (h : f.Labelled b name) (hg : f.Extends g) : g.Labelled b name := by
  obtain ⟨k, hk, hlabel⟩ := labelled_iff.mp h
  obtain ⟨l, hl, hkl⟩ := hg.blocks b k hk
  exact labelled_iff.mpr ⟨l, hl, hkl.label.trans hlabel⟩

theorem Named.mono (h : f.Named n names) (hg : f.Extends g) : g.Named n names :=
  fun i name hi => (h i name hi).mono hg

theorem named_nil (f : Function) (n : Nat) : f.Named n [] := nofun

theorem Named.addBlock (h : f.Named n names) (hn : f.bodies.length = n + names.length) :
    (f.addBlock name).Named n (names ++ [name]) := by
  intro i name' hi
  rcases Nat.lt_or_ge i names.length with hlt | hge
  · rw [List.getElem?_append_left hlt] at hi
    exact (h i name' hi).mono (f.extends_addBlock name)
  · obtain ⟨hlast, rfl⟩ : i = names.length ∧ name = name' := by
      rw [List.getElem?_append_right hge, List.getElem?_singleton] at hi
      split at hi
      · exact ⟨by omega, Option.some.inj hi⟩
      · cases hi
    refine labelled_iff.mpr ⟨_, (f.bodies_addBlock name (n + i)).trans (if_pos (by omega)), ?_⟩
    show name ++ "." ++ toString f.bodies.length = _
    rw [hn, hlast]

end Function

/-! ## Runs -/

namespace Lower

variable {s t u : LowerState} {id b : Nat} {f : Function} {k : Block}

def Comes (s u : LowerState) (id : Nat) (c : Tree) (κ : Cursor) : Prop :=
  ∃ s' u' f k, Steps 0 s s' ∧ s'.At id f κ.block k ∧ k.terminator = none ∧
    f.bodies.length = κ.blocks ∧ statement c s' = .ok () u' ∧ Steps 0 u' u

theorem Comes.wide {s₀ u₀ : LowerState} {κ : Cursor} (h : Comes s u id c κ) (hs : Steps 0 s₀ s)
    (hu : Steps 0 u u₀) : Comes s₀ u₀ id c κ := by
  obtain ⟨s', u', f, k, hs', hat, hopen, hlength, hrun, hu'⟩ := h
  exact ⟨s', u', f, k, hs.trans hs', hat, hopen, hlength, hrun, hu'.trans hu⟩

def Covers (p : Piece) (κ : Cursor) (id : Nat) (s u : LowerState) : Prop :=
  ∀ v ∈ p.visits κ, Comes s u id v.1 v.2

def StatementsCover (ts : List Tree) : Prop :=
  ∀ {s u : LowerState} {id b : Nat} {f : Function} {k : Block} {x : Unit}, s.At id f b k →
    statements ts s = .ok x u →
      Covers (.many ts) ⟨b, f.bodies.length, k.terminated⟩ id s u

def StatementCovers (t : Tree) : Prop :=
  ∀ {s u : LowerState} {id b : Nat} {f : Function} {k : Block} {x : Unit}, s.At id f b k →
    k.terminator = none → statement t s = .ok x u →
      Covers (.one t) ⟨b, f.bodies.length, false⟩ id s u

theorem Covers.wide {p : Piece} {κ : Cursor} {s₀ u₀ : LowerState} (h : Covers p κ id s u)
    (hs : Steps 0 s₀ s) (hu : Steps 0 u u₀) : Covers p κ id s₀ u₀ :=
  fun v hv => (h v hv).wide hs hu

/-! ### Arms -/

theorem grown_in (h : s.In id f) {n : Nat} (hn : n ≤ f.bodies.length) : Grown n s := ⟨id, f, h, hn⟩

theorem made_fresh {y : Nat} (h : s.In id f) (hy : Fresh f y) : Made 0 [y] s :=
  ⟨grown_in h (Nat.zero_le _), by simpa using grown_in h hy.lt⟩

theorem block_covers {y : Nat} (ih : StatementsCover c.children) (hin : s.In id f) (hy : Fresh f y)
    (hr : block y c s = .ok x u) :
    c.kind = .block ∧ Covers (.many c.children) ⟨y, f.bodies.length, false⟩ id s u := by
  obtain ⟨hkind, t, ht, hstmts⟩ := block_ok hr
  have hsteps : Steps 0 s t := (steps_set (made_fresh hin hy) (by simp)).of_ok ht
  obtain ⟨l, hl, -, hopen⟩ := hy
  obtain ⟨hat, -⟩ := setBlock_at hin hl ht
  have hcovers := ih hat hstmts
  rw [show l.terminated = false by simp [Block.terminated, hopen]] at hcovers
  exact ⟨hkind, hcovers.wide hsteps .refl⟩

theorem elseArm_covers {z : Nat} {no : Tree} (ihs : StatementsCover no.children)
    (ih : StatementCovers no) (hin : s.In id f) (hz : Fresh f z) (hr : elseArm no z s = .ok x u) :
    Covers no.arm ⟨z, f.bodies.length, false⟩ id s u := by
  unfold elseArm at hr
  split at hr
  · rw [Tree.arm, if_pos ‹_›]
    exact (block_covers ihs hin hz hr).2
  · rename_i hblock
    split at hr
    · obtain ⟨⟨⟩, t, ht, hr₁⟩ := bind_ok.mp hr
      have hsteps : Steps 0 s t := (steps_set (made_fresh hin hz) (by simp)).of_ok ht
      obtain ⟨l, hl, -, hopen⟩ := hz
      obtain ⟨hat, -⟩ := setBlock_at hin hl ht
      rw [Tree.arm, if_neg hblock]
      exact (ih hat hopen hr₁).wide hsteps .refl
    · cases hr

theorem steps_end {c e : Nat} (hg : Grown (e + 1) s)
    (hr : (fallThrough c >>= fun _ => setBlock e) s = .ok x u) : Steps 0 s u := by
  have hg₀ : Grown 0 s := by
    obtain ⟨id, f, hin, -⟩ := hg
    exact grown_in hin (Nat.zero_le _)
  refine (steps_bind (steps_fallThrough c) fun _ t _ ht => ?_).of_ok hr
  exact steps_setBlock (Nat.zero_le e) (ht.grown hg₀ hg)

/-! ### Constructs -/

/-- A construct has made its blocks, one for each of the names, and is about to
fill block `y` of them. -/
structure Prepared (id : Nat) (f : Function) (s t : LowerState) (names : List String) (y : Nat)
    (f' : Function) : Prop where
  steps : Steps 0 s t
  inside : t.In id f'
  length : f'.bodies.length = f.bodies.length + names.length
  named : f'.Named f.bodies.length names
  fresh : Fresh f' y

theorem Prepared.wide {names : List String} {y : Nat} {f' : Function} {s₀ : LowerState}
    (h : Prepared id f s t names y f') (hs : Steps 0 s₀ s) : Prepared id f s₀ t names y f' :=
  { h with steps := hs.trans h.steps }

theorem steps_arm {y : Nat} (hin : s.In id f) (hy : Fresh f y) (hr : block y c s = .ok x u) :
    Steps 0 s u :=
  (steps_block c _ _ (made_fresh hin hy)).of_ok hr

theorem steps_otherwise {z : Nat} {no : Tree} (hin : s.In id f) (hz : Fresh f z)
    (hr : elseArm no z s = .ok x u) : Steps 0 s u :=
  (arm_elseArm (fun _ => steps_statement no) (steps_block no) _ _ (made_fresh hin hz)).of_ok hr

theorem ifThen_runs {test yes : Tree} (h : s.At id f b k)
    (hr : conditional test (fun b => block b yes) none s = .ok x u) :
    ∃ t w f', Prepared id f s t ["if.then", "if.end"] f.bodies.length f' ∧
      block f.bodies.length yes t = .ok () w ∧ Steps 0 w u := by
  rw [conditional_none] at hr
  obtain ⟨v, t₁, ht₁, hr₁⟩ := bind_ok.mp hr
  obtain ⟨c, r, he, -⟩ := condition_emits h ht₁
  have hn : (f.emit b c r).bodies.length = f.bodies.length := length_emit ..
  obtain ⟨y, t₂, ht₂, hr₂⟩ := bind_ok.mp hr₁
  obtain ⟨hyn, hw₁⟩ := (Widened.refl he.here).newBlock ht₂
  obtain ⟨e, t₃, ht₃, hr₃⟩ := bind_ok.mp hr₂
  obtain ⟨hen, hw₂⟩ := hw₁.newBlock ht₃
  obtain rfl : y = f.bodies.length := hyn.trans hn
  obtain rfl : e = f.bodies.length + 1 := by rw [hen, hn]
  obtain ⟨_, t₄, ht₄, hr₄⟩ := bind_ok.mp hr₃
  have hbr := hw₂.terminate (List.getElem?_eq_some_iff.mp he.here.block).1 ht₄
  have hnamed := ((((f.emit b c r).named_nil f.bodies.length).addBlock hn).addBlock
    (hw₁.length.trans (by rw [hn]; rfl))).mono (terminate_closes hw₂.here ht₄).grows
  have hsteps : Steps 0 s t₄ :=
    (((steps_of_emitting (emitting_condition test) s).of_ok ht₁).trans
      ((steps_newBlock _).of_ok ht₂)).trans
        (((steps_newBlock _).of_ok ht₃).trans ((steps_condBr _ _ _).of_ok ht₄))
  have hprep : Prepared id f s t₄ ["if.then", "if.end"] f.bodies.length _ :=
    ⟨hsteps, hbr.inside, hbr.length.trans (by rw [hn]; rfl), hnamed,
      hbr.fresh _ (by omega) (by omega)⟩
  obtain ⟨⟨⟩, w, hw, hr₅⟩ := bind_ok.mp hr₄
  have harm := steps_arm hprep.inside hprep.fresh hw
  have hgrown : Grown (f.bodies.length + 2) w :=
    harm.grown (grown_in hprep.inside (Nat.zero_le _))
      (grown_in hprep.inside (by rw [hprep.length]; exact Nat.le_refl _))
  exact ⟨t₄, w, _, hprep, hw, steps_end hgrown hr₅⟩

theorem ArmLaid.drafted {p : Piece} {ls : List LoopTargets} {y e : Nat} {f' : Function} {μ : Mark}
    (h : ArmLaid p ls id f s u y e f' μ) (hy : Fresh f y) :
    (p.draft ⟨y, f.bodies.length, false⟩).cursor.blocks = f'.bodies.length := by
  obtain ⟨l, hl, -, hopen⟩ := hy
  have hdraft := (h.code u.module f' (.refl _) (.refl _) l hl).1.drafted
  rw [show (Mark.of s.scope f y l).cursor = ⟨y, f.bodies.length, false⟩ by
    simp [Mark.cursor, Mark.of, Block.terminated, hopen]] at hdraft
  have hmark := h.mark 0 ⟨0, "", [], none⟩ rfl rfl
  exact (congrArg Cursor.blocks hdraft).trans (congrArg Mark.blocks hmark).symm

theorem ifElse_runs {test yes no : Tree} (h : s.At id f b k)
    (hr : conditional test (fun b => block b yes) (some (elseArm no)) s = .ok x u) :
    ∃ t w t' w' f' f'', Prepared id f s t ["if.then", "if.end", "if.else"] f.bodies.length f' ∧
      block f.bodies.length yes t = .ok () w ∧ Steps 0 w t' ∧ t'.In id f'' ∧
        Fresh f'' (f.bodies.length + 2) ∧
          f''.bodies.length = ((Piece.many yes.children).draft
            ⟨f.bodies.length, f.bodies.length + 3, false⟩).cursor.blocks ∧
              elseArm no (f.bodies.length + 2) t' = .ok () w' ∧ Steps 0 w' u := by
  rw [conditional_some] at hr
  obtain ⟨v, t₁, ht₁, hr₁⟩ := bind_ok.mp hr
  obtain ⟨c, r, he, -⟩ := condition_emits h ht₁
  have hn : (f.emit b c r).bodies.length = f.bodies.length := length_emit ..
  obtain ⟨y, t₂, ht₂, hr₂⟩ := bind_ok.mp hr₁
  obtain ⟨hyn, hw₁⟩ := (Widened.refl he.here).newBlock ht₂
  obtain ⟨e, t₃, ht₃, hr₃⟩ := bind_ok.mp hr₂
  obtain ⟨hen, hw₂⟩ := hw₁.newBlock ht₃
  obtain ⟨z, t₄, ht₄, hr₄⟩ := bind_ok.mp hr₃
  obtain ⟨hzn, hw₃⟩ := hw₂.newBlock ht₄
  obtain rfl : y = f.bodies.length := hyn.trans hn
  obtain rfl : e = f.bodies.length + 1 := by rw [hen, hn]
  obtain rfl : z = f.bodies.length + 2 := by rw [hzn, hn]
  obtain ⟨_, t₅, ht₅, hr₅⟩ := bind_ok.mp hr₄
  have hbr := hw₃.terminate (List.getElem?_eq_some_iff.mp he.here.block).1 ht₅
  have hnamed := (((((f.emit b c r).named_nil f.bodies.length).addBlock hn).addBlock
    (hw₁.length.trans (by rw [hn]; rfl))).addBlock (hw₂.length.trans (by rw [hn]; rfl))).mono
      (terminate_closes hw₃.here ht₅).grows
  have hsteps : Steps 0 s t₅ :=
    (((steps_of_emitting (emitting_condition test) s).of_ok ht₁).trans
      ((steps_newBlock _).of_ok ht₂)).trans
        (((steps_newBlock _).of_ok ht₃).trans (((steps_newBlock _).of_ok ht₄).trans
          ((steps_condBr _ _ _).of_ok ht₅)))
  have hfresh := hbr.fresh
  rw [hn] at hfresh
  have hprep : Prepared id f s t₅ ["if.then", "if.end", "if.else"] f.bodies.length _ :=
    ⟨hsteps, hbr.inside, hbr.length.trans (by rw [hn]; rfl), hnamed,
      hfresh _ (by omega) (by omega)⟩
  obtain ⟨⟨⟩, w, hw, hr₆⟩ := bind_ok.mp hr₅
  obtain ⟨_, t₇, ht₇, hr₇⟩ := bind_ok.mp hr₆
  obtain ⟨-, f₇, μ, harm⟩ :=
    armLaid_block (statement_lays yes).2 hbr.inside hprep.fresh.lt hw ht₇
  have hz := harm.fresh (hfresh (f.bodies.length + 2) (by omega) (by omega)) (by omega)
  have hlength := harm.drafted hprep.fresh
  rw [hprep.length] at hlength
  obtain ⟨⟨⟩, w', hw', hr₈⟩ := bind_ok.mp hr₇
  have helse := steps_otherwise harm.inside hz hw'
  refine ⟨t₅, w, t₇, w', _, f₇, hprep, hw, (steps_fallThrough _).of_ok ht₇, harm.inside, hz,
    hlength.symm, hw', steps_end (helse.grown (grown_in harm.inside (Nat.zero_le _)) ?_) hr₈⟩
  exact grown_in harm.inside (by have := hz.lt; omega)

theorem loop_runs {test body : Tree} (h : s.At id f b k)
    (hr : loop test (fun b => block b body) s = .ok x u) :
    ∃ t w f', Prepared id f s t ["while.cond", "while.body", "while.end"] (f.bodies.length + 1) f' ∧
      block (f.bodies.length + 1) body t = .ok () w ∧ Steps 0 w u := by
  unfold loop at hr
  obtain ⟨c, t₁, ht₁, hr₁⟩ := bind_ok.mp hr
  obtain ⟨hcn, hw₁⟩ := (Widened.refl h).newBlock ht₁
  obtain ⟨y, t₂, ht₂, hr₂⟩ := bind_ok.mp hr₁
  obtain ⟨hyn, hw₂⟩ := hw₁.newBlock ht₂
  obtain ⟨e, t₃, ht₃, hr₃⟩ := bind_ok.mp hr₂
  obtain ⟨hen, hw₃⟩ := hw₂.newBlock ht₃
  obtain rfl : c = f.bodies.length := hcn
  obtain rfl : y = f.bodies.length + 1 := hyn
  obtain rfl : e = f.bodies.length + 2 := hen
  obtain ⟨_, t₄, ht₄, hr₄⟩ := bind_ok.mp hr₃
  have hbr := hw₃.terminate (List.getElem?_eq_some_iff.mp h.block).1 ht₄
  have hnamed := ((((f.named_nil f.bodies.length).addBlock rfl).addBlock hw₁.length).addBlock
    hw₂.length).mono (terminate_closes hw₃.here ht₄).grows
  have hfresh := hbr.fresh
  have hlength := hbr.length
  generalize Function.close _ _ _ = f₄ at hbr hfresh hnamed hlength
  obtain ⟨_, t₅, ht₅, hr₅⟩ := bind_ok.mp hr₄
  have hmade := made_fresh hbr.inside (hfresh f.bodies.length (by omega) (by omega))
  obtain ⟨lc, hlc, -, -⟩ := hfresh f.bodies.length (by omega) (by omega)
  obtain ⟨hat₅, -⟩ := setBlock_at hbr.inside hlc ht₅
  obtain ⟨v, t₆, ht₆, hr₆⟩ := bind_ok.mp hr₅
  obtain ⟨code, r, he, -⟩ := condition_emits hat₅ ht₆
  have hgrows := he.grows hat₅ ((emitting_condition test).run ht₆)
  obtain ⟨_, t₇, ht₇, hr₇⟩ := bind_ok.mp hr₆
  have hclosed := terminate_closes he.here ht₇
  obtain ⟨_, t₈, ht₈, hr₈⟩ := bind_ok.mp hr₇
  obtain ⟨w, hw, rfl⟩ := inLoop_ok ht₈
  have hsteps : Steps 0 s t₇ :=
    ((((steps_newBlock _).of_ok ht₁).trans ((steps_newBlock _).of_ok ht₂)).trans
      (((steps_newBlock _).of_ok ht₃).trans ((steps_br _).of_ok ht₄))).trans
        ((((steps_set hmade (by simp)).of_ok ht₅).trans
          ((steps_of_emitting (emitting_condition test) t₅).of_ok ht₆)).trans
            ((steps_condBr _ _ _).of_ok ht₇))
  -- The function in which the body starts.
  have hin := hclosed.here.toIn
  have hgrows₇ := hgrows.trans hclosed.grows
  have hlength₇ := (Function.length_close (f₄.emit f.bodies.length code r) f.bodies.length
    (.condBr v (f.bodies.length + 1) (f.bodies.length + 2))).trans ((length_emit ..).trans hlength)
  have hfresh₇ : Fresh ((f₄.emit f.bodies.length code r).close f.bodies.length
      (.condBr v (f.bodies.length + 1) (f.bodies.length + 2))) (f.bodies.length + 1) := by
    refine Fresh.close ?_ (by omega) _
    refine (hfresh (f.bodies.length + 1) (by omega) (by omega)).congr ?_
    simp [Function.emit]
  generalize Function.close _ _ _ = f₇ at hin hgrows₇ hlength₇ hfresh₇
  have hgrown : ∀ n, n ≤ f.bodies.length + 3 → Grown n t₇ := fun n hn =>
    grown_in hin (by rw [hlength₇]; exact hn)
  have henter : Steps 0 t₇
      { t₇ with loops := ⟨f.bodies.length, f.bodies.length + 2⟩ :: t₇.loops } :=
    .single (.enterLoop ⟨f.bodies.length, f.bodies.length + 2⟩
      (hgrown (f.bodies.length + 1) (by omega)) (hgrown (f.bodies.length + 3) (by omega)))
  have hprep : Prepared id f s
      { t₇ with loops := ⟨f.bodies.length, f.bodies.length + 2⟩ :: t₇.loops }
      ["while.cond", "while.body", "while.end"] (f.bodies.length + 1) f₇ :=
    ⟨hsteps.trans henter, ⟨hin.function, hin.found⟩, hlength₇, hnamed.mono hgrows₇, hfresh₇⟩
  have hbody := steps_arm hprep.inside hprep.fresh hw
  have hleave : Steps 0 w { w with loops := w.loops.tail } := .single .leaveLoop
  refine ⟨_, w, _, hprep, hw, hleave.trans (steps_end ?_ hr₈)⟩
  exact Steps.grown (hbody.trans hleave) (grown_in hprep.inside (Nat.zero_le _))
    (grown_in hprep.inside (by rw [hprep.length]; exact Nat.le_refl _))

/-! ### Statements -/

/-- What a run of a statement from block `b` has done. A construct makes its blocks
and then fills them, one after the other. -/
inductive Runs (id : Nat) (f : Function) (b : Nat) (k : Block) (s u : LowerState) : Tree → Prop
  | leaf {site : Site} {ts : List Tree} (kind : site.kind ∉ [.whileStatement, .statement, .block]) :
      Runs id f b k s u (.node site ts)
  | jump {site : Site} (kind : site.kind = .statement) : Runs id f b k s u (.node site [])
  | block {site : Site} {ts : List Tree} {t w : LowerState} (kind : site.kind = .block)
      (before : Steps 0 s t) (start : t.At id f b k) (run : statements ts t = .ok () w)
      (behind : Steps 0 w u) : Runs id f b k s u (.node site ts)
  | loop {site : Site} {test body : Tree} {t w : LowerState} {f' : Function}
      (kind : site.kind = .whileStatement)
      (prepared : Prepared id f s t ["while.cond", "while.body", "while.end"]
        (f.bodies.length + 1) f')
      (run : Lower.block (f.bodies.length + 1) body t = .ok () w) (behind : Steps 0 w u) :
      Runs id f b k s u (.node site [test, body])
  | ifThen {site : Site} {test yes : Tree} {t w : LowerState} {f' : Function}
      (kind : site.kind = .statement)
      (prepared : Prepared id f s t ["if.then", "if.end"] f.bodies.length f')
      (run : Lower.block f.bodies.length yes t = .ok () w) (behind : Steps 0 w u) :
      Runs id f b k s u (.node site [test, yes])
  | ifElse {site : Site} {test yes no : Tree} {t w t' w' : LowerState} {f' f'' : Function}
      (kind : site.kind = .statement)
      (prepared : Prepared id f s t ["if.then", "if.end", "if.else"] f.bodies.length f')
      (run : Lower.block f.bodies.length yes t = .ok () w) (between : Steps 0 w t')
      (inside : t'.In id f'') (fresh : Fresh f'' (f.bodies.length + 2))
      (length : f''.bodies.length = ((Piece.many yes.children).draft
        ⟨f.bodies.length, f.bodies.length + 3, false⟩).cursor.blocks)
      (run' : elseArm no (f.bodies.length + 2) t' = .ok () w') (behind : Steps 0 w' u) :
      Runs id f b k s u (.node site [test, yes, no])

theorem statement_runs (h : s.At id f b k) (hr : statement c s = .ok x u) :
    Runs id f b k s u c := by
  cases c with
  | node site ts =>
    obtain ⟨act, hform, heq⟩ := statement_form site ts
    rw [heq] at hr
    obtain ⟨-, w, hact, rfl⟩ := nested_ok.mp hr
    have hdeep : Steps 0 s (deeper s) := .single (.emission (.depth _))
    have hshallow : Steps 0 w (shallower w) := .single (.emission (.depth _))
    replace h : (deeper s).At id f b k := ⟨⟨h.function, h.found⟩, h.cursor, h.block⟩
    cases hform with
    | declare hkind | assign hkind | returns hkind | call hkind => exact .leaf (by simp [hkind])
    | leave hkind | again hkind =>
      obtain ⟨rfl, -⟩ := jump_lays h hact
      exact .jump hkind
    | loop hkind test body =>
      obtain ⟨_, v, hv, hact₁⟩ := bind_ok.mp hact
      obtain ⟨-, rfl⟩ := lift_ok.mp hv
      obtain ⟨t, w', f', hprep, hbody, hend⟩ := loop_runs h hact₁
      exact .loop hkind (hprep.wide hdeep) hbody (hend.trans hshallow)
    | ifThen hkind _ test yes =>
      obtain ⟨_, v, hv, hact₁⟩ := bind_ok.mp hact
      obtain ⟨-, rfl⟩ := lift_ok.mp hv
      obtain ⟨t, w', f', hprep, hyes, hend⟩ := ifThen_runs h hact₁
      exact .ifThen hkind (hprep.wide hdeep) hyes (hend.trans hshallow)
    | ifElse hkind _ test yes no =>
      obtain ⟨_, v, hv, hact₁⟩ := bind_ok.mp hact
      obtain ⟨-, rfl⟩ := lift_ok.mp hv
      obtain ⟨t, w₁, t', w₂, f', f'', hprep, hyes, hjoin, hin, hfresh, hlength, hno, hend⟩ :=
        ifElse_runs h hact₁
      exact .ifElse hkind (hprep.wide hdeep) hyes hjoin hin hfresh hlength hno (hend.trans hshallow)
    | block hkind ts => exact .block hkind hdeep h hact hshallow
    | refused => cases hact

theorem statements_cover {ts : List Tree} (ih : ∀ t ∈ ts, StatementCovers t) :
    StatementsCover ts := by
  induction ts with
  | nil =>
    intro s u id b f k x _ _ v hv
    cases hv
  | cons t ts ihs =>
    intro s u id b f k x h hr
    rw [statements] at hr
    obtain ⟨c, w, hw, hr₁⟩ := bind_ok.mp hr
    obtain ⟨id', f', b', k', hat, rfl, rfl⟩ := terminated_ok.mp hw
    obtain ⟨rfl, rfl, rfl, rfl⟩ := h.unique hat
    cases hk : k'.terminated with
    | true =>
      intro v hv
      rw [Piece.visits_ended _ rfl] at hv
      cases hv
    | false =>
      rw [if_neg (by simp [hk])] at hr₁
      obtain ⟨⟨⟩, t₁, ht₁, hr₂⟩ := bind_ok.mp hr₁
      have hopen : k'.terminator = none := by simpa [Block.terminated] using hk
      obtain ⟨f₁, b₁, k₁, hat₁, -, hlays⟩ := (statement_lays t).1 h hopen ht₁
      have hdraft := (hlays t₁.module f₁ (.refl _) (.refl _)).drafted
      rw [show (Mark.of w.scope f' b' k').cursor = ⟨b', f'.bodies.length, false⟩ by
        simp [Mark.cursor, Mark.of, hk]] at hdraft
      have hfirst : Steps 0 w t₁ :=
        (steps_statement t (grown_in h.toIn (Nat.zero_le _))).of_ok ht₁
      have hrest : Steps 0 t₁ u := (steps_statements (fun t _ _ hn => steps_statement t hn)
        (grown_in hat₁.toIn (Nat.zero_le _))).of_ok hr₂
      intro v hv
      rw [Piece.visits_cons _ rfl, hdraft] at hv
      rcases List.mem_append.mp hv with hv | hv
      · exact (ih t (by simp) h hopen ht₁ v hv).wide .refl hrest
      · exact (ihs (fun t ht => ih t (by simp [ht])) hat₁ hr₂ v hv).wide hfirst .refl

/-- Every successful run of a statement from an open block lowers all that is
visited of it. -/
theorem statement_covers (t : Tree) : StatementCovers t ∧ StatementsCover t.children := by
  induction t using Tree.induct with
  | node site ts ih =>
    refine ⟨?_, statements_cover fun t ht => (ih t ht).1⟩
    intro s u id b f k x h ho hr
    have hself : Comes s u id (.node site ts) ⟨b, f.bodies.length, false⟩ :=
      ⟨s, u, f, k, .refl, h, ho, rfl, hr, .refl⟩
    unfold Covers
    cases statement_runs h hr with
    | leaf kind =>
      rw [Piece.visits_leaf _ kind]
      exact List.forall_mem_singleton.mpr hself
    | jump kind =>
      rw [Piece.visits_jump _ kind]
      exact List.forall_mem_singleton.mpr hself
    | block kind before start run behind =>
      have hinside := statements_cover (fun t ht => (ih t ht).1) start run
      rw [show k.terminated = false by simp [Block.terminated, ho]] at hinside
      rw [Piece.visits_block _ kind]
      exact List.forall_mem_cons.mpr ⟨hself, hinside.wide before behind⟩
    | @loop _ test body _ _ _ kind prepared run behind =>
      obtain ⟨hblock, hinside⟩ :=
        block_covers (ih body (by simp)).2 prepared.inside prepared.fresh run
      rw [prepared.length] at hinside
      rw [Piece.visits_loop _ kind hblock]
      exact List.forall_mem_cons.mpr ⟨hself, hinside.wide prepared.steps behind⟩
    | @ifThen _ test yes _ _ _ kind prepared run behind =>
      obtain ⟨hblock, hinside⟩ :=
        block_covers (ih yes (by simp)).2 prepared.inside prepared.fresh run
      rw [prepared.length] at hinside
      rw [Piece.visits_ifThen _ kind hblock]
      exact List.forall_mem_cons.mpr ⟨hself, hinside.wide prepared.steps behind⟩
    | @ifElse _ test yes no _ _ _ _ _ _ kind prepared run between inside fresh length run' behind =>
      obtain ⟨hblock, hinside⟩ :=
        block_covers (ih yes (by simp)).2 prepared.inside prepared.fresh run
      have hotherwise := elseArm_covers (ih no (by simp)).2 (ih no (by simp)).1 inside fresh run'
      have harm := steps_arm prepared.inside prepared.fresh run
      have helse := steps_otherwise inside fresh run'
      rw [prepared.length] at hinside
      rw [length] at hotherwise
      rw [Piece.visits_ifElse _ kind hblock rfl]
      exact List.forall_mem_cons.mpr ⟨hself, List.forall_mem_append.mpr
        ⟨hinside.wide prepared.steps (between.trans (helse.trans behind)),
          hotherwise.wide (prepared.steps.trans (harm.trans between)) behind⟩⟩

/-! ### Bodies -/

theorem body_covers {site : Site} {sig : Signature} {v : LowerState}
    (hf : s.module.function? id = some (.declare id sig)) (hr : body site id c s = .ok x v) :
    ∃ o w, Covers (.many c.children) ⟨0, 1, false⟩ id o w ∧
      v = { w with function := none, block := none } := by
  rw [body_run hf] at hr
  obtain ⟨_, w, hw, hr₁⟩ := bind_ok.mp hr
  have hin : (opened site s id (.declare id sig)).In id
      (Function.addBlock (.declare id sig) "entry") := opened_in hf
  have hcovers := (block_covers (statement_covers c).2 hin
    (fresh_addBlock (.declare id sig) "entry") hw).2
  obtain ⟨e, y, hy, hr₂⟩ := bind_ok.mp hr₁
  replace hy : Steps 0 w y := steps_terminated.of_ok hy
  cases e with
  | true =>
    cases hr₂
    exact ⟨_, y, hcovers.wide .refl hy, rfl⟩
  | false =>
    obtain ⟨_, z, hz, hr₃⟩ := bind_ok.mp hr₂
    cases hz
    obtain ⟨_, z, hz, hr₄⟩ := bind_ok.mp hr₃
    cases hr₄
    have hend : Steps 0 w z := (hy.tail (.emission (.note _))).trans ((steps_ret _).of_ok hz)
    exact ⟨_, z, hcovers.wide .refl hend, rfl⟩

def Ran (m : Module) (c : Tree) (id : Nat) (g : Function) : Prop :=
  m.function? id = some g ∧ ∃ s v sig result params b, c.children = [result, params, b] ∧
    signature c.site c.children = .ok sig ∧ s.module.function? id = some (.declare id sig) ∧
      body c.site id b s = .ok () v ∧ v.module.function? id = some g

theorem function_ran {r : Option Nat} {v : LowerState} (hp : ∀ id, r = some id → Pending s c id)
    (hr : function c.site r c.children s = .ok x v) :
    ∃ id g, (r = some id ∨ r = none ∧ id = s.module.functions.length) ∧ Ran v.module c id g := by
  have hreg : Registered s r := by
    intro id hid
    obtain ⟨sig, -, hf⟩ := hp id hid
    exact ⟨_, hf⟩
  obtain ⟨result, params, b, id, f, w, hts, hw, -, hb⟩ := function_ok hreg hr
  have hpending : Pending w c id ∧ (r = some id ∨ r = none ∧ id = s.module.functions.length) := by
    rcases hw with ⟨hid, rfl⟩ | ⟨hid, hdecl⟩
    · exact ⟨hp id hid, .inl hid⟩
    · have hpend := declareFunction_pending hdecl
      obtain ⟨-, -, -, rfl, -⟩ := declareFunction_ok hdecl
      cases c
      exact ⟨hpend, .inr ⟨hid, rfl⟩⟩
  obtain ⟨⟨sig, hsig, hdecl⟩, hid⟩ := hpending
  obtain ⟨g, hg, -⟩ := body_compiles hdecl hb
  exact ⟨id, g, hid, hg, w, v, sig, result, params, b, hts, hsig, hdecl, hb, hg⟩

theorem items_ran {its : List (Tree × Option Nat)} (hw : Waiting s its) (hr : items its s = .ok x u)
    {i : Tree × Option Nat} (hi : i ∈ its) (hkind : i.1.kind = .functionDeclaration) :
    ∃ id g, Ran u.module i.1 id g := by
  induction its generalizing s with
  | nil => cases hi
  | cons j its ih =>
    rw [items] at hr
    obtain ⟨_, v, hv, hr₁⟩ := bind_ok.mp hr
    rcases item_form j.1 j.2 with ⟨hdir, hj⟩ | ⟨hfun, hj⟩ | hj
    · rw [hj] at hv
      rcases List.mem_cons.mp hi with rfl | hi
      · rw [hdir] at hkind
        cases hkind
      · exact ih (hw.skip (directive_module hv)) hr₁ hi
    · rw [hj] at hv
      obtain ⟨id, g, hid, hpass, -, -⟩ := function_compiles hfun (hw.pending j (by simp)) hv
      obtain ⟨hwait, hne⟩ := hw.tail hid hpass
      rcases List.mem_cons.mp hi with rfl | hi
      · obtain ⟨id', g', hid', hg', hrun⟩ := function_ran (hw.pending i (by simp)) hv
        obtain rfl : id' = id := by
          rcases hid with hid | ⟨hid, rfl⟩ <;> rcases hid' with hid' | ⟨hid', rfl⟩
          · rw [hid] at hid'
            exact (Option.some.inj hid').symm
          · rw [hid] at hid'
            cases hid'
          · rw [hid] at hid'
            cases hid'
          · rfl
        obtain ⟨ids, hfin⟩ := items_finished hwait hr₁
        exact ⟨id', g', hfin.others id' g' hg' hne, hrun⟩
      · exact ih hwait hr₁ hi
    · rw [hj] at hv
      cases hv

end Lower

/-! ## Modules -/

theorem Tree.lower_find {singlePass : Bool} {t : Tree} {m : Module}
    (h : (t.lower singlePass).result = .ok m) {constants : List (String × Int)} {f : Tree}
    {id : Nat} (hcomp : m.Compiles constants f id g) :
    m.find? f.name = some id := by
  obtain ⟨_, _, _, -, -, -, -, hname, -⟩ := Lower.signature_ok hcomp.signature
  rw [← show g.name = f.name from hname]
  exact (Tree.lower_distinct h).find? (Tree.lower_numbered h) hcomp.function

theorem Tree.lower_ran {singlePass : Bool} {t : Tree} {m : Module}
    (h : (t.lower singlePass).result = .ok m) {constants : List (String × Int)} {f : Tree}
    {id : Nat} (hf : f ∈ t.children) (hcomp : m.Compiles constants f id g) :
    Lower.Ran m f id g := by
  obtain ⟨u, hu⟩ := Tree.lower_ok h
  have hran : ∃ id' g', Lower.Ran m f id' g' := by
    cases t with
    | node site ts =>
      obtain ⟨-, s, ids, v, -, -, hlen, hwait, hitems, rfl, -⟩ := Lower.program_ok hu
      obtain ⟨i, hi, hfi⟩ := List.getElem_of_mem hf
      replace hi : i < ts.length := hi
      have hzip : (ts.zip ids)[i]? = some (f, ids[i]) := by
        rw [List.getElem?_zip_eq_some]
        exact ⟨by rw [List.getElem?_eq_getElem hi]; exact congrArg some hfi,
          List.getElem?_eq_getElem (by omega)⟩
      exact Lower.items_ran hwait hitems (List.mem_of_getElem? hzip) hcomp.kind
  obtain ⟨id', g', hg', s, v, sig, result, params, b, hts, hsig, hdecl, hb, hvg⟩ := hran
  -- Both functions have the name of the declaration.
  have hname : g'.name = g.name := by
    obtain ⟨g'', hg'', hgsig, -⟩ := Lower.body_compiles hdecl hb
    obtain rfl : g' = g'' := by simpa [hvg] using hg''
    have hsame := hcomp.signature
    rw [hsig, Except.ok.injEq] at hsame
    exact congrArg Signature.name (hgsig.trans hsame)
  obtain rfl := Tree.lower_distinct h id' id g' g hg' hcomp.function hname
  obtain rfl : g' = g := by simpa [hg'] using hcomp.function
  exact ⟨hg', s, v, sig, result, params, b, hts, hsig, hdecl, hb, hvg⟩

/-- The statement was lowered where the cursor says, and the function under way
has become `g`. -/
def Tree.LoweredAt (c : Tree) (κ : Cursor) (id : Nat) (g : Function) : Prop :=
  ∃ s u f f' k, s.At id f κ.block k ∧ k.terminator = none ∧ f.bodies.length = κ.blocks ∧
    Lower.statement c s = .ok () u ∧ u.In id f' ∧ f'.Extends g

theorem Lower.Ran.lowered {m : Module} {id : Nat} (h : Ran m c id g) :
    ∀ v ∈ c.visits, v.1.LoweredAt v.2 id g := by
  obtain ⟨-, s, v, sig, result, params, b, hts, -, hdecl, hb, hg⟩ := h
  obtain ⟨o, w, hcovers, rfl⟩ := body_covers hdecl hb
  have hvisits : c.visits = (Piece.many b.children).visits ⟨0, 1, false⟩ := by
    simp only [Tree.visits, Tree.statements, hts]
    rfl
  rw [hvisits]
  intro v hv
  obtain ⟨s', u', f, k, -, hat, hopen, hlength, hrun, hend⟩ := hcovers v hv
  have hsteps : Steps 0 s' u' :=
    (steps_statement v.1 (grown_in hat.toIn (Nat.zero_le _))).of_ok hrun
  obtain ⟨f', hkept⟩ := hsteps.kept hat.toIn (Nat.zero_le _)
  obtain ⟨g', hkept'⟩ := hend.kept hkept.inside (Nat.zero_le _)
  obtain rfl : g' = g := by
    have := hkept'.inside.found
    rw [this] at hg
    exact Option.some.inj hg
  exact ⟨s', u', f, f', k, hat, hopen, hlength, hrun, hkept.inside, hkept'.grows⟩

theorem Tree.LoweredAt.named {κ : Cursor} {id : Nat} (h : c.LoweredAt κ id g) :
    g.Named κ.blocks c.makes := by
  obtain ⟨s, u, f, f', k, hat, -, hlength, hrun, hin, hgrows⟩ := h
  -- A construct has its blocks before it starts to fill them.
  have hnamed : ∀ {t names y e}, Lower.Prepared id f s t names y e → Lower.Steps 0 t u →
      g.Named κ.blocks names := by
    intro t names y e hprep hsteps
    obtain ⟨f'', hkept⟩ := hsteps.kept hprep.inside (Nat.zero_le _)
    obtain ⟨-, rfl⟩ := hkept.inside.unique hin
    exact hlength ▸ (hprep.named.mono hkept.grows).mono hgrows
  cases Lower.statement_runs hat hrun with
  | leaf kind =>
    rw [makes_leaf fun hmem => kind (by simp_all)]
    exact g.named_nil _
  | jump kind =>
    rw [makes_jump]
    exact g.named_nil _
  | block kind =>
    rw [makes_leaf (by simp [kind])]
    exact g.named_nil _
  | loop kind prepared run behind =>
    rw [makes_loop kind]
    exact hnamed prepared ((Lower.steps_arm prepared.inside prepared.fresh run).trans behind)
  | ifThen kind prepared run behind =>
    rw [makes_ifThen kind]
    exact hnamed prepared ((Lower.steps_arm prepared.inside prepared.fresh run).trans behind)
  | ifElse kind prepared run between inside fresh length run' behind =>
    have harm := Lower.steps_arm prepared.inside prepared.fresh run
    have helse := Lower.steps_otherwise inside fresh run'
    rw [makes_ifElse kind]
    exact hnamed prepared (harm.trans (between.trans (helse.trans behind)))

theorem Tree.LoweredAt.test {κ : Cursor} {id : Nat} (h : c.LoweredAt κ id g)
    (hkind : c.kind = .whileStatement) :
    g.Labelled κ.blocks "while.cond" := by
  have hnamed := h.named
  obtain ⟨s, u, f, f', k, hat, -, -, hrun, -⟩ := h
  cases Lower.statement_runs hat hrun with
  | leaf kind => exact absurd (List.mem_cons.mpr (.inl hkind)) kind
  | jump kind | block kind | ifThen kind | ifElse kind => cases kind.symm.trans hkind
  | loop kind =>
    rw [makes_loop kind] at hnamed
    exact hnamed 0 "while.cond" rfl

/-! ## Counting blocks -/

def Piece.makes (p : Piece) (κ : Cursor) : List String := (p.visits κ).flatMap fun v => v.1.makes

section Counting

variable {site : Site} {ts : List Tree} (κ : Cursor)

theorem Piece.makes_leaf (h : site.kind ∉ [.whileStatement, .statement, .block]) :
    (one (.node site ts)).makes κ = [] := by
  rw [makes, visits_leaf κ h, List.flatMap_singleton]
  exact Tree.makes_leaf (by simp_all)

theorem Piece.makes_jump (kind : site.kind = .statement) : (one (.node site [])).makes κ = [] := by
  rw [makes, visits_jump κ kind, List.flatMap_singleton]
  exact Tree.makes_jump site

end Counting

/-- The blocks of a piece are those that the statements visited in it make for
themselves. -/
theorem Lays.made {m : Module} {p : Piece} {ls : List LoopTargets} {μ μ' : Mark}
    (h : Lays m g p ls μ μ') : μ'.blocks = μ.blocks + (p.makes μ.cursor).length := by
  induction h with
  | declare kind => rw [Piece.makes_leaf _ (by simp [kind])]; rfl
  | initialise kind => rw [Piece.makes_leaf _ (by simp [kind])]; rfl
  | assign kind _ _ target =>
    rw [Piece.makes_leaf _ (by simp [kind])]
    exact congrArg Cursor.blocks target.cursor
  | returnNone kind => rw [Piece.makes_leaf _ (by simp [kind])]; rfl
  | returnValue kind => rw [Piece.makes_leaf _ (by simp [kind])]; rfl
  | call kind => rw [Piece.makes_leaf _ (by simp [kind])]; rfl
  | leave kind => rw [Piece.makes_jump _ kind]; rfl
  | again kind => rw [Piece.makes_jump _ kind]; rfl
  | @loop site test body ls μ μ₁ c v r kind block _ _ _ _ _ _ ih =>
    rw [Piece.makes, Piece.visits_loop _ kind block, List.flatMap_cons, Tree.makes_loop kind,
      List.length_append]
    show μ₁.blocks = μ.blocks + (3 + _)
    rw [← Nat.add_assoc]
    exact ih
  | @ifThen site test yes ls μ μ₁ c v r kind _ block _ _ _ _ _ ih =>
    rw [Piece.makes, Piece.visits_ifThen _ kind block, List.flatMap_cons, Tree.makes_ifThen kind,
      List.length_append]
    show μ₁.blocks = μ.blocks + (2 + _)
    rw [← Nat.add_assoc]
    exact ih
  | @ifElse site test yes no ls μ μ₁ μ₂ c v r kind _ block _ _ _ _ inside _ _ _ ih₁ ih₂ =>
    rw [Piece.makes, Piece.visits_ifElse μ.cursor kind block inside.drafted, List.flatMap_cons,
      Tree.makes_ifElse kind, List.length_append, List.flatMap_append, List.length_append]
    show μ₂.blocks = μ.blocks + (3 + (_ + _))
    rw [← Nat.add_assoc, ← Nat.add_assoc]
    exact ih₂.trans (congrArg (· + _) ih₁)
  | block kind _ ih =>
    rw [Piece.makes, Piece.visits_block _ kind, List.flatMap_cons,
      Tree.makes_leaf (by simp [kind])]
    exact ih
  | nil => rfl
  | skip ended => rw [Piece.makes, Piece.visits_ended _ ended]; rfl
  | cons unended first _ ih₁ ih₂ =>
    rw [Piece.makes, Piece.visits_cons _ unended, first.drafted, List.flatMap_append,
      List.length_append, ← Nat.add_assoc]
    exact ih₂.trans (congrArg (· + _) ih₁)

theorem Module.Compiles.made {m : Module} {constants : List (String × Int)} {f : Tree} {id : Nat}
    (h : m.Compiles constants f id g) :
    g.bodies.length = 1 + (f.visits.flatMap fun v => v.1.makes).length := by
  obtain ⟨_, _, body, hchildren, μ, hlays, -, hblocks, -⟩ := h.body
  rw [hblocks, hlays.made]
  simp only [Tree.visits, Tree.statements, hchildren]
  rfl

end TreeFlow
