import TreeFlow.Proofs.Linking
import TreeFlow.Proofs.Rewriting

/-!
# Trails

A run can be watched. The watched run notes down every point between two statements,
with the state at this point and with what has been lowered so far in the body.
Watching does not interfere with the run: without its trail, the watched run is the
run itself.
-/

set_option autoImplicit false

namespace TreeFlow

structure Tree.Simple (t : Tree) : Prop where
  notBlock : t.kind ≠ .block
  notLoop : t.kind ≠ .whileStatement
  notIf : t.kind = .statement → t.name ≠ "if"

structure Passage where
  statement : Tree
  before : LowerState
  behind : LowerState

/-- A point between two statements: the item to whose body it belongs, the statements
lowered so far in this body, and the state. -/
structure Waypoint where
  item : Nat
  history : List Passage
  state : LowerState

structure Trail where
  item : Nat
  history : List Passage
  points : List Waypoint

namespace Trail

def start : Trail := ⟨0, [], []⟩

def noted (trail : Trail) (s : LowerState) : Trail :=
  { trail with points := trail.points ++ [⟨trail.item, trail.history, s⟩] }

def passed (trail : Trail) (t : Tree) (s u : LowerState) : Trail :=
  { trail with history := trail.history ++ [⟨t, s, u⟩] }

def turned (trail : Trail) (item : Nat) : Trail := { trail with item := item, history := [] }

end Trail

abbrev Watched := StateT Trail Lower

namespace Lower

variable {α β : Type}

def Still (x : Lower α) : Prop := ∀ ⦃s u : LowerState⦄ ⦃a : α⦄, x s = .ok a u → u.scope = s.scope

theorem Emission.scope {s t : LowerState} (h : Emission s t) : t.scope = s.scope := by
  cases h <;> rfl

theorem Emissions.scope {s t : LowerState} (h : Emissions s t) : t.scope = s.scope := by
  induction h with
  | refl => rfl
  | tail _ hstep ih => exact hstep.scope.trans ih

theorem Emitting.still {x : Lower α} (h : Emitting x) : Still x := fun _ _ _ hr => (h.run hr).scope

theorem still_throw (e : LowerError) : Still (throw e : Lower α) := (emitting_throw e).still

theorem Still.bind {x : Lower α} {k : α → Lower β} (hx : Still x) (hk : ∀ a, Still (k a)) :
    Still (x >>= k) := by
  intro s u b hr
  obtain ⟨a, t, ht, hr⟩ := bind_ok.mp hr
  exact (hk a hr).trans (hx ht)

theorem Still.nested {x : Lower α} (h : Still x) (site : Site) : Still (nested site x) := by
  intro s u a hr
  obtain ⟨-, v, hv, rfl⟩ := nested_ok.mp hr
  have hscope : v.scope = (deeper s).scope := h hv
  exact hscope

theorem still_note (e : Event) : Still (note e) := by
  intro s u a hr
  cases hr
  rfl

theorem still_setBlock (b : Nat) : Still (setBlock b) := by
  intro s u a hr
  cases hr
  rfl

theorem still_newBlock (label : String) : Still (newBlock label) := by
  intro s u b hr
  obtain ⟨id, f, -, -, rfl⟩ := newBlock_ok.mp hr
  rfl

theorem still_terminate (x : Terminator) : Still (inBlock fun b => Build.terminate b x) := by
  intro s u a hr
  obtain ⟨id, f, b, k, -, -, -, rfl⟩ := terminate_ok.mp hr
  rfl

theorem still_terminated : Still terminated := by
  intro s u c hr
  obtain ⟨id, f, b, k, -, -, rfl⟩ := terminated_ok.mp hr
  rfl

theorem still_fallThrough (b : Nat) : Still (fallThrough b) := by
  refine still_terminated.bind fun ended => ?_
  cases ended with
  | true => exact (emitting_pure ()).still
  | false => exact still_terminate _

end Lower

namespace Watched

open Lower

/-! ## The watched run -/

section Actions

variable {α : Type}

def nested (site : Site) (x : Watched α) : Watched α := fun trail => Lower.nested site (x trail)

def inLoop (l : LoopTargets) (x : Watched α) : Watched α := fun trail => Lower.inLoop l (x trail)

def mark : Watched Unit := fun trail => do
  let s ← get
  return ((), trail.noted s)

def pass (t : Tree) : Watched Unit := fun trail => do
  let s ← get
  Lower.statement t
  let u ← get
  return ((), trail.passed t s u)

def turnTo (item : Nat) : Watched Unit := fun trail => pure ((), trail.turned item)

end Actions

def conditional (test : Tree) (yes : Nat → Watched Unit) (no : Option (Nat → Watched Unit)) :
    Watched Unit := do
  let c ← condition test
  let yesBlock ← newBlock "if.then"
  let endBlock ← newBlock "if.end"
  let noBlock ← if no.isSome then newBlock "if.else" else pure endBlock
  condBr c yesBlock noBlock
  yes yesBlock
  fallThrough endBlock
  match no with
  | some arm => do
    arm noBlock
    fallThrough endBlock
  | none => pure ()
  setBlock endBlock

def loop (test : Tree) (body : Nat → Watched Unit) : Watched Unit := do
  let testBlock ← newBlock "while.cond"
  let bodyBlock ← newBlock "while.body"
  let endBlock ← newBlock "while.end"
  br testBlock
  setBlock testBlock
  let c ← condition test
  condBr c bodyBlock endBlock
  inLoop ⟨testBlock, endBlock⟩ (body bodyBlock)
  fallThrough testBlock
  setBlock endBlock

mutual

def statement : Tree → Watched Unit
  | .node site children =>
    match site.kind, children with
    | .whileStatement, [test, body] => nested site do
      lift (site.require 1 .block body)
      loop test fun b => block b body
    | .whileStatement, ts => nested site (throw (site.wrongArity 2 2 ts.length))
    | .statement, ts =>
      if site.name = "if" then nested site <|
        match ts with
        | [test, yes] => do
          lift (site.require 1 .block yes)
          conditional test (fun b => block b yes) none
        | [test, yes, no] => do
          lift (site.require 1 .block yes)
          conditional test (fun b => block b yes) <| some fun b =>
            if no.kind = .block then block b no
            else if no.kind = .statement ∧ no.name = "if" then do
              setBlock b
              statement no
            else throw (no.site.fault (.notElse no.kind))
        | ts => throw (site.wrongArity 2 3 ts.length)
      else pass (.node site ts)
    | .block, ts => nested site (statements ts)
    | _, ts => pass (.node site ts)

def block (b : Nat) : Tree → Watched Unit
  | .node site children =>
    if site.kind = .block then do
      setBlock b
      statements children
    else throw (site.fault (.notBlock site.kind))

def statements : List Tree → Watched Unit
  | [] => mark
  | t :: ts => do
    mark
    if ← terminated then note (.unreachableSkipped (ts.length + 1))
    else do
      statement t
      statements ts

end

def close (site : Site) (ty : Ty) : Lower Unit := do
  if !(← terminated) then
    note (.bodyFellOff site.name)
    ret (defaultReturn ty)
  leave

def body (site : Site) (id : Nat) (t : Tree) : Watched Unit := do
  note (.bodyStarted site.name)
  let entry ← enter id
  let f ← currentFunction
  bindAll f.arguments
  block entry t
  close site f.ret

def bodyOf (site : Site) (children : List Tree) (id : Nat) : Watched Unit :=
  match children with
  | [_, _, t] => body site id t
  | ts => throw (site.wrongArity 3 3 ts.length)

def function (site : Site) (registered : Option Nat) (children : List Tree) : Watched Unit :=
  match registered with
  | some id => bodyOf site children id
  | none => do
    let id ← declareFunction site children
    bodyOf site children id

def item (t : Tree) (registered : Option Nat) : Watched Unit :=
  if t.kind = .functionDeclaration then function t.site registered t.children
  else Lower.item t registered

def itemsFrom : Nat → List Tree → Watched Unit
  | _, [] => pure ()
  | k, t :: ts => do
    turnTo k
    item t (← registered? k)
    itemsFrom (k + 1) ts

def program (singlePass : Bool) : Tree → Watched Module
  | .node site children =>
    if site.kind = .program then do
      note (.programStarted site.name children.length)
      if !singlePass then declareFrom 0 children
      itemsFrom 0 children
      let m := (← (get : Lower LowerState)).module
      note (.programFinished m.functions.length m.globals.length)
      return m
    else throw (site.fault (.notProgram site.kind))

def elseArm (no : Tree) (b : Nat) : Watched Unit :=
  if no.kind = .block then block b no
  else if no.kind = .statement ∧ no.name = "if" then do
    setBlock b
    statement no
  else throw (no.site.fault (.notElse no.kind))

/-- The code of a statement, as it is watched and as it is run. -/
inductive Form : Tree → Watched Unit → Lower Unit → Prop
  | loop (site : Site) (test body : Tree) :
      Form (.node site [test, body])
        (nested site do
          lift (site.require 1 .block body)
          loop test fun b => block b body)
        (Lower.nested site (repetition site [test, body]))
  | ifThen (site : Site) (test yes : Tree) :
      Form (.node site [test, yes])
        (nested site do
          lift (site.require 1 .block yes)
          conditional test (fun b => block b yes) none)
        (Lower.nested site (choice site [test, yes]))
  | ifElse (site : Site) (test yes no : Tree) :
      Form (.node site [test, yes, no])
        (nested site do
          lift (site.require 1 .block yes)
          conditional test (fun b => block b yes) (some (elseArm no)))
        (Lower.nested site (choice site [test, yes, no]))
  | block (site : Site) (ts : List Tree) :
      Form (.node site ts) (nested site (statements ts)) (Lower.nested site (Lower.statements ts))
  | pass (t : Tree) (simple : t.Simple) : Form t (pass t) (Lower.statement t)
  | refused (site : Site) (ts : List Tree) (e : LowerError) :
      Form (.node site ts) (nested site (throw e)) (Lower.nested site (throw e))

theorem statement_plain {site : Site} (kind : site.kind = .statement) (name : site.name ≠ "if")
    (ts : List Tree) : statement (.node site ts) = pass (.node site ts) := by
  obtain ⟨k, n, location⟩ := site
  cases kind
  rcases ts with _ | ⟨a, _ | ⟨b, _ | ⟨c, _ | ⟨d, ts⟩⟩⟩⟩ <;> exact if_neg name

theorem if_form {site : Site} (kind : site.kind = .statement) (name : site.name = "if")
    (ts : List Tree) :
    Form (.node site ts) (statement (.node site ts)) (Lower.statement (.node site ts)) := by
  rw [statement_named kind, if_pos name]
  obtain ⟨k, n, location⟩ := site
  cases kind
  cases name
  rcases ts with _ | ⟨test, _ | ⟨yes, _ | ⟨no, _ | ⟨extra, ts⟩⟩⟩⟩
  · exact .refused ..
  · exact .refused ..
  · exact .ifThen ..
  · exact .ifElse ..
  · exact .refused ..

theorem form (t : Tree) : Form t (statement t) (Lower.statement t) := by
  obtain ⟨⟨k, name, location⟩, ts⟩ := t
  cases k with
  | whileStatement =>
    rw [statement_while rfl]
    rcases ts with _ | ⟨a, _ | ⟨b, _ | ⟨c, ts⟩⟩⟩
    · exact .refused ..
    · exact .refused ..
    · exact .loop ..
    · exact .refused ..
  | statement =>
    by_cases hname : name = "if"
    · exact if_form rfl hname ts
    · rw [statement_plain rfl hname]
      exact .pass _ ⟨nofun, nofun, fun _ => hname⟩
  | block => exact .block ..
  | _ => exact .pass _ ⟨nofun, nofun, nofun⟩

/-! ## What watching keeps -/

section Watches

variable {α β : Type} {G : Trail → Scope → Prop}

/-- Without its trail, the watched action is the other one. Along the way it keeps
what holds between the trail and the names in scope. -/
structure Watches (G : Trail → Scope → Prop) (x : Watched α) (y : Lower α) : Prop where
  erased : ∀ trail, Prod.fst <$> x trail = y
  keeps : ∀ ⦃trail trail' : Trail⦄ ⦃s u : LowerState⦄ ⦃a : α⦄, G trail s.scope →
    x trail s = .ok (a, trail') u → G trail' u.scope

theorem Watches.bind {x : Watched α} {y : Lower α} {k : α → Watched β} {l : α → Lower β}
    (hx : Watches G x y) (hk : ∀ a, Watches G (k a) (l a)) : Watches G (x >>= k) (y >>= l) where
  erased trail :=
    calc Prod.fst <$> (x trail >>= fun p => k p.1 p.2)
        = x trail >>= fun p => Prod.fst <$> k p.1 p.2 := map_bind ..
      _ = x trail >>= fun p => l p.1 := by simp only [(hk _).erased]
      _ = Prod.fst <$> x trail >>= l := (bind_map_left ..).symm
      _ = y >>= l := by rw [hx.erased]
  keeps trail trail' s u b hg hr := by
    obtain ⟨⟨a, trail₁⟩, v, hv, hr⟩ := bind_ok.mp hr
    exact (hk a).keeps (hx.keeps hg hv) hr

theorem Watches.silent {x : Watched Unit} {z : Watched α} {y : Lower α}
    (hx : Watches G x (pure ())) (hz : Watches G z y) : Watches G (x >>= fun _ => z) y := by
  have h := hx.bind fun _ => hz
  rwa [pure_bind] at h

theorem watches_lift {y : Lower α}
    (h : ∀ trail s a u, G trail s.scope → y s = .ok a u → G trail u.scope) :
    Watches G (liftM y) y where
  erased trail := by
    change Prod.fst <$> (y >>= fun a => pure (a, trail)) = y
    simp
  keeps trail trail' s u a hg hr := by
    obtain ⟨b, v, hv, hr⟩ := bind_ok.mp hr
    cases hr
    exact h _ _ _ _ hg hv

theorem watches_throw (e : LowerError) : Watches G (throw e : Watched α) (throw e) where
  erased _ := rfl
  keeps _ _ _ _ _ _ hr := by cases hr

theorem map_ensuring (f : α → β) (x : Lower α) (after : LowerState → LowerState) :
    f <$> ensuring x after = ensuring (f <$> x) after := by
  funext s
  change EStateM.map f (ensuring x after) s = ensuring (EStateM.map f x) after s
  cases h : x s with
  | ok a t => simp only [EStateM.map, ensuring, h]
  | error e t => simp only [EStateM.map, ensuring, h]

theorem Watches.nested {x : Watched α} {y : Lower α} (h : Watches G x y) (site : Site) :
    Watches G (nested site x) (Lower.nested site y) where
  erased trail := by
    rw [← h.erased trail, Watched.nested, Lower.nested, Lower.nested, map_bind]
    simp only [map_ensuring]
  keeps trail trail' s u a hg hr := by
    obtain ⟨-, v, hv, rfl⟩ := nested_ok.mp hr
    have hend : G trail' v.scope := h.keeps (s := deeper s) hg hv
    exact hend

theorem Watches.inLoop {x : Watched α} {y : Lower α} (h : Watches G x y) (l : LoopTargets) :
    Watches G (inLoop l x) (Lower.inLoop l y) where
  erased trail := by
    rw [← h.erased trail, Watched.inLoop, Lower.inLoop, Lower.inLoop, map_bind]
    simp only [map_ensuring]
  keeps trail trail' s u a hg hr := by
    obtain ⟨_, w, hw, hr⟩ := bind_ok.mp hr
    cases hw
    obtain ⟨v, hv, rfl⟩ := ensuring_ok.mp hr
    have hend : G trail' v.scope := h.keeps (s := { s with loops := l :: s.loops }) hg hv
    exact hend

theorem watches_still {y : Lower α} (h : Still y) : Watches G (liftM y) y :=
  watches_lift fun _ _ _ _ hg hr => by
    rw [h hr]
    exact hg

theorem watches_conditional {test : Tree} {yes : Nat → Watched Unit} {yes' : Nat → Lower Unit}
    (hyes : ∀ b, Watches G (yes b) (yes' b)) :
    Watches G (conditional test yes none) (Lower.conditional test yes' none) := by
  rw [conditional_none]
  refine (watches_still (emitting_condition test).still).bind fun c => ?_
  refine (watches_still (still_newBlock _)).bind fun y => ?_
  refine (watches_still (still_newBlock _)).bind fun e => ?_
  refine (watches_still (still_terminate _)).bind fun _ => (hyes y).bind fun _ => ?_
  refine (watches_still (still_fallThrough e)).bind fun _ => ?_
  exact watches_still (still_setBlock e)

theorem watches_conditional_else {test : Tree} {yes no : Nat → Watched Unit}
    {yes' no' : Nat → Lower Unit} (hyes : ∀ b, Watches G (yes b) (yes' b))
    (hno : ∀ b, Watches G (no b) (no' b)) :
    Watches G (conditional test yes (some no)) (Lower.conditional test yes' (some no')) := by
  rw [conditional_some]
  refine (watches_still (emitting_condition test).still).bind fun c => ?_
  refine (watches_still (still_newBlock _)).bind fun y => ?_
  refine (watches_still (still_newBlock _)).bind fun e => ?_
  refine (watches_still (still_newBlock _)).bind fun n => ?_
  refine (watches_still (still_terminate _)).bind fun _ => (hyes y).bind fun _ => ?_
  refine (watches_still (still_fallThrough e)).bind fun _ => (hno n).bind fun _ => ?_
  refine (watches_still (still_fallThrough e)).bind fun _ => ?_
  exact watches_still (still_setBlock e)

theorem watches_loop {test : Tree} {body : Nat → Watched Unit} {body' : Nat → Lower Unit}
    (hbody : ∀ b, Watches G (body b) (body' b)) :
    Watches G (loop test body) (Lower.loop test body') := by
  refine (watches_still (still_newBlock _)).bind fun c => ?_
  refine (watches_still (still_newBlock _)).bind fun b => ?_
  refine (watches_still (still_newBlock _)).bind fun e => ?_
  refine (watches_still (still_terminate _)).bind fun _ => ?_
  refine (watches_still (still_setBlock c)).bind fun _ => ?_
  refine (watches_still (emitting_condition test).still).bind fun v => ?_
  refine (watches_still (still_terminate _)).bind fun _ => ?_
  refine ((hbody b).inLoop ⟨c, e⟩).bind fun _ => ?_
  refine (watches_still (still_fallThrough c)).bind fun _ => ?_
  exact watches_still (still_setBlock e)

/-- What holds between the trail and the names in scope is kept where a point is noted
down and where a simple statement is passed, if it is one of these trees. -/
structure Keeping (G : Trail → Scope → Prop) (ts : List Tree) : Prop where
  noted : ∀ trail s, G trail s.scope → G (trail.noted s) s.scope
  passed : ∀ t ∈ ts, t.Simple → ∀ trail s u, G trail s.scope → Lower.statement t s = .ok () u →
    G (trail.passed t s u) u.scope

theorem Keeping.mono {ts us : List Tree} (h : Keeping G ts) (hsub : us ⊆ ts) : Keeping G us :=
  ⟨h.noted, fun t ht => h.passed t (hsub ht)⟩

theorem Keeping.watches_mark {ts : List Tree} (h : Keeping G ts) : Watches G mark (pure ()) where
  erased _ := rfl
  keeps trail _ s _ _ hg hr := by
    cases hr
    exact h.noted trail s hg

theorem pass_of_ok {t : Tree} {s u : LowerState} (h : Lower.statement t s = .ok () u)
    (trail : Trail) : pass t trail s = .ok ((), trail.passed t s u) u := by
  unfold pass
  rw [get_bind, bind_of_ok h]
  rfl

theorem pass_of_error {t : Tree} {s u : LowerState} {e : LowerError}
    (h : Lower.statement t s = .error e u) (trail : Trail) : pass t trail s = .error e u := by
  unfold pass
  rw [get_bind, bind_of_error h]

theorem Keeping.watches_pass {ts : List Tree} (h : Keeping G ts) {t : Tree} (ht : t ∈ ts)
    (hsimple : t.Simple) : Watches G (pass t) (Lower.statement t) where
  erased trail := by
    funext s
    change EStateM.map Prod.fst (pass t trail) s = _
    cases hr : Lower.statement t s with
    | ok _ u => simp only [EStateM.map, pass_of_ok hr]
    | error e u => simp only [EStateM.map, pass_of_error hr]
  keeps trail trail' s u a hg hr := by
    cases hs : Lower.statement t s with
    | ok _ v =>
      rw [pass_of_ok hs] at hr
      cases hr
      exact h.passed t ht hsimple trail s u hg hs
    | error e v =>
      rw [pass_of_error hs] at hr
      cases hr

theorem Keeping.watches_statements {us ts : List Tree} (h : Keeping G us)
    (hts : ∀ t ∈ ts, Watches G (statement t) (Lower.statement t)) :
    Watches G (statements ts) (Lower.statements ts) := by
  induction ts with
  | nil => exact h.watches_mark
  | cons t ts ih =>
    rw [statements, Lower.statements]
    refine h.watches_mark.silent ((watches_still still_terminated).bind fun ended => ?_)
    cases ended with
    | true => exact watches_still (still_note _)
    | false => exact (hts t (by simp)).bind fun _ => ih fun t ht => hts t (by simp [ht])

theorem Keeping.watches_block {us : List Tree} (h : Keeping G us) {t : Tree}
    (ht : ∀ c ∈ t.children, Watches G (statement c) (Lower.statement c)) (b : Nat) :
    Watches G (block b t) (Lower.block b t) := by
  obtain ⟨site, ts⟩ := t
  rw [block, Lower.block]
  split
  · exact (watches_still (still_setBlock b)).bind fun _ => h.watches_statements ht
  · exact watches_throw _

theorem Keeping.watches {t : Tree} (h : Keeping G t.subtrees) :
    Watches G (statement t) (Lower.statement t) ∧
      ∀ c ∈ t.children, Watches G (statement c) (Lower.statement c) := by
  induction t using Tree.induct with
  | node site children ih =>
    have hchildren : ∀ c ∈ children, Watches G (statement c) (Lower.statement c) := fun c hc =>
      (ih c hc (h.mono (Tree.subtrees_child hc))).1
    refine ⟨?_, hchildren⟩
    have hblock : ∀ c ∈ children, ∀ b, Watches G (block b c) (Lower.block b c) := fun c hc b =>
      h.watches_block (ih c hc (h.mono (Tree.subtrees_child hc))).2 b
    have hform := form (.node site children)
    generalize statement (.node site children) = x, Lower.statement (.node site children) = y
      at hform ⊢
    cases hform with
    | loop _ test body =>
      refine Watches.nested ((watches_still (emitting_lift _).still).bind fun _ => ?_) site
      exact watches_loop (hblock body (by simp))
    | ifThen _ test yes =>
      refine Watches.nested ((watches_still (emitting_lift _).still).bind fun _ => ?_) site
      exact watches_conditional (hblock yes (by simp))
    | ifElse _ test yes no =>
      refine Watches.nested ((watches_still (emitting_lift _).still).bind fun _ => ?_) site
      refine watches_conditional_else (hblock yes (by simp)) fun b => ?_
      unfold elseArm Lower.elseArm
      split
      · exact hblock no (by simp) b
      · split
        · exact (watches_still (still_setBlock b)).bind fun _ => hchildren no (by simp)
        · exact watches_throw _
    | block => exact (h.watches_statements hchildren).nested site
    | pass _ simple => exact h.watches_pass (Tree.mem_subtrees_self _) simple
    | refused => exact (watches_throw _).nested site

/-! ## Runs of a watched action -/

variable {x : Watched α} {y : Lower α} {trail : Trail} {s u : LowerState} {a : α}

theorem Watches.run {trail' : Trail} (h : Watches G x y) (hr : x trail s = .ok (a, trail') u) :
    y s = .ok a u := by
  rw [← h.erased trail]
  change EStateM.map Prod.fst (x trail) s = _
  simp only [EStateM.map, hr]

theorem Watches.leaves (h : Watches G x y) (hr : y s = .ok a u) (trail : Trail) :
    ∃ trail', x trail s = .ok (a, trail') u := by
  rw [← h.erased trail] at hr
  change EStateM.map Prod.fst (x trail) s = _ at hr
  cases hx : x trail s with
  | ok p v =>
    simp only [EStateM.map, hx] at hr
    cases hr
    exact ⟨p.2, rfl⟩
  | error e v =>
    simp only [EStateM.map, hx] at hr
    cases hr

theorem lift_bind (y : Lower α) (k : α → Watched β) (trail : Trail) :
    (liftM y >>= k) trail = y >>= fun a => k a trail := by
  change (y >>= fun a => pure (a, trail)) >>= (fun p : α × Trail => k p.1 p.2) = _
  simp

theorem trail_of_lift {trail' : Trail} (h : (liftM y : Watched α) trail s = .ok (a, trail') u) :
    trail' = trail := by
  obtain ⟨b, v, -, h⟩ := bind_ok.mp h
  cases h
  rfl

theorem body_ok {site : Site} {id : Nat} {f : Function} {t : Tree} {trail' : Trail}
    (hf : s.module.function? id = some f) (hr : body site id t trail s = .ok ((), trail') u) :
    ∃ v, block f.bodies.length t trail (opened site s id f) = .ok ((), trail') v := by
  unfold body at hr
  simp only [lift_bind] at hr
  rw [opening_run hf] at hr
  obtain ⟨p, v, hv, hr⟩ := bind_ok.mp hr
  obtain ⟨_, w, -, hr⟩ := bind_ok.mp hr
  cases hr
  exact ⟨v, hv⟩

end Watches

/-! ## Programs -/

section Programs

def anyTrail (_ : Trail) (_ : Scope) : Prop := True

theorem watches_any {α : Type} (y : Lower α) : Watches anyTrail (liftM y) y :=
  watches_lift fun _ _ _ _ _ _ => trivial

theorem keeping_any (ts : List Tree) : Keeping anyTrail ts :=
  ⟨fun _ _ _ => trivial, fun _ _ _ _ _ _ _ _ => trivial⟩

theorem watches_turnTo (k : Nat) : Watches anyTrail (turnTo k) (pure ()) :=
  ⟨fun _ => rfl, fun _ _ _ _ _ _ _ => trivial⟩

theorem watches_body (site : Site) (id : Nat) (t : Tree) :
    Watches anyTrail (body site id t) (Lower.body site id t) := by
  have hblock := (keeping_any t.subtrees).watches_block (keeping_any t.subtrees).watches.2
  refine (watches_any _).bind fun _ => (watches_any _).bind fun entry => ?_
  refine (watches_any _).bind fun f => (watches_any _).bind fun _ => (hblock entry).bind fun _ => ?_
  exact watches_any (close site f.ret)

theorem watches_bodyOf (site : Site) (ts : List Tree) (id : Nat) :
    Watches anyTrail (bodyOf site ts id) (Lower.bodyOf site ts id) := by
  rcases ts with _ | ⟨result, _ | ⟨params, _ | ⟨t, _ | ⟨extra, ts⟩⟩⟩⟩
  · exact watches_throw _
  · exact watches_throw _
  · exact watches_throw _
  · exact watches_body site id t
  · exact watches_throw _

theorem bodyOf_ok {site : Site} {ts : List Tree} {id : Nat} {trail trail' : Trail}
    {s u : LowerState} (h : bodyOf site ts id trail s = .ok ((), trail') u) :
    ∃ result params t, ts = [result, params, t] ∧ body site id t trail s = .ok ((), trail') u := by
  rcases ts with _ | ⟨result, _ | ⟨params, _ | ⟨t, _ | ⟨extra, ts⟩⟩⟩⟩
  · cases h
  · cases h
  · cases h
  · exact ⟨result, params, t, rfl, h⟩
  · cases h

theorem watches_function (site : Site) (r : Option Nat) (ts : List Tree) :
    Watches anyTrail (function site r ts) (Lower.function site r ts) := by
  cases r with
  | some id => exact watches_bodyOf site ts id
  | none => exact (watches_any _).bind fun id => watches_bodyOf site ts id

theorem watches_item (t : Tree) (r : Option Nat) :
    Watches anyTrail (item t r) (Lower.item t r) := by
  by_cases hkind : t.kind = .functionDeclaration
  · obtain ⟨⟨k, name, location⟩, ts⟩ := t
    cases hkind
    exact watches_function _ r ts
  · rw [item, if_neg hkind]
    exact watches_any _

theorem watches_itemsFrom (k : Nat) (ts : List Tree) :
    Watches anyTrail (itemsFrom k ts) (Lower.itemsFrom k ts) := by
  induction ts generalizing k with
  | nil => exact watches_any (pure ())
  | cons c ts ih =>
    refine (watches_turnTo k).silent ((watches_any (registered? k)).bind fun r => ?_)
    exact (watches_item c r).bind fun _ => ih (k + 1)

/-- The watched run of a program is its run. -/
theorem watches_program (singlePass : Bool) (t : Tree) :
    Watches anyTrail (program singlePass t) (Lower.program singlePass t) := by
  obtain ⟨site, ts⟩ := t
  rw [program, Lower.program]
  split
  · have hfinish := fun m : Module =>
      (watches_any (note (.programFinished m.functions.length m.globals.length))).bind
        fun _ => watches_any (pure m)
    have hend := (watches_itemsFrom 0 ts).bind fun _ => (watches_any get).bind fun s =>
      hfinish s.module
    refine (watches_any _).bind fun _ => ?_
    cases singlePass with
    | true => exact hend
    | false => exact (watches_any _).bind fun _ => hend
  · exact watches_throw _

theorem program_ok {singlePass : Bool} {site : Site} {ts : List Tree} {m : Module}
    {trail trail' : Trail} {u : LowerState}
    (h : program singlePass (.node site ts) trail .initial = .ok (m, trail') u) :
    ∃ s v, s.scope = .empty ∧ Waiting s (s.listed 0 ts) ∧
      itemsFrom 0 ts trail s = .ok ((), trail') v := by
  have hitems : ∀ {s : LowerState}, (itemsFrom 0 ts >>= fun _ => liftM conclude) trail s =
      .ok (m, trail') u → ∃ v, itemsFrom 0 ts trail s = .ok ((), trail') v := by
    intro s hs
    obtain ⟨p, v, hv, hs⟩ := bind_ok.mp hs
    cases hs
    exact ⟨v, hv⟩
  rw [program] at h
  split at h
  · simp only [lift_bind] at h
    rw [note_bind] at h
    cases singlePass with
    | true =>
      obtain ⟨v, hv⟩ := hitems h
      refine ⟨started site ts, v, rfl, ?_, hv⟩
      rw [LowerState.listed_blank rfl]
      exact waiting_unregistered _ ts
    | false =>
      change (liftM (declareFrom 0 ts) >>= fun _ => itemsFrom 0 ts >>= fun _ => liftM conclude)
        trail (started site ts) = _ at h
      rw [lift_bind, declareFrom_eq, bind_assoc] at h
      obtain ⟨ids, s, hs, h⟩ := bind_ok.mp h
      obtain ⟨v, hv⟩ := hitems h
      obtain ⟨-, hscope, hwait, -⟩ := declareAll_waiting hs
      refine ⟨s, v, hscope, ?_, hv⟩
      rw [declareAll_listed hs fun _ _ => rfl]
      exact hwait
  · cases h

end Programs

end Watched

end TreeFlow
