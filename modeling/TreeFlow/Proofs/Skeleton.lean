import TreeFlow.Proofs.Meaning
import TreeFlow.Proofs.Source

/-!
# Stale reads in the source

A parameter is read from where it came in until the text assigns it, and from a
slot below that place. The order of the text is not the order of execution: the
body of a loop comes back to its test. A skeleton keeps of a statement only its
control flow, the reads of the incoming value and the stores to the slot. It
tells whether control can go from a store to such a read.
-/

set_option autoImplicit false

namespace TreeFlow

/-! ## Phases of a name -/

/-- What a place of the text has behind it: the parameter has been assigned
under its name, or a variable has taken the name. -/
structure Phase where
  assigned : Bool
  redeclared : Bool
  deriving DecidableEq, Repr

namespace Phase

def entry : Phase := ⟨false, false⟩

def fresh (ph : Phase) : Bool := !ph.assigned && !ph.redeclared

def assign (ph : Phase) : Phase := { ph with assigned := ph.assigned || !ph.redeclared }

def redeclare (ph : Phase) : Phase := { ph with redeclared := true }

theorem fresh_assign (ph : Phase) : ph.assign.fresh = false := by
  obtain ⟨a, r⟩ := ph
  cases a <;> cases r <;> rfl

theorem fresh_redeclare (ph : Phase) : ph.redeclare.fresh = false := Bool.and_false _

theorem assign_of_not_fresh {ph : Phase} (h : ph.fresh = false) : ph.assign = ph := by
  obtain ⟨a, r⟩ := ph
  cases a <;> cases r
  · cases h
  · rfl
  · rfl
  · rfl

theorem fresh_iff {ph : Phase} : ph.fresh = true ↔ ph.assigned = false ∧ ph.redeclared = false := by
  simp [fresh]

end Phase

def Piece.mentions (x : String) (p : Piece) : Bool :=
  p.subtrees.any fun t => t.kind = .identifier ∧ t.name = x

theorem Piece.mentions_node (x : String) (site : Site) (ts : List Tree) :
    (Piece.one (.node site ts)).mentions x =
      (decide (site.kind = .identifier ∧ site.name = x) || (Piece.many ts).mentions x) := rfl

theorem Piece.mentions_nil (x : String) : (Piece.many []).mentions x = false := rfl

theorem Piece.mentions_cons (x : String) (t : Tree) (ts : List Tree) :
    (Piece.many (t :: ts)).mentions x =
      ((Piece.one t).mentions x || (Piece.many ts).mentions x) := by
  simp only [mentions, subtrees, Tree.subtreesAll, List.any_append]

/-! ## Skeletons -/

/-- The control flow of a statement, with the reads of the incoming value and
the stores to the slot of a parameter. -/
inductive Skeleton where
  | code (reads : Bool)
  | store
  | stop (reads : Bool)
  | leave
  | again
  | seq (first rest : Skeleton)
  | branch (reads : Bool) (yes no : Skeleton)
  | loop (reads : Bool) (body : Skeleton)
  deriving DecidableEq, Repr

/-- Whether a read can be reached from where control leaves a statement. -/
structure Exits where
  next : Bool
  onBreak : Bool
  onContinue : Bool

def Exits.none : Exits := ⟨false, false, false⟩

namespace Skeleton

def ends : Skeleton → Bool
  | .stop _ | .leave | .again => true
  | .seq _ rest => rest.ends
  | _ => false

/-- A read can be reached from the start. A loop that comes back to its test
reaches nothing that the first round does not reach. -/
def reaches : Skeleton → Exits → Bool
  | .code reads, k => reads || k.next
  | .store, k => k.next
  | .stop reads, _ => reads
  | .leave, k => k.onBreak
  | .again, k => k.onContinue
  | .seq first rest, k => first.reaches { k with next := rest.reaches k }
  | .branch reads yes no, k => reads || yes.reaches k || no.reaches k
  | .loop reads body, k => reads || k.next || body.reaches ⟨false, k.next, false⟩

/-- A read can be reached from a store. -/
def stale : Skeleton → Exits → Bool
  | .store, k => k.next
  | .seq first rest, k => first.stale { k with next := rest.reaches k } || rest.stale k
  | .branch _ yes no, k => yes.stale k || no.stale k
  | .loop reads body, k =>
    let test := (Skeleton.loop reads body).reaches k
    body.stale ⟨test, k.next, test⟩
  | _, _ => false

theorem reaches_round {reads : Bool} {body : Skeleton} {k : Exits} {test : Bool}
    (htest : test = (Skeleton.loop reads body).reaches k)
    (h : body.reaches ⟨test, k.next, test⟩ = true) : test = true := by
  cases test with
  | true => rfl
  | false =>
    rw [reaches, h, Bool.or_true] at htest
    exact htest

end Skeleton

/-! ## The skeleton of a piece -/

namespace Tree

def reads (x : String) (ph : Phase) (t : Tree) : Bool := ph.fresh && (Piece.one t).mentions x

mutual

def trace (x : String) : Tree → Phase → Skeleton × Phase
  | .node site children, ph =>
    match site.kind, children with
    | .variableDeclaration, [_] => (.code false, if site.name = x then ph.redeclare else ph)
    | .variableDeclaration, [_, init] =>
      let ph' := if site.name = x then ph.redeclare else ph
      (.code (init.reads x ph'), ph')
    | .assignment, [_, rhs] =>
      if site.name = x then (if ph.redeclared then .code false else .store, ph.assign)
      else (.code (rhs.reads x ph), ph)
    | .returnStatement, [] => (.stop false, ph)
    | .returnStatement, [t] => (.stop (t.reads x ph), ph)
    | .whileStatement, [test, body] =>
      (.loop (test.reads x ph) (body.trace x ph).1, (body.trace x ph).2)
    | .statement, [] => (if site.name = "break" then .leave else .again, ph)
    | .statement, [test, yes] =>
      (.branch (test.reads x ph) (yes.trace x ph).1 (.code false), (yes.trace x ph).2)
    | .statement, [test, yes, no] =>
      (.branch (test.reads x ph) (yes.trace x ph).1 (no.trace x (yes.trace x ph).2).1,
        (no.trace x (yes.trace x ph).2).2)
    | .functionCall, ts => (.code (ph.fresh && (Piece.many ts).mentions x), ph)
    | .block, ts => traceAll x ts ph
    | _, _ => (.code false, ph)

def traceAll (x : String) : List Tree → Phase → Skeleton × Phase
  | [], ph => (.code false, ph)
  | t :: ts, ph =>
    if (t.trace x ph).1.ends then t.trace x ph
    else
      (.seq (t.trace x ph).1 (traceAll x ts (t.trace x ph).2).1,
        (traceAll x ts (t.trace x ph).2).2)

end

end Tree

def Piece.trace (x : String) : Piece → Phase → Skeleton × Phase
  | .one t => t.trace x
  | .many ts => Tree.traceAll x ts

/-- In a function, a read of the incoming value of a parameter can be reached
from a store to its slot. -/
def Tree.readsStale (x : String) (f : Tree) : Bool :=
  ((Piece.many f.statements).trace x .entry).1.stale .none

/-! ## The forms of statements -/

section Forms

variable {x : String} {ph : Phase} {site : Site} {t test yes no : Tree} {ts : List Tree}

theorem Site.eq_of_kind {k : Kind} (h : site.kind = k) : site = ⟨k, site.name, site.location⟩ := by
  cases h
  rfl

theorem Tree.trace_of_block (h : t.kind = .block) :
    t.trace x ph = Tree.traceAll x t.children ph := by
  cases t with
  | node site ts =>
    rw [Site.eq_of_kind (show site.kind = .block from h)]
    rfl

theorem Tree.trace_arm (no : Tree) (ph : Phase) : no.arm.trace x ph = no.trace x ph := by
  unfold Tree.arm
  split
  · rw [Tree.trace_of_block ‹_›]
    rfl
  · rfl

namespace Piece

theorem trace_declare (kind : site.kind = .variableDeclaration) :
    (one (.node site [t])).trace x ph =
      (.code false, if site.name = x then ph.redeclare else ph) := by
  rw [Site.eq_of_kind kind]
  rfl

theorem trace_initialise {init : Tree} (kind : site.kind = .variableDeclaration) :
    (one (.node site [t, init])).trace x ph =
      (.code (init.reads x (if site.name = x then ph.redeclare else ph)),
        if site.name = x then ph.redeclare else ph) := by
  rw [Site.eq_of_kind kind]
  rfl

theorem trace_assign {op rhs : Tree} (kind : site.kind = .assignment) :
    (one (.node site [op, rhs])).trace x ph =
      if site.name = x then (if ph.redeclared then .code false else .store, ph.assign)
      else (.code (rhs.reads x ph), ph) := by
  rw [Site.eq_of_kind kind]
  rfl

theorem phase_assign {op rhs : Tree} (kind : site.kind = .assignment) :
    ((one (.node site [op, rhs])).trace x ph).2 = if site.name = x then ph.assign else ph := by
  rw [trace_assign kind]
  split <;> rfl

theorem ends_assign {op rhs : Tree} (kind : site.kind = .assignment) :
    ((one (.node site [op, rhs])).trace x ph).1.ends = false := by
  rw [trace_assign kind]
  split
  · split <;> rfl
  · rfl

theorem trace_returnNone (kind : site.kind = .returnStatement) :
    (one (.node site [])).trace x ph = (.stop false, ph) := by
  rw [Site.eq_of_kind kind]
  rfl

theorem trace_returnValue (kind : site.kind = .returnStatement) :
    (one (.node site [t])).trace x ph = (.stop (t.reads x ph), ph) := by
  rw [Site.eq_of_kind kind]
  rfl

theorem trace_loop {body : Tree} (kind : site.kind = .whileStatement) (block : body.kind = .block) :
    (one (.node site [test, body])).trace x ph =
      (.loop (test.reads x ph) ((many body.children).trace x ph).1,
        ((many body.children).trace x ph).2) := by
  rw [Site.eq_of_kind kind, trace, trace, ← Tree.trace_of_block block]
  rfl

theorem trace_ifThen (kind : site.kind = .statement) (block : yes.kind = .block) :
    (one (.node site [test, yes])).trace x ph =
      (.branch (test.reads x ph) ((many yes.children).trace x ph).1 (.code false),
        ((many yes.children).trace x ph).2) := by
  rw [Site.eq_of_kind kind, trace, trace, ← Tree.trace_of_block block]
  rfl

theorem trace_ifElse (kind : site.kind = .statement) (block : yes.kind = .block) :
    (one (.node site [test, yes, no])).trace x ph =
      (.branch (test.reads x ph) ((many yes.children).trace x ph).1
          (no.arm.trace x ((many yes.children).trace x ph).2).1,
        (no.arm.trace x ((many yes.children).trace x ph).2).2) := by
  have hyes : (many yes.children).trace x ph = yes.trace x ph := (Tree.trace_of_block block).symm
  rw [Site.eq_of_kind kind, hyes, Tree.trace_arm]
  rfl

theorem trace_leave (kind : site.kind = .statement) (named : site.name = "break") :
    (one (.node site [])).trace x ph = (.leave, ph) := by
  rw [Site.eq_of_kind kind, named]
  rfl

theorem trace_again (kind : site.kind = .statement) (named : site.name = "continue") :
    (one (.node site [])).trace x ph = (.again, ph) := by
  rw [Site.eq_of_kind kind, named]
  rfl

theorem trace_call (kind : site.kind = .functionCall) :
    (one (.node site ts)).trace x ph = (.code ((Tree.node site ts).reads x ph), ph) := by
  rw [Tree.reads, mentions_node, Site.eq_of_kind kind]
  rfl

theorem trace_block (kind : site.kind = .block) :
    (one (.node site ts)).trace x ph = (many ts).trace x ph := Tree.trace_of_block kind

theorem trace_nil : (many []).trace x ph = (.code false, ph) := rfl

theorem trace_ended (h : ((one t).trace x ph).1.ends = true) :
    (many (t :: ts)).trace x ph = (one t).trace x ph := if_pos h

theorem trace_cons (h : ((one t).trace x ph).1.ends = false) :
    (many (t :: ts)).trace x ph =
      (.seq ((one t).trace x ph).1 ((many ts).trace x ((one t).trace x ph).2).1,
        ((many ts).trace x ((one t).trace x ph).2).2) :=
  if_neg (Bool.eq_false_iff.mp h)

end Piece

end Forms

/-! ## Names that no loop assigns -/

def Exits.any (k : Exits) : Bool := k.next || k.onBreak || k.onContinue

namespace Skeleton

def silent : Skeleton → Bool
  | .code reads | .stop reads => !reads
  | .store | .leave | .again => true
  | .seq first rest => first.silent && rest.silent
  | .branch reads yes no => !reads && yes.silent && no.silent
  | .loop reads body => !reads && body.silent

theorem any_of_next {rest : Skeleton} {k : Exits} (hrest : rest.reaches k = true → k.any = true)
    (h : Exits.any { k with next := rest.reaches k } = true) : k.any = true := by
  simp only [Exits.any, Bool.or_eq_true] at h hrest ⊢
  rcases h with (hnext | hbreak) | hcontinue
  · exact hrest hnext
  · exact .inl (.inr hbreak)
  · exact .inr hcontinue

theorem any_of_reaches {s : Skeleton} {k : Exits} (hs : s.silent = true)
    (h : s.reaches k = true) : k.any = true := by
  induction s generalizing k with
  | code reads => simp_all [silent, reaches, Exits.any]
  | store => simp_all [reaches, Exits.any]
  | stop reads => simp_all [silent, reaches]
  | leave => simp_all [reaches, Exits.any]
  | again => simp_all [reaches, Exits.any]
  | seq first rest ih₁ ih₂ =>
    obtain ⟨hfirst, hrest⟩ := Bool.and_eq_true_iff.mp hs
    exact any_of_next (ih₂ hrest) (ih₁ hfirst h)
  | branch reads yes no ih₁ ih₂ =>
    simp only [silent, Bool.and_eq_true, Bool.not_eq_true'] at hs
    simp only [reaches, hs.1.1, Bool.false_or, Bool.or_eq_true] at h
    exact h.elim (ih₁ hs.1.2) (ih₂ hs.2)
  | loop reads body ih =>
    simp only [silent, Bool.and_eq_true, Bool.not_eq_true'] at hs
    simp only [reaches, hs.1, Bool.false_or, Bool.or_eq_true] at h
    rcases h with hnext | hbody
    · simp [Exits.any, hnext]
    · have hany := ih hs.2 hbody
      simp only [Exits.any, Bool.false_or, Bool.or_false] at hany
      simp [Exits.any, hany]

/-- From one phase to another: a name that is not fresh stays so and is not
read, a store is an assignment (`A`) behind which the name is not fresh, and
without an assignment in a loop (`L`) a store reaches reads only through the
exits. -/
structure Settles (A L : Prop) (ph : Phase) (s : Skeleton) (ph' : Phase) : Prop where
  silent : ph.fresh = false → s.silent = true ∧ ph'.fresh = false
  stored : ∀ k, s.stale k = true → A ∧ ph'.fresh = false
  exits : ¬ L → ∀ k, s.stale k = true → k.any = true

namespace Settles

variable {A A' L L' : Prop} {ph ph₁ ph₂ : Phase} {reads : Bool}
  {s first rest yes no body : Skeleton}

theorem mono (h : Settles A L ph s ph₁) (hA : A → A') (hL : L → L') : Settles A' L' ph s ph₁ where
  silent := h.silent
  stored k hk := (h.stored k hk).imp_left hA
  exits hl := h.exits fun hl' => hl (hL hl')

theorem plain (hstale : ∀ k, s.stale k = false)
    (hs : ph.fresh = false → s.silent = true ∧ ph₁.fresh = false) : Settles A L ph s ph₁ where
  silent := hs
  stored k hk := absurd hk (Bool.eq_false_iff.mp (hstale k))
  exits _ k hk := absurd hk (Bool.eq_false_iff.mp (hstale k))

theorem store (hA : A) (hph : ph₁.fresh = false) : Settles A L ph .store ph₁ where
  silent _ := ⟨rfl, hph⟩
  stored _ _ := ⟨hA, hph⟩
  exits _ k hk := by simp [Exits.any, show k.next = true from hk]

theorem seq (h : Settles A L ph first ph₁) (h' : Settles A L ph₁ rest ph₂) :
    Settles A L ph (.seq first rest) ph₂ where
  silent hph := by
    obtain ⟨hfirst, hph₁⟩ := h.silent hph
    obtain ⟨hrest, hph₂⟩ := h'.silent hph₁
    exact ⟨Bool.and_eq_true_iff.mpr ⟨hfirst, hrest⟩, hph₂⟩
  stored k hk := by
    rcases Bool.or_eq_true_iff.mp hk with hk | hk
    · obtain ⟨hA, hph₁⟩ := h.stored _ hk
      exact ⟨hA, (h'.silent hph₁).2⟩
    · exact h'.stored k hk
  exits hl k hk := by
    rcases Bool.or_eq_true_iff.mp hk with hk | hk
    · -- Behind the store the name is not fresh, so what follows does not read it.
      have hsilent := (h'.silent (h.stored _ hk).2).1
      exact any_of_next (any_of_reaches hsilent) (h.exits hl _ hk)
    · exact h'.exits hl k hk

theorem branch (hreads : ph.fresh = false → reads = false) (h : Settles A L ph yes ph₁)
    (h' : Settles A L ph₁ no ph₂) : Settles A L ph (.branch reads yes no) ph₂ where
  silent hph := by
    obtain ⟨hyes, hph₁⟩ := h.silent hph
    obtain ⟨hno, hph₂⟩ := h'.silent hph₁
    exact ⟨by simp [Skeleton.silent, hreads hph, hyes, hno], hph₂⟩
  stored k hk := by
    rcases Bool.or_eq_true_iff.mp hk with hk | hk
    · obtain ⟨hA, hph₁⟩ := h.stored _ hk
      exact ⟨hA, (h'.silent hph₁).2⟩
    · exact h'.stored k hk
  exits hl k hk := (Bool.or_eq_true_iff.mp hk).elim (h.exits hl k) (h'.exits hl k)

theorem loop (hreads : ph.fresh = false → reads = false) (h : Settles A L ph body ph₁)
    (hA : A → L') : Settles A L' ph (.loop reads body) ph₁ where
  silent hph := by
    obtain ⟨hbody, hph₁⟩ := h.silent hph
    exact ⟨by simp [Skeleton.silent, hreads hph, hbody], hph₁⟩
  stored _ hk := h.stored _ hk
  exits hl _ hk := absurd (hA (h.stored _ hk).1) hl

end Settles

end Skeleton

theorem Tree.reads_of_not_fresh {x : String} {ph : Phase} (t : Tree) (h : ph.fresh = false) :
    t.reads x ph = false := by
  rw [Tree.reads, h, Bool.false_and]

theorem Phase.fresh_if_redeclare {ph : Phase} (c : Prop) [Decidable c] (h : ph.fresh = false) :
    (if c then ph.redeclare else ph).fresh = false := by
  split
  · exact ph.fresh_redeclare
  · exact h

theorem Tree.assigned_child {site : Site} {t : Tree} {ts : List Tree} (ht : t ∈ ts) :
    t.assigned ⊆ (Tree.node site ts).assigned := by
  intro x hx
  obtain ⟨a, ha, hkind⟩ := Tree.mem_assigned.mp hx
  exact Tree.mem_assigned.mpr ⟨a, Tree.mem_subtrees_node.mpr (.inr ⟨t, ht, ha⟩), hkind⟩

theorem Piece.looped_child {site : Site} {t : Tree} {ts : List Tree} (ht : t ∈ ts) :
    (Piece.one t).looped ⊆ (Piece.one (.node site ts)).looped :=
  looped_mono fun _ hc => subtrees_one ht (fun _ h => h) hc

theorem Skeleton.Settles.child {x : String} {site : Site} {t : Tree} {ts : List Tree}
    {ph ph' : Phase} {s : Skeleton}
    (h : Settles (x ∈ t.assigned) (x ∈ (Piece.one t).looped) ph s ph') (ht : t ∈ ts) :
    Settles (x ∈ (Tree.node site ts).assigned) (x ∈ (Piece.one (.node site ts)).looped) ph s ph' :=
  h.mono (fun h => Tree.assigned_child ht h) (fun h => Piece.looped_child ht h)

mutual

theorem Tree.settles_trace (x : String) : ∀ (t : Tree) (ph : Phase),
    Skeleton.Settles (x ∈ t.assigned) (x ∈ (Piece.one t).looped) ph (t.trace x ph).1
      (t.trace x ph).2
  | .node site ts, ph => by
    rw [Tree.trace.eq_def]
    dsimp only
    split
    · exact .plain (fun _ => rfl) fun h => ⟨rfl, Phase.fresh_if_redeclare _ h⟩
    · rename_i init _
      refine .plain (fun _ => rfl) fun h => ?_
      have h' := Phase.fresh_if_redeclare (site.name = x) h
      exact ⟨by rw [init.reads_of_not_fresh h']; rfl, h'⟩
    · rename_i rhs kind
      -- The target is promoted before its right side is read.
      split
      · split
        · exact .plain (fun _ => rfl) fun _ => ⟨rfl, ph.fresh_assign⟩
        · refine .store (Tree.mem_assigned.mpr ?_) ph.fresh_assign
          exact ⟨_, Tree.mem_subtrees_self _, kind, ‹_›⟩
      · exact .plain (fun _ => rfl) fun h => ⟨by rw [rhs.reads_of_not_fresh h]; rfl, h⟩
    · exact .plain (fun _ => rfl) fun h => ⟨rfl, h⟩
    · rename_i t _
      exact .plain (fun _ => rfl) fun h => ⟨by rw [t.reads_of_not_fresh h]; rfl, h⟩
    · rename_i test body kind
      have hbody := Tree.settles_trace x body ph
      exact (hbody.loop test.reads_of_not_fresh (Piece.mem_looped_body kind)).mono
        (fun h => Tree.assigned_child (by simp) h) (fun h => h)
    · refine .plain (fun k => ?_) fun h => ⟨?_, h⟩
      · split <;> rfl
      · split <;> rfl
    · rename_i test yes _
      refine .branch test.reads_of_not_fresh ((Tree.settles_trace x yes ph).child (by simp)) ?_
      exact .plain (fun _ => rfl) fun h => ⟨rfl, h⟩
    · rename_i test yes no _
      exact .branch test.reads_of_not_fresh ((Tree.settles_trace x yes ph).child (by simp))
        ((Tree.settles_trace x no _).child (by simp))
    · refine .plain (fun _ => rfl) fun h => ⟨?_, h⟩
      rw [h]
      rfl
    · refine (Tree.settles_traceAll x _ ph).mono ?_ (fun h => Piece.looped_children h)
      rintro ⟨t, ht, hx⟩
      exact Tree.assigned_child ht hx
    · exact .plain (fun _ => rfl) fun h => ⟨rfl, h⟩

theorem Tree.settles_traceAll (x : String) : ∀ (ts : List Tree) (ph : Phase),
    Skeleton.Settles (∃ t ∈ ts, x ∈ t.assigned) (x ∈ (Piece.many ts).looped) ph
      (Tree.traceAll x ts ph).1 (Tree.traceAll x ts ph).2
  | [], ph => by
    rw [Tree.traceAll.eq_def]
    exact .plain (fun _ => rfl) fun h => ⟨rfl, h⟩
  | t :: ts, ph => by
    have hfirst := (Tree.settles_trace x t ph).mono
      (fun h => (⟨t, List.mem_cons_self .., h⟩ : ∃ t' ∈ t :: ts, x ∈ t'.assigned))
      (fun h => Piece.looped_mono (q := .many (t :: ts)) (List.subset_append_left _ _) h)
    rw [Tree.traceAll.eq_def]
    dsimp only
    split
    · exact hfirst
    · refine hfirst.seq ((Tree.settles_traceAll x ts _).mono ?_ ?_)
      · rintro ⟨t', ht', hx⟩
        exact ⟨t', List.mem_cons_of_mem _ ht', hx⟩
      · exact fun h => Piece.looped_mono (List.subset_append_right _ _) h

end

/-- Only a parameter that is assigned in a loop is read stale. -/
theorem Tree.looped_of_readsStale {x : String} {f : Tree} (h : f.readsStale x = true) :
    x ∈ (Piece.many f.statements).looped := by
  refine Decidable.by_contra fun hloop => ?_
  cases (Tree.settles_traceAll x f.statements .entry).exits hloop _ h

end TreeFlow
