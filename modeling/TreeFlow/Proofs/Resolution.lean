import Mathlib.Data.List.Induction
import TreeFlow.Proofs.Entry
import TreeFlow.Proofs.Linking
import TreeFlow.Proofs.Trails

/-!
# What names mean

Between two statements a name means what the lowering so far has made of it. Its last
declaration in the body counts. Without one, a parameter counts, by its slot once it
has been assigned and by its value before. Then come the constants defined above the
function. The histories of two functions have nothing in common, so a local hides a
constant to the end of its function and in no other one.
-/

set_option autoImplicit false

namespace TreeFlow

variable {ts : List Tree} {site : Site}

/-! ## Slots of a passage -/

def LowerState.slots (s : LowerState) : List Slot :=
  (s.function.bind s.module.function?).elim [] Function.slots

def Slot.storage (s : Slot) : Storage := .slot s.pointer s.ty

namespace Passage

def slots (p : Passage) : List Slot := p.behind.slots.drop p.before.slots.length

def Is (p : Passage) (kind : Kind) (n : String) : Prop :=
  p.statement.kind = kind ∧ p.statement.name = n

instance (p : Passage) (kind : Kind) (n : String) : Decidable (p.Is kind n) :=
  inferInstanceAs (Decidable (_ ∧ _))

theorem Is.not_declaration {p : Passage} {n x : String} (h : p.Is .assignment n) :
    ¬p.Is .variableDeclaration x := by
  intro hd
  cases h.1.symm.trans hd.1

end Passage

/-- The slots that the assignments to a name have allocated. -/
def promotions (n : String) (history : List Passage) : List Slot :=
  (history.filter fun p => p.Is .assignment n).flatMap Passage.slots

/-! ## Resolution -/

section Resolution

variable (constants : List (String × Int)) (params : List Param) (history : List Passage)
  (n : String)

/-- What a name means after some statements, given the parameters of the function and
the constants above it, the latest first. -/
inductive Resolves : Option Binding → Prop
  | declared {before after : List Passage} {p : Passage} {slot : Slot}
      (split : history = before ++ p :: after) (declares : p.Is .variableDeclaration n)
      (last : ∀ q ∈ after, ¬q.Is .variableDeclaration n) (allocated : p.slots = [slot]) :
      Resolves (some (.stored slot.storage))
  | promoted {slot : Slot} (undeclared : ∀ q ∈ history, ¬q.Is .variableDeclaration n)
      (parameter : ∃ p ∈ params, p.name = n) (assigned : ∃ q ∈ history, q.Is .assignment n)
      (allocated : promotions n history = [slot]) : Resolves (some (.stored slot.storage))
  | parameter {i : Nat} {p : Param} (undeclared : ∀ q ∈ history, ¬q.Is .variableDeclaration n)
      (unassigned : ∀ q ∈ history, ¬q.Is .assignment n) (place : params[i]? = some p)
      (named : p.name = n) (last : ∀ j q, i < j → params[j]? = some q → q.name ≠ n) :
      Resolves (some (.stored (.register (.param i p.ty))))
  | constant {k : Int} (undeclared : ∀ q ∈ history, ¬q.Is .variableDeclaration n)
      (unnamed : ∀ p ∈ params, p.name ≠ n) (defined : constants.lookup n = some k) :
      Resolves (some (.constant k))
  | nothing (undeclared : ∀ q ∈ history, ¬q.Is .variableDeclaration n)
      (unnamed : ∀ p ∈ params, p.name ≠ n) (undefined : constants.lookup n = none) :
      Resolves none

end Resolution

namespace Resolves

variable {constants : List (String × Int)} {params : List Param} {history : List Passage}
  {n : String} {p : Passage}

theorem forall_concat {P : Passage → Prop} (h : ∀ q ∈ history, P q) (hp : P p) :
    ∀ q ∈ history ++ [p], P q :=
  List.forall_mem_append.mpr ⟨h, List.forall_mem_singleton.mpr hp⟩

theorem promotions_concat_of_not (h : ¬p.Is .assignment n) :
    promotions n (history ++ [p]) = promotions n history := by
  simp [promotions, h]

theorem promotions_concat (h : p.Is .assignment n) :
    promotions n (history ++ [p]) = promotions n history ++ p.slots := by
  simp [promotions, h]

theorem promotions_of_unassigned (h : ∀ q ∈ history, ¬q.Is .assignment n) :
    promotions n history = [] := by
  simpa [promotions] using fun q hq hassign => absurd hassign (h q hq)

theorem other {b : Option Binding} (h : Resolves constants params history n b)
    (hdeclare : ¬p.Is .variableDeclaration n) (hassign : ¬p.Is .assignment n) :
    Resolves constants params (history ++ [p]) n b := by
  cases h with
  | @declared before after q slot split declares last allocated =>
    have hsplit : history ++ [p] = before ++ q :: (after ++ [p]) := by simp [split]
    exact .declared hsplit declares (forall_concat last hdeclare) allocated
  | promoted undeclared parameter assigned allocated =>
    obtain ⟨q, hq, hassigned⟩ := assigned
    rw [← promotions_concat_of_not hassign] at allocated
    exact .promoted (forall_concat undeclared hdeclare) parameter ⟨q, by simp [hq], hassigned⟩
      allocated
  | parameter undeclared unassigned place named last =>
    exact .parameter (forall_concat undeclared hdeclare) (forall_concat unassigned hassign) place
      named last
  | constant undeclared unnamed defined =>
    exact .constant (forall_concat undeclared hdeclare) unnamed defined
  | nothing undeclared unnamed undefined =>
    exact .nothing (forall_concat undeclared hdeclare) unnamed undefined

theorem declare {slot : Slot} (h : p.Is .variableDeclaration n) (hslot : p.slots = [slot]) :
    Resolves constants params (history ++ [p]) n (some (.stored slot.storage)) :=
  .declared rfl h (by simp) hslot

theorem assign {q : Value} {ty : Ty}
    (h : Resolves constants params history n (some (.stored (.slot q ty))))
    (hassign : p.Is .assignment n) (hslots : p.slots = []) :
    Resolves constants params (history ++ [p]) n (some (.stored (.slot q ty))) := by
  have hdeclare : ¬p.Is .variableDeclaration n := hassign.not_declaration
  generalize hb : some (Binding.stored (.slot q ty)) = b at h ⊢
  cases h with
  | @declared before after d slot split declares last allocated =>
    have hsplit : history ++ [p] = before ++ d :: (after ++ [p]) := by simp [split]
    exact .declared hsplit declares (forall_concat last hdeclare) allocated
  | promoted undeclared parameter assigned allocated =>
    refine .promoted (forall_concat undeclared hdeclare) parameter ⟨p, by simp, hassign⟩ ?_
    rw [promotions_concat hassign, hslots, allocated]
    rfl
  | parameter => cases hb
  | constant => cases hb
  | nothing => cases hb

theorem promote {v : Value} {slot : Slot}
    (h : Resolves constants params history n (some (.stored (.register v))))
    (hassign : p.Is .assignment n) (hslots : p.slots = [slot]) :
    Resolves constants params (history ++ [p]) n (some (.stored slot.storage)) := by
  have hdeclare : ¬p.Is .variableDeclaration n := hassign.not_declaration
  generalize hb : some (Binding.stored (.register v)) = b at h
  cases h with
  | declared => cases hb
  | promoted => cases hb
  | parameter undeclared unassigned place named _ =>
    refine .promoted (forall_concat undeclared hdeclare)
      ⟨_, List.mem_of_getElem? place, named⟩ ⟨p, by simp, hassign⟩ ?_
    rw [promotions_concat hassign, promotions_of_unassigned unassigned, hslots]
    rfl
  | constant => cases hb
  | nothing => cases hb

end Resolves

/-! ## What statements do to names -/

theorem Scope.lookup_bind (c : Scope) (name x : String) (storage : Storage) :
    (c.bind name storage).lookup x = if x = name then some (.stored storage) else c.lookup x := by
  by_cases hx : x = name
  · rw [if_pos hx, Scope.lookup, Scope.local?_bind, if_pos hx]
  · rw [if_neg hx, Scope.lookup, Scope.local?_bind, if_neg hx]
    rfl

theorem LowerState.In.slots {s : LowerState} {id : Nat} {f : Function} (h : s.In id f) :
    s.slots = f.slots := by
  rw [LowerState.slots, h.function, Option.bind_some, h.found, Option.elim_some]

namespace Lower

variable {s t u : LowerState}

theorem Emission.slots (h : Emission s t) : t.slots = s.slots := by
  cases h with
  | note => rfl
  | depth => rfl
  | intrinsic =>
    unfold LowerState.slots
    cases s.function with
    | none => rfl
    | some id =>
      rw [Option.bind_some, Option.bind_some, Module.function?_declare]
      split
      · have hnone : s.module.function? id = none := List.getElem?_eq_none (by omega)
        rw [hnone]
        rfl
      · rfl
  | format => rfl
  | define here =>
    rw [(here.toIn.put _).slots, here.toIn.slots]
    rfl
  | perform here =>
    rw [(here.toIn.put _).slots, here.toIn.slots]
    rfl

theorem Emissions.slots (h : Emissions s t) : t.slots = s.slots := by
  induction h with
  | refl => rfl
  | tail _ hstep ih => exact hstep.slots.trans ih

theorem variableSlot_binds {site type : Site} {r : Value × Ty}
    (h : variableSlot site type s = .ok r t) :
    ∃ slot : Slot, t.scope = s.scope.bind site.name slot.storage ∧ t.slots = s.slots ++ [slot] := by
  obtain ⟨-, -, -, id, f, hin, -, -, rfl⟩ := variableSlot_ok h
  have hin' : (withSlot s site.name id f r.2).In id (f.addSlot r.2) :=
    ⟨hin.function, (hin.put _).found⟩
  exact ⟨⟨f.registers, r.2⟩, rfl, by rw [hin'.slots, hin.slots]; rfl⟩

theorem variableDeclaration_binds (h : variableDeclaration site ts s = .ok () u) :
    ∃ slot : Slot, u.scope = s.scope.bind site.name slot.storage ∧ u.slots = s.slots ++ [slot] := by
  unfold variableDeclaration at h
  split at h
  · obtain ⟨r, t, ht, h⟩ := bind_ok.mp h
    cases h
    exact variableSlot_binds ht
  · rename_i type init
    obtain ⟨r, t, ht, h⟩ := bind_ok.mp h
    obtain ⟨slot, hscope, hslots⟩ := variableSlot_binds ht
    have hrest : Emitting (do
        let v ← expression init
        lift (checkStore init.site v.ty r.2)
        store v r.1) :=
      emitting_bind (emitting_expression init) fun v => emitting_bind (emitting_lift _) fun _ =>
        emitting_store _ _
    have hrun := hrest.run h
    exact ⟨slot, by rw [hrun.scope, hscope], by rw [hrun.slots, hslots]⟩
  · cases h

theorem assignment_ok (h : assignment site ts s = .ok () u) :
    ∃ r t v, assignedSlot site s = .ok r t ∧ Emissions t v ∧
      u = { v with scope := v.scope.bind site.name (.slot r.1 r.2) } := by
  unfold assignment at h
  split at h
  · rename_i op rhs
    obtain ⟨_, s₁, hs₁, h₁⟩ := bind_ok.mp h
    obtain ⟨-, rfl⟩ := lift_ok.mp hs₁
    obtain ⟨update, s₂, hs₂, h₂⟩ := bind_ok.mp h₁
    obtain ⟨-, rfl⟩ := lift_ok.mp hs₂
    obtain ⟨r, t, ht, h₃⟩ := bind_ok.mp h₂
    obtain ⟨old, t₁, ht₁, h₄⟩ := bind_ok.mp h₃
    obtain ⟨new, t₂, ht₂, h₅⟩ := bind_ok.mp h₄
    obtain ⟨_, t₃, ht₃, h₆⟩ := bind_ok.mp h₅
    obtain ⟨-, rfl⟩ := lift_ok.mp ht₃
    have hvalue := ((emitting_load _ _).run ht₁).trans ((emitting_expression rhs).run ht₂)
    cases update with
    | replace =>
      obtain ⟨_, t₄, ht₄, h₇⟩ := bind_ok.mp h₆
      cases ht₄
      obtain ⟨_, v, hv, h₈⟩ := bind_ok.mp h₇
      cases h₈
      exact ⟨r, t, v, ht, hvalue.trans ((emitting_store _ _).run hv), rfl⟩
    | combine op =>
      obtain ⟨_, t₄, ht₄, h₇⟩ := bind_ok.mp h₆
      obtain ⟨_, v, hv, h₈⟩ := bind_ok.mp h₇
      cases h₈
      have hresult := hvalue.trans ((emitting_binary _ _ _).run ht₄)
      exact ⟨r, t, v, ht, hresult.trans ((emitting_store _ _).run hv), rfl⟩
  · cases h

theorem declaration_binds (kind : site.kind = .variableDeclaration)
    (h : statement (.node site ts) s = .ok () u) :
    ∃ slot : Slot, u.scope = s.scope.bind site.name slot.storage ∧ u.slots = s.slots ++ [slot] := by
  rw [statement_declaration kind] at h
  obtain ⟨-, v, hv, rfl⟩ := nested_ok.mp h
  obtain ⟨slot, hscope, hslots⟩ := variableDeclaration_binds hv
  exact ⟨slot, hscope, hslots⟩

theorem assignment_binds (kind : site.kind = .assignment)
    (h : statement (.node site ts) s = .ok () u) :
    (∃ p ty, s.scope.lookup site.name = some (.stored (.slot p ty)) ∧ u.slots = s.slots ∧
      u.scope = s.scope.bind site.name (.slot p ty)) ∨
    ∃ v slot, s.scope.lookup site.name = some (.stored (.register v)) ∧
      u.slots = s.slots ++ [slot] ∧
        u.scope = (s.scope.bind site.name slot.storage).bind site.name slot.storage := by
  rw [statement_assignment kind] at h
  obtain ⟨-, w, hw, rfl⟩ := nested_ok.mp h
  obtain ⟨r, t, v, ht, hrun, rfl⟩ := assignment_ok hw
  have hslots : t.slots = LowerState.slots _ := hrun.slots.symm
  have hscope : v.scope.bind site.name (.slot r.1 r.2) =
      t.scope.bind site.name (.slot r.1 r.2) := by rw [hrun.scope]
  rcases assignedSlot_ok ht with ⟨hslot, rfl⟩ | ⟨x, hregister, hpromote⟩
  · exact .inl ⟨r.1, r.2, hslot, hslots.symm, hscope⟩
  · obtain ⟨id, f, hin, -, rfl, rfl⟩ := promote_ok hpromote
    have hin' : (withPromoted (deeper s) site.name id f x).In id
        ((f.addSlot x.ty).addSeed x (.reg f.registers (.ptr x.ty))) :=
      ⟨hin.function, (hin.put _).found⟩
    refine .inr ⟨x, ⟨f.registers, x.ty⟩, hregister, hslots.symm.trans ?_, hscope⟩
    rw [hin'.slots]
    exact congrArg (· ++ [_]) hin.slots.symm

theorem still_returnStatement (site : Site) (ts : List Tree) : Still (returnStatement site ts) := by
  rcases ts with _ | ⟨c, _ | ⟨d, ts⟩⟩
  · exact still_terminate _
  · exact (emitting_expression c).still.bind fun _ => still_terminate _
  · exact still_throw _

theorem still_jump (site : Site) (outside : Cause) (target : LoopTargets → Nat) (ts : List Tree) :
    Still (jump site outside target ts) := by
  rcases ts with _ | ⟨c, ts⟩
  · have hloop : Still innermostLoop := fun _ _ _ hr => by
      cases hr
      rfl
    refine hloop.bind fun l => ?_
    cases l with
    | none => exact still_throw _
    | some l => exact still_terminate _
  · exact still_throw _

theorem still_statement {t : Tree} (hsimple : t.Simple) (hdeclare : t.kind ≠ .variableDeclaration)
    (hassign : t.kind ≠ .assignment) : Still (statement t) := by
  obtain ⟨site, ts⟩ := t
  obtain ⟨act, hform, heq⟩ := statement_form site ts
  rw [heq]
  refine Still.nested ?_ site
  cases hform with
  | declare kind => exact absurd kind hdeclare
  | assign kind => exact absurd kind hassign
  | returns => exact still_returnStatement site ts
  | loop kind => exact absurd kind hsimple.notLoop
  | ifThen kind name => exact absurd name (hsimple.notIf kind)
  | ifElse kind name => exact absurd name (hsimple.notIf kind)
  | leave => exact still_jump ..
  | again => exact still_jump ..
  | call => exact (emitting_bind (emitting_functionCall _) fun _ => emitting_pure _).still
  | block kind => exact absurd kind hsimple.notBlock
  | refused => exact still_throw _

end Lower

open Lower

section Passing

variable {constants : List (String × Int)} {params : List Param} {history : List Passage}
  {t : Tree} {s u : LowerState}

theorem Passage.slots_of_append {slots : List Slot} (h : u.slots = s.slots ++ slots) :
    (⟨t, s, u⟩ : Passage).slots = slots := by
  rw [Passage.slots, h, List.drop_left]

theorem Resolves.passed_declaration (kind : site.kind = .variableDeclaration)
    (hr : Lower.statement (.node site ts) s = .ok () u)
    (h : ∀ n, Resolves constants params history n (s.scope.lookup n)) (n : String) :
    Resolves constants params (history ++ [⟨.node site ts, s, u⟩]) n (u.scope.lookup n) := by
  obtain ⟨slot, hscope, hslots⟩ := declaration_binds kind hr
  rw [hscope, Scope.lookup_bind]
  by_cases hn : n = site.name
  · rw [if_pos hn]
    exact .declare ⟨kind, hn.symm⟩ (Passage.slots_of_append hslots)
  · rw [if_neg hn]
    refine (h n).other (fun hd => hn hd.2.symm) fun ha => ?_
    cases kind.symm.trans ha.1

theorem Resolves.passed_assignment (kind : site.kind = .assignment)
    (hr : Lower.statement (.node site ts) s = .ok () u)
    (h : ∀ n, Resolves constants params history n (s.scope.lookup n)) (n : String) :
    Resolves constants params (history ++ [⟨.node site ts, s, u⟩]) n (u.scope.lookup n) := by
  have hassigns : (⟨.node site ts, s, u⟩ : Passage).Is .assignment site.name := ⟨kind, rfl⟩
  by_cases hn : n = site.name
  · subst hn
    have htarget := h site.name
    rcases assignment_binds kind hr with
      ⟨p, ty, hl, hslots, hscope⟩ | ⟨v, slot, hl, hslots, hscope⟩
    · rw [hl] at htarget
      rw [hscope, Scope.lookup_bind, if_pos rfl]
      exact htarget.assign hassigns (Passage.slots_of_append (by rw [hslots, List.append_nil]))
    · rw [hl] at htarget
      rw [hscope, Scope.lookup_bind, if_pos rfl]
      exact htarget.promote hassigns (Passage.slots_of_append hslots)
  · have hsame : u.scope.lookup n = s.scope.lookup n := by
      rcases assignment_binds kind hr with ⟨_, _, -, -, hscope⟩ | ⟨_, _, -, -, hscope⟩
      · rw [hscope, Scope.lookup_bind, if_neg hn]
      · rw [hscope, Scope.lookup_bind, if_neg hn, Scope.lookup_bind, if_neg hn]
    rw [hsame]
    exact (h n).other hassigns.not_declaration fun ha => hn ha.2.symm

/-- A simple statement turns what names mean before it into what they mean behind it. -/
theorem Resolves.passed (hsimple : t.Simple) (hr : Lower.statement t s = .ok () u)
    (h : ∀ n, Resolves constants params history n (s.scope.lookup n)) (n : String) :
    Resolves constants params (history ++ [⟨t, s, u⟩]) n (u.scope.lookup n) := by
  by_cases hdeclare : t.kind = .variableDeclaration
  · obtain ⟨site, ts⟩ := t
    exact passed_declaration hdeclare hr h n
  · by_cases hassign : t.kind = .assignment
    · obtain ⟨site, ts⟩ := t
      exact passed_assignment hassign hr h n
    · rw [still_statement hsimple hdeclare hassign hr]
      exact (h n).other (fun hd => hdeclare hd.1) fun ha => hassign ha.1

end Passing

/-! ## Where a body starts -/

section Start

variable {constants : List (String × Int)} {ps : List Param} {n : String}

theorem Resolves.parameter_last (p : Param) :
    Resolves constants (ps ++ [p]) [] p.name
      (some (.stored (.register (.param ps.length p.ty)))) := by
  refine .parameter (by simp) (by simp) (by simp) rfl fun j q hj hq => ?_
  rw [List.getElem?_eq_none (by simp only [List.length_append, List.length_singleton]; omega)] at hq
  cases hq

theorem Resolves.parameter_other {b : Option Binding} (h : Resolves constants ps [] n b) {p : Param}
    (hp : p.name ≠ n) : Resolves constants (ps ++ [p]) [] n b := by
  have hall : (∀ q ∈ ps, q.name ≠ n) → ∀ q ∈ ps ++ [p], q.name ≠ n := fun h =>
    List.forall_mem_append.mpr ⟨h, List.forall_mem_singleton.mpr hp⟩
  cases h with
  | declared split => simp at split
  | promoted _ _ assigned => simp at assigned
  | @parameter i q undeclared unassigned place named last =>
    have hi := (List.getElem?_eq_some_iff.mp place).1
    refine .parameter undeclared unassigned ?_ named fun j r hj hr => ?_
    · rw [List.getElem?_append_left hi, place]
    · rcases List.getElem?_append.symm.trans hr with hr
      split at hr
      · exact last j r hj hr
      · have hr' := List.mem_of_getElem? hr
        rw [List.mem_singleton.mp hr']
        exact hp
  | constant undeclared unnamed defined => exact .constant undeclared (hall unnamed) defined
  | nothing undeclared unnamed undefined => exact .nothing undeclared (hall unnamed) undefined

theorem Resolves.start (scope : Scope) (ps : List Param) (n : String) :
    Resolves scope.constants ps [] n
      ((parameterScope scope (ps.zipIdx.map fun (p, i) => (p.name, .param i p.ty))).lookup n) := by
  induction ps using List.reverseRecOn with
  | nil =>
    change Resolves scope.constants [] [] n ((scope.constants.lookup n).map .constant)
    cases hdefined : scope.constants.lookup n with
    | none => exact .nothing (by simp) (by simp) hdefined
    | some k => exact .constant (by simp) (by simp) hdefined
  | append_singleton ps p ih =>
    rw [List.zipIdx_append, List.map_append, parameterScope, List.foldl_append]
    simp only [List.zipIdx_singleton, List.map_cons, List.map_nil, List.foldl_cons, List.foldl_nil,
      Nat.zero_add]
    rw [Scope.lookup_bind]
    split
    · subst_vars
      exact .parameter_last p
    · exact ih.parameter_other (Ne.symm ‹_›)

end Start

/-! ## Points of a run -/

def constantsOf (items : List Tree) : List (String × Int) :=
  (items.filterMap Tree.constant?).reverse

/-- The point lies in the body of a function of the program, and so does what has been
lowered before. -/
structure Waypoint.Within (p : Waypoint) (t f body : Tree) (sig : Signature) : Prop where
  item : t.children[p.item]? = some f
  kind : f.kind = .functionDeclaration
  signature : Lower.signature f.site f.children = .ok sig
  third : f.children[2]? = some body
  history : ∀ q ∈ p.history, q.statement ∈ body.subtrees

/-- At the point each name means what the history makes of it. -/
def Waypoint.Explained (p : Waypoint) (t : Tree) : Prop :=
  ∃ f body sig, p.Within t f body sig ∧ ∀ n, Resolves (constantsOf (t.children.take p.item))
    sig.params p.history n (p.state.scope.lookup n)

/-- The point comes before others in the body of an item: it lies in an item above, or
what has been lowered there is part of the history. -/
def Waypoint.Before (p : Waypoint) (item : Nat) (history : List Passage) : Prop :=
  p.item < item ∨ p.item = item ∧ p.history <+: history

structure Trail.Tidy (trail : Trail) (t : Tree) : Prop where
  explained : ∀ p ∈ trail.points, p.Explained t
  ordered : trail.points.Pairwise fun p q => p.Before q.item q.history

structure Trail.Explains (t : Tree) (k : Nat) (body : Tree) (sig : Signature) (trail : Trail)
    (scope : Scope) : Prop extends trail.Tidy t where
  item : trail.item = k
  history : ∀ q ∈ trail.history, q.statement ∈ body.subtrees
  names : ∀ n, Resolves (constantsOf (t.children.take k)) sig.params trail.history n
    (scope.lookup n)
  before : ∀ p ∈ trail.points, p.Before k trail.history

namespace Watched

variable {t f c : Tree} {k : Nat} {sig : Signature} {trail trail' : Trail} {s u : LowerState}

theorem keeping_explains (hitem : t.children[k]? = some f) (hkind : f.kind = .functionDeclaration)
    (hsig : signature f.site f.children = .ok sig) (hbody : f.children[2]? = some c) :
    Keeping (Trail.Explains t k c sig) c.subtrees where
  noted trail s h := by
    have hpoint : Waypoint.Explained ⟨trail.item, trail.history, s⟩ t :=
      ⟨f, c, sig, ⟨h.item ▸ hitem, hkind, hsig, hbody, h.history⟩, h.item ▸ h.names⟩
    have hbefore : Waypoint.Before ⟨trail.item, trail.history, s⟩ k trail.history :=
      .inr ⟨h.item, List.prefix_rfl⟩
    refine ⟨⟨?_, ?_⟩, h.item, h.history, h.names, ?_⟩
    · exact List.forall_mem_append.mpr ⟨h.explained, List.forall_mem_singleton.mpr hpoint⟩
    · refine List.pairwise_append.mpr ⟨h.ordered, List.pairwise_singleton _ _, fun p hp q hq => ?_⟩
      rw [List.mem_singleton.mp hq, h.item]
      exact h.before p hp
    · exact List.forall_mem_append.mpr ⟨h.before, List.forall_mem_singleton.mpr hbefore⟩
  passed q hq hsimple trail s u h hr := by
    refine ⟨⟨h.explained, h.ordered⟩, h.item, ?_, Resolves.passed hsimple hr h.names, ?_⟩
    · exact List.forall_mem_append.mpr ⟨h.history, List.forall_mem_singleton.mpr hq⟩
    · intro p hp
      refine (h.before p hp).imp_right fun hsame => ⟨hsame.1, ?_⟩
      exact hsame.2.trans (List.prefix_append _ _)

structure Done (t : Tree) (k : Nat) (trail : Trail) : Prop extends trail.Tidy t where
  above : ∀ p ∈ trail.points, p.item < k

theorem bodyOf_done {id : Nat} (hitem : t.children[k]? = some f)
    (hkind : f.kind = .functionDeclaration) (hpending : Pending s f id)
    (hconstants : s.scope.constants = constantsOf (t.children.take k)) (hdone : Done t k trail)
    (hr : bodyOf f.site f.children id (trail.turned k) s = .ok ((), trail') u) :
    Done t (k + 1) trail' := by
  obtain ⟨sig, hsig, hfound⟩ := hpending
  obtain ⟨result, params, c, hchildren, hbody⟩ := bodyOf_ok hr
  obtain ⟨v, hv⟩ := body_ok hfound hbody
  have hkeep := keeping_explains hitem hkind hsig (show f.children[2]? = some c by simp [hchildren])
  have hblock := hkeep.watches_block hkeep.watches.2
  have hstart : Trail.Explains t k c sig (trail.turned k)
      (parameterScope s.scope (Function.declare id sig).arguments) := by
    refine ⟨⟨hdone.explained, hdone.ordered⟩, rfl, fun q hq => absurd hq List.not_mem_nil, ?_,
      fun p hp => .inl (hdone.above p hp)⟩
    rw [← hconstants]
    exact Resolves.start s.scope sig.params
  have hend := (hblock _).keeps hstart hv
  refine ⟨hend.toTidy, fun p hp => ?_⟩
  rcases hend.before p hp with hlt | ⟨heq, -⟩
  · exact Nat.lt_succ_of_lt hlt
  · exact heq ▸ Nat.lt_succ_self _

theorem function_done {r : Option Nat} (hitem : t.children[k]? = some f)
    (hkind : f.kind = .functionDeclaration) (hpending : ∀ id, r = some id → Pending s f id)
    (hconstants : s.scope.constants = constantsOf (t.children.take k)) (hdone : Done t k trail)
    (hr : function f.site r f.children (trail.turned k) s = .ok ((), trail') u) :
    Done t (k + 1) trail' := by
  cases r with
  | some id => exact bodyOf_done hitem hkind (hpending id rfl) hconstants hdone hr
  | none =>
    rw [function, lift_bind] at hr
    obtain ⟨id, v, hv, hr⟩ := bind_ok.mp hr
    have hdeclared : Pending v f id := by
      obtain ⟨site, ts⟩ := f
      exact declareFunction_pending hv
    obtain ⟨-, -, -, -, -, hscope⟩ := declareFunction_ok hv
    rw [← hscope] at hconstants
    exact bodyOf_done hitem hkind hdeclared hconstants hdone hr

theorem constantsOf_take {c : Tree} (h : ts[k]? = some c) :
    constantsOf (ts.take (k + 1)) = c.constant?.toList ++ constantsOf (ts.take k) := by
  rw [constantsOf, constantsOf, List.take_add_one, h]
  cases hc : c.constant? <;> simp [hc]

theorem itemsFrom_tidy (hitems : t.children.drop k = ts) (hwaiting : Waiting s (s.listed k ts))
    (hconstants : s.scope.constants = constantsOf (t.children.take k)) (hdone : Done t k trail)
    (hr : itemsFrom k ts trail s = .ok ((), trail') u) : trail'.Tidy t := by
  induction ts generalizing k trail s with
  | nil =>
    cases hr
    exact hdone.toTidy
  | cons c ts ih =>
    have hitem : t.children[k]? = some c := by
      rw [← List.head?_drop, hitems]
      rfl
    have hrest : t.children.drop (k + 1) = ts := by
      rw [← List.tail_drop, hitems]
      rfl
    obtain ⟨⟨_, trail₁⟩, v, hv, hr⟩ := bind_ok.mp hr
    have hrun := (watches_item c (s.registered.lookup k)).run hv
    obtain ⟨hwait, hconstants₁, -⟩ := hwaiting.next hrun
    rw [← LowerState.listed_congr (item_registered hrun)] at hwait
    have hdone₁ : Done t (k + 1) trail₁ := by
      by_cases hkind : c.kind = .functionDeclaration
      · rw [item, if_pos hkind] at hv
        exact function_done hitem hkind (hwaiting.pending _ (List.mem_cons_self ..)) hconstants
          hdone hv
      · -- other items have no points
        rw [item, if_neg hkind] at hv
        obtain rfl := trail_of_lift hv
        exact ⟨⟨hdone.explained, hdone.ordered⟩, fun p hp => Nat.lt_succ_of_lt (hdone.above p hp)⟩
    refine ih hrest hwait ?_ hdone₁ hr
    rw [hconstants₁, constantsOf_take hitem, hconstants]

end Watched

/-- Names mean what the lowering so far has made of them. A successful run can be watched.
At each point between two statements of a body, the last declaration of a name counts,
then a parameter, then the last constant above the function. The points come in the
order of the run, and within an item their histories grow. -/
theorem Tree.lower_resolves {singlePass : Bool} {t : Tree} {m : Module}
    (h : (t.lower singlePass).result = .ok m) :
    Prod.fst <$> Watched.program singlePass t .start = Lower.program singlePass t ∧
      ∃ trail u, Watched.program singlePass t .start .initial = .ok (m, trail) u ∧
        (∀ p ∈ trail.points, ∃ f body sig, p.Within t f body sig ∧
          ∀ n, Resolves (constantsOf (t.children.take p.item)) sig.params p.history n
            (p.state.scope.lookup n)) ∧
          trail.points.Pairwise fun p q =>
            p.item < q.item ∨ p.item = q.item ∧ p.history <+: q.history := by
  have hwatches := Watched.watches_program singlePass t
  obtain ⟨u, hu⟩ := Tree.lower_ok h
  obtain ⟨trail, htrail⟩ := hwatches.leaves hu .start
  refine ⟨hwatches.erased .start, trail, u, htrail, ?_⟩
  obtain ⟨site, ts⟩ := t
  obtain ⟨s, v, hscope, hwaiting, hitems⟩ := Watched.program_ok htrail
  have hstart : Watched.Done (.node site ts) 0 .start :=
    ⟨⟨fun p hp => absurd hp List.not_mem_nil, .nil⟩, fun p hp => absurd hp List.not_mem_nil⟩
  have htidy : trail.Tidy (.node site ts) := by
    refine Watched.itemsFrom_tidy rfl hwaiting ?_ hstart hitems
    rw [hscope]
    rfl
  exact ⟨htidy.explained, htidy.ordered⟩

namespace Tree

/-- Two functions below a constant. The first one has two parameters of one name, assigns
the parameter and declares the name of the constant twice, once in an arm. -/
def shadowing : Tree :=
  let int := bare .identifier "int" []
  let a := bare .identifier "a" []
  let n := bare .identifier "N" []
  bare .program "" [
    bare .preprocessorDirective "#define" [n, bare .literal "5" []],
    bare .functionDeclaration "f" [int,
      bare .parameters ""
        [bare .variableDeclaration "a" [int], bare .variableDeclaration "a" [int]],
      bare .block "" [
        bare .assignment "a" [bare .identifier "=" [], n],
        bare .variableDeclaration "N" [int],
        bare .statement "if" [a, bare .block "" [bare .variableDeclaration "N" [int]]],
        bare .returnStatement "" [n]]],
    bare .functionDeclaration "g" [int, bare .parameters "" [],
      bare .block "" [bare .returnStatement "" [n]]]]

def meanings (name : String) :
    EStateM.Result LowerError LowerState (Module × Trail) → List (Nat × Option Binding)
  | .ok (_, trail) _ => trail.points.map fun p => (p.item, p.state.scope.lookup name)
  | .error _ _ => []

/-- The constant is hidden from its first declaration to the end of the first function. -/
theorem shadowing_resolves :
    ∃ m trail u, (shadowing.lower false).result = .ok m ∧
      Watched.program false shadowing .start .initial = .ok (m, trail) u ∧
        (∀ p ∈ trail.points, ∃ f body sig, p.Within shadowing f body sig ∧
          ∀ n, Resolves (constantsOf (shadowing.children.take p.item)) sig.params p.history n
            (p.state.scope.lookup n)) ∧
          let slot := fun r => some (Binding.stored (.slot (.reg r (.ptr .i32)) .i32))
          let five := some (Binding.constant 5)
          trail.points.map (fun p => (p.item, p.state.scope.lookup "N")) =
            [(1, five), (1, five), (1, slot 2), (1, slot 2), (1, slot 5), (1, slot 5), (1, slot 5),
              (2, five), (2, five)] := by
  obtain ⟨m, hm⟩ : ∃ m, (shadowing.lower false).result = .ok m :=
    Lower.except_of_isOk (by decide +kernel)
  obtain ⟨-, trail, u, hwatched, hpoints, -⟩ := lower_resolves hm
  have hseen : trail.points.map (fun p => (p.item, p.state.scope.lookup "N")) =
      meanings "N" (Watched.program false shadowing .start .initial) := by
    rw [hwatched]
    rfl
  exact ⟨m, trail, u, hm, hwatched, hpoints, hseen.trans (by decide +kernel)⟩

end Tree

end TreeFlow
