import TreeFlow.Proofs.Agreement
import TreeFlow.Proofs.Blame
import TreeFlow.Proofs.Comparison

/-!
# Rewriting the source

A program is rewritten by changing parts of its syntax tree. The two trees lower
alike if the parts that were changed do, for the lowering of a node is put together
from the lowering of its children. The part that a child plays in its parent settles
what has to agree: the value of an operand, the code of a body, or just the site of a
type name. If the bodies of functions are rewritten into bodies that lower alike, the
program still lowers to the same module.
-/

set_option autoImplicit false

namespace TreeFlow

variable {ts ts' : List Tree} {t t' : Tree}

/-! ## The parts that children play -/

/-- The part that a child plays in its parent: it names a type or an operation, it is
lowered to a value, to the body of a block, to the second arm of a conditional, or as
a statement among others. -/
inductive Role where
  | word
  | value
  | body
  | arm
  | step
  deriving DecidableEq, Repr

def Site.role (site : Site) (i : Nat) : Role :=
  match site.kind with
  | .variableDeclaration | .assignment => if i = 1 then .value else .word
  | .returnStatement | .binaryExpression | .functionCall => .value
  | .whileStatement => if i = 0 then .value else .body
  | .statement =>
    if site.name = "if" then if i = 0 then .value else if i = 1 then .body else .arm else .word
  | .block => .step
  | _ => .word

namespace Lower

/-! ## The code of a node by its kind -/

section Kinds

variable {site : Site}

def leaf (site : Site) (act : Lower Value) : List Tree → Lower Value
  | [] => act
  | ts => throw (site.wrongArity 0 0 ts.length)

def operation (site : Site) : List Tree → Lower Value
  | [l, r] => do
    let op ← lift (Operator.ofSite site)
    let lhs ← expression l
    let rhs ← expression r
    operate site op lhs rhs
  | ts => throw (site.wrongArity 2 2 ts.length)

def repetition (site : Site) : List Tree → Lower Unit
  | [test, body] => do
    lift (site.require 1 .block body)
    loop test fun b => block b body
  | ts => throw (site.wrongArity 2 2 ts.length)

def choice (site : Site) : List Tree → Lower Unit
  | [test, yes] => do
    lift (site.require 1 .block yes)
    conditional test (fun b => block b yes) none
  | [test, yes, no] => do
    lift (site.require 1 .block yes)
    conditional test (fun b => block b yes) (some (elseArm no))
  | ts => throw (site.wrongArity 2 3 ts.length)

theorem expression_literal (kind : site.kind = .literal) (ts : List Tree) :
    expression (.node site ts) = nested site (leaf site (lift (site.literal.map .int)) ts) := by
  obtain ⟨k, name, location⟩ := site
  cases kind
  rcases ts with _ | ⟨a, ts⟩ <;> rfl

theorem expression_identifier (kind : site.kind = .identifier) (ts : List Tree) :
    expression (.node site ts) = nested site (leaf site (name site) ts) := by
  obtain ⟨k, name, location⟩ := site
  cases kind
  rcases ts with _ | ⟨a, ts⟩ <;> rfl

theorem expression_binary (kind : site.kind = .binaryExpression) (ts : List Tree) :
    expression (.node site ts) = nested site (operation site ts) := by
  obtain ⟨k, name, location⟩ := site
  cases kind
  rcases ts with _ | ⟨a, _ | ⟨b, _ | ⟨c, ts⟩⟩⟩ <;> rfl

theorem expression_call (kind : site.kind = .functionCall) (ts : List Tree) :
    expression (.node site ts) = nested site (callValue site ts) := by
  obtain ⟨k, name, location⟩ := site
  cases kind
  rfl

theorem expression_other (kind : site.kind.isExpression = false) (ts : List Tree) :
    expression (.node site ts) = nested site (throw (site.fault (.notExpression site.kind))) := by
  obtain ⟨k, name, location⟩ := site
  cases k <;> first | rfl | cases kind

theorem statement_declaration (kind : site.kind = .variableDeclaration) (ts : List Tree) :
    statement (.node site ts) = nested site (variableDeclaration site ts) := by
  obtain ⟨k, name, location⟩ := site
  cases kind
  rfl

theorem statement_assignment (kind : site.kind = .assignment) (ts : List Tree) :
    statement (.node site ts) = nested site (assignment site ts) := by
  obtain ⟨k, name, location⟩ := site
  cases kind
  rfl

theorem statement_return (kind : site.kind = .returnStatement) (ts : List Tree) :
    statement (.node site ts) = nested site (returnStatement site ts) := by
  obtain ⟨k, name, location⟩ := site
  cases kind
  rfl

theorem statement_while (kind : site.kind = .whileStatement) (ts : List Tree) :
    statement (.node site ts) = nested site (repetition site ts) := by
  obtain ⟨k, name, location⟩ := site
  cases kind
  rcases ts with _ | ⟨a, _ | ⟨b, _ | ⟨c, ts⟩⟩⟩ <;> rfl

theorem statement_named (kind : site.kind = .statement) (ts : List Tree) :
    statement (.node site ts) = nested site (
      if site.name = "if" then choice site ts
      else if site.name = "break" then jump site .breakOutsideLoop (·.onBreak) ts
      else if site.name = "continue" then jump site .continueOutsideLoop (·.onContinue) ts
      else throw (site.fault (.unknownStatement site.name))) := by
  obtain ⟨k, name, location⟩ := site
  cases kind
  rcases ts with _ | ⟨a, _ | ⟨b, _ | ⟨c, _ | ⟨d, ts⟩⟩⟩⟩ <;> rfl

theorem statement_call (kind : site.kind = .functionCall) (ts : List Tree) :
    statement (.node site ts) = nested site (do let _ ← functionCall (.node site ts)) := by
  obtain ⟨k, name, location⟩ := site
  cases kind
  rfl

theorem statement_block (kind : site.kind = .block) (ts : List Tree) :
    statement (.node site ts) = nested site (statements ts) := by
  obtain ⟨k, name, location⟩ := site
  cases kind
  rfl

theorem statement_other (kind : site.kind ∉ [.variableDeclaration, .assignment, .returnStatement,
    .whileStatement, .statement, .functionCall, .block]) (ts : List Tree) :
    statement (.node site ts) = nested site (throw (site.fault (.notStatement site.kind))) := by
  obtain ⟨k, name, location⟩ := site
  cases k <;> first | rfl | exact absurd (by simp) kind

end Kinds

/-! ## Trees that lower alike -/

section Trees

variable {V : Variation} {site : Site}

structure Reads (V : Variation) (t t' : Tree) : Prop where
  site : V.strict → t'.site = t.site
  expression : Agrees V (expression t) (expression t')

/-- In the part that the two trees play, they lower alike. -/
def Plays (V : Variation) (t t' : Tree) : Role → Prop
  | .word => t'.site = t.site
  | .value => Reads V t t'
  | .body => t'.site = t.site ∧ ∀ b, Agrees V (block b t) (block b t')
  | .arm => ∀ b, Agrees V (elseArm t b) (elseArm t' b)
  | .step => Agrees V (statement t) (statement t')

inductive Children (V : Variation) : (Nat → Role) → List Tree → List Tree → Prop
  | nil {roles : Nat → Role} : Children V roles [] []
  | cons {roles : Nat → Role} {t t' : Tree} {ts ts' : List Tree} (head : Plays V t t' (roles 0))
      (tail : Children V (fun i => roles (i + 1)) ts ts') : Children V roles (t :: ts) (t' :: ts')

theorem Children.length {roles : Nat → Role} (h : Children V roles ts ts') :
    ts'.length = ts.length := by
  induction h with
  | nil => rfl
  | cons _ _ ih => exact congrArg (· + 1) ih

theorem Children.all {roles : Nat → Role} (h : Children V roles ts ts') (role : Role)
    (hroles : ∀ i, roles i = role) :
    List.Forall₂ (fun t t' => Plays V t t' role) ts ts' := by
  induction h with
  | nil => exact .nil
  | cons head _ ih =>
    rw [hroles 0] at head
    exact .cons head (ih fun i => hroles (i + 1))

theorem checkArgument_elsewhere {c : Callee} {i : Nat} {v : Value} {u : Unit}
    (h : checkArgument c site i v = .ok u) (site' : Site) : checkArgument c site' i v = .ok u := by
  unfold checkArgument at h ⊢
  cases hp : c.params[i]? with
  | none => rfl
  | some ty =>
    simp only [hp] at h
    by_cases hty : v.ty = ty
    · exact if_pos hty
    · rw [if_neg hty] at h
      cases h

theorem checkStore_elsewhere {got slot : Ty} {u : Unit} (h : checkStore site got slot = .ok u)
    (site' : Site) : checkStore site' got slot = .ok u := by
  by_cases hty : got = slot
  · exact if_pos hty
  · rw [checkStore, if_neg hty] at h
    cases h

theorem agrees_arguments (h : List.Forall₂ (Reads V) ts ts') (c : Callee) (args : List Value) :
    Agrees V (arguments c args ts) (arguments c args ts') := by
  induction h generalizing args with
  | nil => exact agrees_pure args
  | cons hread _ ih =>
    rw [arguments, arguments]
    refine hread.expression.bind fun v => ?_
    refine Agrees.bind (agrees_lift (fun _ hok => checkArgument_elsewhere hok _) ?_) fun _ => ih _
    intro hstrict
    rw [hread.site hstrict]

theorem agrees_functionCall (h : List.Forall₂ (Reads V) ts ts') :
    Agrees V (functionCall (.node site ts)) (functionCall (.node site ts')) := by
  rw [functionCall, functionCall, ← h.length_eq]
  refine (agrees_callee site _).bind fun c => ?_
  exact (agrees_arguments h c _).bind fun args => agrees_call _ _

theorem agrees_operate (site : Site) (op : Operator) (l r : Value) :
    Agrees V (operate site op l r) (operate site op l r) := by
  unfold operate
  split
  · cases op with
    | arith op => exact agrees_inBlock _
    | compare test => exact agrees_inBlock _
  · exact agrees_throw fun _ => rfl

theorem agrees_condition (h : Reads V t t') : Agrees V (condition t) (condition t') := by
  refine h.expression.bind fun v => ?_
  have hrefused : V.strict → ∀ ty, (throw (t'.site.fault (.notCondition ty)) : Lower Value) =
      throw (t.site.fault (.notCondition ty)) := fun hstrict ty => by rw [h.site hstrict]
  cases v.ty with
  | i1 => exact agrees_pure v
  | i32 => exact agrees_inBlock _
  | _ => exact agrees_throw fun hstrict => hrefused hstrict _

theorem agrees_wrongArity {α : Type} (least most : Nat) {n n' : Nat} (h : n' = n) :
    Agrees V (throw (site.wrongArity least most n) : Lower α)
      (throw (site.wrongArity least most n')) :=
  agrees_throw fun _ => by rw [h]

theorem agrees_leaf {act act' : Lower Value} (h : Agrees V act act') {roles : Nat → Role}
    (hts : Children V roles ts ts') :
    Agrees V (leaf site act ts) (leaf site act' ts') := by
  cases hts with
  | nil => exact h
  | cons _ hts => exact agrees_wrongArity 0 0 (congrArg (· + 1) hts.length)

theorem agrees_operation (h : List.Forall₂ (Reads V) ts ts') :
    Agrees V (operation site ts) (operation site ts') := by
  have hlength := h.length_eq.symm
  cases h with
  | nil => exact agrees_wrongArity 2 2 hlength
  | cons hl h =>
    cases h with
    | nil => exact agrees_wrongArity 2 2 hlength
    | cons hr h =>
      cases h with
      | cons _ h => exact agrees_wrongArity 2 2 hlength
      | nil =>
        refine (agrees_lift_self _).bind fun op => hl.expression.bind fun lhs => ?_
        exact hr.expression.bind fun rhs => agrees_operate site op lhs rhs

theorem agrees_expression (hname : site.kind = .identifier → V.Shares site.name)
    (hts : site.kind.isExpression = true → Children V site.role ts ts') :
    Agrees V (expression (.node site ts)) (expression (.node site ts')) := by
  cases hk : site.kind with
  | literal =>
    rw [expression_literal hk, expression_literal hk]
    exact (agrees_leaf (agrees_lift_self _) (hts (by rw [hk]; rfl))).nested fun _ => rfl
  | identifier =>
    rw [expression_identifier hk, expression_identifier hk]
    exact (agrees_leaf (agrees_name (hname hk)) (hts (by rw [hk]; rfl))).nested fun _ => rfl
  | binaryExpression =>
    have hreads := (hts (by rw [hk]; rfl)).all .value fun i => by rw [Site.role, hk]
    rw [expression_binary hk, expression_binary hk]
    exact (agrees_operation hreads).nested fun _ => rfl
  | functionCall =>
    have hreads := (hts (by rw [hk]; rfl)).all .value fun i => by rw [Site.role, hk]
    rw [expression_call hk, expression_call hk, callValue_eq, callValue_eq]
    refine Agrees.nested (fun _ => rfl) ((agrees_functionCall hreads).bind fun v => ?_)
    cases v with
    | none => exact agrees_throw fun _ => rfl
    | some v => exact agrees_pure v
  | _ =>
    have hother : site.kind.isExpression = false := by rw [hk]; rfl
    rw [expression_other hother, expression_other hother]
    exact (agrees_throw fun _ => rfl).nested fun _ => rfl

/-! ### Statements -/

theorem agrees_checkStore (h : Reads V t t') (got slot : Ty) :
    Agrees V (lift (checkStore t.site got slot)) (lift (checkStore t'.site got slot)) :=
  agrees_lift (fun _ hok => checkStore_elsewhere hok _) fun hstrict => by rw [h.site hstrict]

theorem agrees_variableDeclaration (kind : site.kind = .variableDeclaration)
    (hsite : V.binds site.name) (h : Children V site.role ts ts') :
    Agrees V (variableDeclaration site ts) (variableDeclaration site ts') := by
  have hlength := h.length
  have hrole : site.role = fun i => if i = 1 then .value else .word := by
    funext i
    rw [Site.role, kind]
  rw [hrole] at h
  cases h with
  | nil => exact agrees_wrongArity 1 2 hlength
  | cons htype h =>
    obtain htype : _ = _ := htype
    cases h with
    | nil =>
      rw [variableDeclaration, variableDeclaration, htype]
      exact (agrees_variableSlot hsite _).bind fun _ => agrees_pure ()
    | cons hinit h =>
      obtain hinit : Reads V _ _ := hinit
      cases h with
      | cons _ h => exact agrees_wrongArity 1 2 hlength
      | nil =>
        rw [variableDeclaration, variableDeclaration, htype]
        refine (agrees_variableSlot hsite _).bind fun slot => hinit.expression.bind fun v => ?_
        exact (agrees_checkStore hinit _ _).bind fun _ => agrees_inBlock _

theorem agrees_require (h : t'.site = t.site) (i : Nat) (kind : Kind) :
    Agrees V (lift (site.require i kind t)) (lift (site.require i kind t')) := by
  rw [Site.require, Site.require, Tree.kind, Tree.kind, h]
  exact agrees_lift_self _

theorem agrees_assignment (kind : site.kind = .assignment) (h : Children V site.role ts ts') :
    Agrees V (assignment site ts) (assignment site ts') := by
  have hlength := h.length
  have hrole : site.role = fun i => if i = 1 then .value else .word := by
    funext i
    rw [Site.role, kind]
  rw [hrole] at h
  cases h with
  | nil => exact agrees_wrongArity 2 2 hlength
  | cons hop h =>
    obtain hop : _ = _ := hop
    cases h with
    | nil => exact agrees_wrongArity 2 2 hlength
    | cons hrhs h =>
      obtain hrhs : Reads V _ _ := hrhs
      cases h with
      | cons _ h => exact agrees_wrongArity 2 2 hlength
      | nil =>
        rw [assignment, assignment, hop]
        refine (agrees_require hop 0 .identifier).bind fun _ => ?_
        refine (agrees_lift_self _).bind fun update => ?_
        by_cases hsite : V.binds site.name
        · refine (agrees_assignedSlot hsite).bind fun slot => (agrees_inBlock _).bind fun old => ?_
          refine hrhs.expression.bind fun new => (agrees_checkStore hrhs _ _).bind fun _ => ?_
          have hend : ∀ result, Agrees V (do
              store result slot.1
              Lower.bind site.name (.slot slot.1 slot.2)) (do
              store result slot.1
              Lower.bind site.name (.slot slot.1 slot.2)) := fun result =>
            (agrees_inBlock _).bind fun _ => agrees_bind hsite _
          cases update with
          | replace => exact (agrees_pure new).bind hend
          | combine op => exact (agrees_inBlock _).bind hend
        · -- a name that is not to be bound is no local, so it cannot be assigned
          refine agrees_of_fails (fun hs => hsite (V.binds_of_strict hs _)) fun _ _ s s' hs => ?_
          obtain ⟨e, he⟩ := assignedSlot_unbound hsite hs
          exact ⟨e, s, bind_of_error he⟩

theorem agrees_returnStatement (h : List.Forall₂ (Reads V) ts ts') :
    Agrees V (returnStatement site ts) (returnStatement site ts') := by
  have hlength := h.length_eq.symm
  cases h with
  | nil => exact agrees_inBlock _
  | cons hv h =>
    cases h with
    | cons _ h => exact agrees_wrongArity 0 1 hlength
    | nil => exact hv.expression.bind fun v => agrees_inBlock _

theorem agrees_jump (outside : Cause) (target : LoopTargets → Nat) (h : ts'.length = ts.length) :
    Agrees V (jump site outside target ts) (jump site outside target ts') := by
  rcases ts with _ | ⟨t, ts⟩
  · rw [List.length_eq_zero_iff.mp h]
    refine agrees_innermostLoop.bind fun l => ?_
    cases l with
    | none => exact agrees_throw fun _ => rfl
    | some l => exact agrees_inBlock _
  · rcases ts' with _ | ⟨t', ts'⟩
    · cases h
    · exact agrees_wrongArity 0 0 h

theorem agrees_conditional {test test' : Tree} (htest : Reads V test test')
    {yes yes' : Nat → Lower Unit} (hyes : ∀ b, Agrees V (yes b) (yes' b))
    {no no' : Option (Nat → Lower Unit)}
    (hno : Option.Rel (fun x y => ∀ b, Agrees V (x b) (y b)) no no') :
    Agrees V (conditional test yes no) (conditional test' yes' no') := by
  cases hno with
  | none =>
    rw [conditional_none, conditional_none]
    refine (agrees_condition htest).bind fun c => ?_
    refine (agrees_newBlock _).bind fun y => (agrees_newBlock _).bind fun e => ?_
    refine Agrees.bind (agrees_inBlock _) fun _ => (hyes y).bind fun _ => ?_
    exact (agrees_fallThrough e).bind fun _ => agrees_setBlock e
  | some hno =>
    rw [conditional_some, conditional_some]
    refine (agrees_condition htest).bind fun c => ?_
    refine (agrees_newBlock _).bind fun y => (agrees_newBlock _).bind fun e => ?_
    refine (agrees_newBlock _).bind fun o => Agrees.bind (agrees_inBlock _) fun _ => ?_
    refine (hyes y).bind fun _ => (agrees_fallThrough e).bind fun _ => (hno o).bind fun _ => ?_
    exact (agrees_fallThrough e).bind fun _ => agrees_setBlock e

theorem agrees_loop {test test' : Tree} (htest : Reads V test test') {body body' : Nat → Lower Unit}
    (hbody : ∀ b, Agrees V (body b) (body' b)) : Agrees V (loop test body) (loop test' body') := by
  refine (agrees_newBlock _).bind fun c => (agrees_newBlock _).bind fun b => ?_
  refine (agrees_newBlock _).bind fun e => Agrees.bind (agrees_inBlock _) fun _ => ?_
  refine (agrees_setBlock c).bind fun _ => (agrees_condition htest).bind fun v => ?_
  refine Agrees.bind (agrees_inBlock _) fun _ => ((hbody b).inLoop ⟨c, e⟩).bind fun _ => ?_
  exact (agrees_fallThrough c).bind fun _ => agrees_setBlock e

theorem agrees_repetition (kind : site.kind = .whileStatement) (h : Children V site.role ts ts') :
    Agrees V (repetition site ts) (repetition site ts') := by
  have hlength := h.length
  have hrole : site.role = fun i => if i = 0 then .value else .body := by
    funext i
    rw [Site.role, kind]
  rw [hrole] at h
  cases h with
  | nil => exact agrees_wrongArity 2 2 hlength
  | cons htest h =>
    obtain htest : Reads V _ _ := htest
    cases h with
    | nil => exact agrees_wrongArity 2 2 hlength
    | cons hbody h =>
      obtain ⟨hsite, hbody⟩ : _ ∧ _ := hbody
      cases h with
      | cons _ h => exact agrees_wrongArity 2 2 hlength
      | nil => exact (agrees_require hsite 1 .block).bind fun _ => agrees_loop htest hbody

theorem agrees_choice (kind : site.kind = .statement) (name : site.name = "if")
    (h : Children V site.role ts ts') :
    Agrees V (choice site ts) (choice site ts') := by
  have hlength := h.length
  have hrole : site.role = fun i => if i = 0 then .value else if i = 1 then .body else .arm := by
    funext i
    simp only [Site.role, kind, if_pos name]
  rw [hrole] at h
  cases h with
  | nil => exact agrees_wrongArity 2 3 hlength
  | cons htest h =>
    obtain htest : Reads V _ _ := htest
    cases h with
    | nil => exact agrees_wrongArity 2 3 hlength
    | cons hyes h =>
      obtain ⟨hsite, hyes⟩ : _ ∧ _ := hyes
      cases h with
      | nil =>
        refine (agrees_require hsite 1 .block).bind fun _ => ?_
        exact agrees_conditional htest hyes .none
      | cons hno h =>
        cases h with
        | cons _ h => exact agrees_wrongArity 2 3 hlength
        | nil =>
          refine (agrees_require hsite 1 .block).bind fun _ => ?_
          exact agrees_conditional htest hyes (.some hno)

theorem agrees_named (kind : site.kind = .statement) (h : Children V site.role ts ts') :
    Agrees V (statement (.node site ts)) (statement (.node site ts')) := by
  rw [statement_named kind, statement_named kind]
  refine Agrees.nested (fun _ => rfl) ?_
  by_cases hif : site.name = "if"
  · rw [if_pos hif, if_pos hif]
    exact agrees_choice kind hif h
  · rw [if_neg hif, if_neg hif]
    split
    · exact agrees_jump _ _ h.length
    · split
      · exact agrees_jump _ _ h.length
      · exact agrees_throw fun _ => rfl

theorem agrees_statement (hsite : site.kind = .variableDeclaration → V.binds site.name)
    (hrow : site.kind = .block → Agrees V (statements ts) (statements ts'))
    (hts : site.kind ≠ .block → Children V site.role ts ts') :
    Agrees V (statement (.node site ts)) (statement (.node site ts')) := by
  cases hk : site.kind with
  | variableDeclaration =>
    rw [statement_declaration hk, statement_declaration hk]
    have hagrees := agrees_variableDeclaration hk (hsite hk) (hts (by rw [hk]; decide))
    exact hagrees.nested fun _ => rfl
  | assignment =>
    rw [statement_assignment hk, statement_assignment hk]
    exact (agrees_assignment hk (hts (by rw [hk]; decide))).nested fun _ => rfl
  | returnStatement =>
    have hreads := (hts (by rw [hk]; decide)).all .value fun i => by rw [Site.role, hk]
    rw [statement_return hk, statement_return hk]
    exact (agrees_returnStatement hreads).nested fun _ => rfl
  | whileStatement =>
    rw [statement_while hk, statement_while hk]
    exact (agrees_repetition hk (hts (by rw [hk]; decide))).nested fun _ => rfl
  | statement => exact agrees_named hk (hts (by rw [hk]; decide))
  | functionCall =>
    have hreads := (hts (by rw [hk]; decide)).all .value fun i => by rw [Site.role, hk]
    rw [statement_call hk, statement_call hk]
    refine Agrees.nested (fun _ => rfl) ?_
    exact (agrees_functionCall hreads).bind fun _ => agrees_pure ()
  | block =>
    rw [statement_block hk, statement_block hk]
    exact (hrow hk).nested fun _ => rfl
  | _ =>
    have hother : site.kind ∉ [Kind.variableDeclaration, .assignment, .returnStatement,
        .whileStatement, .statement, .functionCall, .block] := by
      rw [hk]
      decide
    rw [statement_other hother, statement_other hother]
    exact (agrees_throw fun _ => rfl).nested fun _ => rfl

theorem agrees_block (hrow : site.kind = .block → Agrees V (statements ts) (statements ts'))
    (b : Nat) :
    Agrees V (block b (.node site ts)) (block b (.node site ts')) := by
  rw [block, block]
  by_cases hk : site.kind = .block
  · rw [if_pos hk, if_pos hk]
    exact (agrees_setBlock b).bind fun _ => hrow hk
  · rw [if_neg hk, if_neg hk]
    exact agrees_throw fun _ => rfl

theorem agrees_cons
    (hstep : Agrees V (do statement t; statements ts) (do statement t'; statements ts')) :
    Agrees V (statements (t :: ts)) (statements (t' :: ts')) := by
  rw [statements, statements]
  refine agrees_terminated.bind fun ended => ?_
  cases ended with
  | true => exact agrees_note _ _
  | false => exact hstep

theorem agrees_statements
    (h : List.Forall₂ (fun t t' => Agrees V (statement t) (statement t')) ts ts') :
    Agrees V (statements ts) (statements ts') := by
  induction h with
  | nil =>
    rw [statements]
    exact agrees_pure ()
  | cons hstep _ ih => exact agrees_cons (hstep.bind fun _ => ih)

theorem agrees_elseArm (hsite : t'.site = t.site)
    (hstatement : Agrees V (statement t) (statement t'))
    (hblock : ∀ b, Agrees V (block b t) (block b t')) (b : Nat) :
    Agrees V (elseArm t b) (elseArm t' b) := by
  unfold elseArm Tree.kind Tree.name
  rw [hsite]
  split
  · exact hblock b
  · split
    · exact (agrees_setBlock b).bind fun _ => hstatement
    · exact agrees_throw fun _ => rfl

/-- Whatever part the two trees play, they lower alike. -/
structure Alike (V : Variation) (t t' : Tree) : Prop where
  site : t'.site = t.site
  expression : Agrees V (expression t) (expression t')
  statement : Agrees V (statement t) (statement t')
  block : ∀ b, Agrees V (block b t) (block b t')

theorem Alike.plays (h : Alike V t t') (role : Role) : Plays V t t' role := by
  cases role with
  | word => exact h.site
  | value => exact ⟨fun _ => h.site, h.expression⟩
  | body => exact ⟨h.site, h.block⟩
  | arm => exact agrees_elseArm h.site h.statement h.block
  | step => exact h.statement

theorem Children.of_alike (h : List.Forall₂ (Alike V) ts ts') (roles : Nat → Role) :
    Children V roles ts ts' := by
  induction h generalizing roles with
  | nil => exact .nil
  | cons hhead _ ih => exact .cons (hhead.plays _) (ih _)

end Trees

/-! ## Rewritten programs -/

def Variation.plain (strict : Prop) : Variation where
  strict := strict
  constants := Eq
  binds _ := True
  constants_of_strict _ _ _ h := h.symm
  binds_of_strict _ _ := trivial

section Plain

variable {strict : Prop}

theorem alike_node {site : Site}
    (hrow : site.kind = .block → Agrees (.plain strict) (statements ts) (statements ts'))
    (hts : site.kind ≠ .block → Children (.plain strict) site.role ts ts') :
    Alike (.plain strict) (.node site ts) (.node site ts') where
  site := rfl
  expression := by
    refine agrees_expression (fun _ _ _ h => by rw [h]) fun hk => hts fun hblock => ?_
    rw [hblock] at hk
    cases hk
  statement := agrees_statement (fun _ => trivial) hrow hts
  block := agrees_block hrow

theorem alike_of_children {site : Site} (h : List.Forall₂ (Alike (.plain strict)) ts ts') :
    Alike (.plain strict) (.node site ts) (.node site ts') :=
  alike_node (fun _ => agrees_statements (h.imp fun _ _ h => h.statement)) fun _ => .of_alike h _

theorem alike_refl (t : Tree) : Alike (.plain strict) t t := by
  induction t using Tree.induct with
  | node site ts ih => exact alike_of_children (List.forall₂_same.mpr ih)

end Plain

structure Between (V : Variation) (s s' : LowerState) : Prop where
  module : s'.module = s.module
  constants : V.constants s.scope.constants s'.scope.constants

section Bodies

variable {V : Variation}

theorem Variation.Scopes.parameters {c c' : Scope} {args : List (String × Value)}
    (h : V.constants c.constants c'.constants) (hargs : ∀ a ∈ args, V.binds a.1) :
    V.Scopes (parameterScope c args) (parameterScope c' args) := by
  have hfold : ∀ {d d' : Scope}, V.Scopes d d' →
      V.Scopes (args.foldl (fun c a => c.bind a.1 (.register a.2)) d)
        (args.foldl (fun c a => c.bind a.1 (.register a.2)) d') := by
    induction args with
    | nil => exact id
    | cons a args ih =>
      intro d d' hd
      exact ih (fun a ha => hargs a (by simp [ha])) (hd.bind (hargs a (by simp)) _)
  exact hfold ⟨rfl, h, fun x _ => Scope.local?_clearLocals c x⟩

theorem agrees_bodyCode (h : ∀ b, Agrees V (block b t) (block b t')) (site : Site) (b : Nat)
    (ty : Ty) : Agrees V (bodyCode site b ty t) (bodyCode site b ty t') := by
  refine (h b).bind fun _ => agrees_terminated.bind fun ended => ?_
  cases ended with
  | true => exact agrees_pure ()
  | false => exact (agrees_note _ _).bind fun _ => agrees_inBlock _

theorem body_unknown (site : Site) {id : Nat} {s : LowerState} (t : Tree)
    (h : s.module.function? id = none) :
    ∃ u, body site id t s = .error ⟨.builder (.unknownFunction id), none⟩ u := by
  let u : LowerState :=
    { s with
      scope := s.scope.clearLocals, loops := [], depth := 0, function := some id
      log := s.log ++ [.bodyStarted site.name] }
  have hblock : inFunction (Build.newBlock "entry") u =
      .error ⟨.builder (.unknownFunction id), none⟩ u := by
    simp only [inFunction, u, h]
    rfl
  have henter : enter id { s with log := s.log ++ [.bodyStarted site.name] } =
      .error ⟨.builder (.unknownFunction id), none⟩ u :=
    (bind_of_ok (modify_run _)).trans (bind_of_error hblock)
  exact ⟨u, (bind_of_ok (note_run _)).trans (bind_of_error henter)⟩

theorem likewise_body (h : ∀ b, Agrees V (block b t) (block b t')) {site : Site} {id : Nat}
    {s s' : LowerState} (hs : Between V s s')
    (hargs : ∀ f, s.module.function? id = some f → ∀ a ∈ f.arguments, V.binds a.1) :
    Likewise V.strict (Between V) (body site id t s) (body site id t' s') := by
  cases hf : s.module.function? id with
  | none =>
    obtain ⟨u, hu⟩ := body_unknown site t hf
    obtain ⟨u', hu'⟩ := body_unknown site t' (by rw [hs.module]; exact hf)
    rw [hu, hu']
    exact .same
  | some f =>
    rw [body_eq hf, body_eq (by rw [hs.module]; exact hf)]
    have hopened : V.Varies 0 0 (opened site s id f) (opened site s' id f) :=
      { module := congrArg (·.setFunction id (f.addBlock "entry")) hs.module
        function := rfl
        block := rfl
        loops := rfl
        scope := .parameters hs.constants (hargs f hf)
        depth := rfl
        depth' := rfl
        flatter := Nat.le_refl 0
        level := fun _ => rfl }
    refine ((agrees_bodyCode h site _ _ 0 0).bind fun _ => ?_) hopened
    exact relates_modify fun _ _ ht => ⟨ht.module, ht.scope.constants⟩

abbrev Continues {α : Type} (V : Variation) (x y : Lower α) : Prop :=
  Relates V.strict (Between V) (Between V) x y

theorem continues_pure {α : Type} (a : α) : Continues V (pure a) (pure a) :=
  relates_pure (fun _ _ h => h) a

theorem continues_lift {α : Type} (x : Except LowerError α) : Continues V (lift x) (lift x) :=
  relates_lift (fun _ _ h => h) x

theorem continues_note (e e' : Event) : Continues V (note e) (note e') :=
  relates_modify fun _ _ h => { h with }

theorem continues_declareFunction {site : Site} (h : signature site ts' = signature site ts) :
    Continues V (declareFunction site ts) (declareFunction site ts') := by
  unfold declareFunction
  rw [h]
  refine (continues_lift _).bind fun sig => relates_get fun s s' hs => ?_
  rw [hs.module]
  have hdeclare : Continues V (declare sig) (declare sig) := by
    refine relates_get fun s s' hs => ?_
    rw [hs.module]
    refine Relates.bind (relates_modify fun _ _ h => ?_) fun _ => continues_pure _
    exact { h with module := congrArg (·.declare sig) h.module }
  split
  · exact relates_throw fun _ => rfl
  · exact hdeclare.bind fun _ => (continues_note _ _).bind fun _ => continues_pure _

theorem signature_rebodied {c c' : Tree} (h : c'.site = c.site) (site : Site)
    (result params : Tree) :
    signature site [result, params, c'] = signature site [result, params, c] := by
  have hbody : site.require 2 .block c' = site.require 2 .block c := by
    rw [Site.require, Site.require, Tree.kind, Tree.kind, h]
  rw [signature, signature, hbody]

end Bodies

section Items

variable {strict : Prop}

/-- The bodies of functions may be rewritten, and nothing else of an item. -/
inductive Revised (strict : Prop) : Tree → Tree → Prop
  | same (t : Tree) : Revised strict t t
  | body (site : Site) (result params : Tree) {c c' : Tree} (h : Alike (.plain strict) c c') :
      Revised strict (.node site [result, params, c]) (.node site [result, params, c'])

theorem Revised.site (h : Revised strict t t') : t'.site = t.site := by
  cases h with
  | same t => rfl
  | body => rfl

theorem Revised.signature (h : Revised strict t t') (site : Site) :
    signature site t'.children = signature site t.children := by
  cases h with
  | same t => rfl
  | body _ result params h => exact signature_rebodied h.site site result params

theorem continues_directive (site : Site) (ts : List Tree) :
    Continues (.plain strict) (directive site ts) (directive site ts) := by
  have hdefine : ∀ x n, Continues (.plain strict) (define x n) (define x n) := fun x n =>
    relates_modify fun _ _ h => { h with constants := congrArg ((x, n) :: ·) h.constants }
  unfold directive
  split
  · split
    · refine (continues_lift _).bind fun _ => ?_
      dsimp only
      split
      · exact relates_throw fun _ => rfl
      · refine (continues_lift _).bind fun n => ?_
        exact (continues_note _ _).bind fun _ => hdefine _ n
    · exact relates_throw fun _ => rfl
  · exact relates_throw fun _ => rfl

theorem continues_bodyOf (h : Revised strict t t') (site : Site) (id : Nat) :
    Continues (.plain strict) (bodyOf site t.children id) (bodyOf site t'.children id) := by
  have hbody : ∀ {c c' : Tree}, Alike (.plain strict) c c' →
      Continues (.plain strict) (body site id c) (body site id c') := fun hc _ _ hs =>
    likewise_body hc.block hs fun _ _ _ _ => trivial
  cases h with
  | body _ result params h => exact hbody h
  | same t =>
    unfold bodyOf
    split
    · exact hbody (alike_refl _)
    · exact relates_throw fun _ => rfl

theorem continues_item (h : Revised strict t t') (registered : Option Nat) :
    Continues (.plain strict) (item t registered) (item t' registered) := by
  unfold item Tree.kind
  rw [h.site]
  split
  · cases h with
    | same t => exact continues_directive _ _
    | body _ result params h =>
      -- a directive has no third child
      unfold directive
      split
      · exact relates_throw fun _ => rfl
      · exact relates_throw fun _ => rfl
  · cases registered with
    | some id =>
      rw [function_some, function_some]
      exact continues_bodyOf h _ id
    | none =>
      rw [function_none, function_none]
      exact (continues_declareFunction (h.signature _)).bind fun id => continues_bodyOf h _ id
  · exact relates_throw fun _ => rfl

theorem continues_items (h : List.Forall₂ (Revised strict) ts ts') (ids : List (Option Nat)) :
    Continues (.plain strict) (items (ts.zip ids)) (items (ts'.zip ids)) := by
  induction h generalizing ids with
  | nil => exact continues_pure ()
  | cons ht _ ih =>
    rcases ids with _ | ⟨id, ids⟩
    · exact continues_pure ()
    · exact (continues_item ht id).bind fun _ => ih ids

theorem continues_register (k id : Nat) :
    Continues (.plain strict) (register k id) (register k id) :=
  relates_modify fun _ _ h => { h with }

theorem continues_declareAll (h : List.Forall₂ (Revised strict) ts ts') (k : Nat) :
    Continues (.plain strict) (declareAll k ts) (declareAll k ts') := by
  induction h generalizing k with
  | nil => exact continues_pure []
  | cons ht _ ih =>
    have hrest := fun id : Option Nat =>
      (ih (k + 1)).bind fun ids => continues_pure (V := .plain strict) (id :: ids)
    rw [declareAll, declareAll, Tree.kind, Tree.kind, ht.site]
    split
    · refine (continues_declareFunction (ht.signature _)).bind fun id => ?_
      exact (continues_register k id).bind fun _ => hrest (some id)
    · exact hrest none

theorem continues_registration (h : List.Forall₂ (Revised strict) ts ts') (singlePass : Bool) :
    Continues (.plain strict) (registration singlePass ts) (registration singlePass ts') := by
  cases singlePass with
  | true =>
    have hblank : (ts'.map fun _ => (none : Option Nat)) = ts.map fun _ => none := by
      rw [List.map_const', List.map_const', h.length_eq]
    rw [registration, registration, if_pos rfl, if_pos rfl, hblank]
    exact continues_pure _
  | false => exact continues_declareAll h 0

theorem continues_conclude : Continues (.plain strict) conclude conclude := by
  refine relates_get fun s s' hs => ?_
  rw [hs.module]
  exact (continues_note _ _).bind fun _ => continues_pure _

theorem likewise_program (h : List.Forall₂ (Revised strict) ts ts') (singlePass : Bool)
    (site : Site) :
    Likewise strict (Between (.plain strict)) (program singlePass (.node site ts) .initial)
      (program singlePass (.node site ts') .initial) := by
  by_cases kind : site.kind = .program
  · rw [program_eq kind, program_eq kind]
    have hstarted : Between (.plain strict) (started site ts) (started site ts') := ⟨rfl, rfl⟩
    refine (continues_registration h singlePass).bind (fun ids => ?_) hstarted
    exact (continues_items h ids).bind fun _ => continues_conclude
  · rw [program_other kind, program_other kind]
    exact .same

/-- If the bodies of the functions of a program are rewritten into bodies that lower
alike, the program still lowers to the same module, and if errors agree, to the same
error. -/
theorem lower_revised (h : List.Forall₂ (Revised strict) ts ts') (singlePass : Bool) (site : Site) :
    (strict → ((Tree.node site ts').lower singlePass).result =
      ((Tree.node site ts).lower singlePass).result) ∧
    ∀ m, ((Tree.node site ts).lower singlePass).result = .ok m →
      ((Tree.node site ts').lower singlePass).result = .ok m := by
  have hrun := likewise_program h singlePass site
  -- the builder refuses nothing that a run on a program asks for
  have hcharged : ∀ e, ((Tree.node site ts').lower singlePass).result = .error e →
      e.ChargedTo (Tree.node site ts').sites := fun _ => Tree.lower_error_charged
  unfold Tree.lower at hcharged ⊢
  generalize program singlePass (.node site ts) .initial = r,
    program singlePass (.node site ts') .initial = r' at hrun hcharged
  cases hrun with
  | ok => exact ⟨fun _ => rfl, fun _ h => h⟩
  | same => exact ⟨fun _ => rfl, fun _ h => h⟩
  | lax hlax => exact ⟨fun hstrict => absurd hstrict hlax, fun _ h => by cases h⟩
  | refused hlax hkind => exact absurd hkind (hcharged _ rfl).kind

end Items

end Lower

end TreeFlow
