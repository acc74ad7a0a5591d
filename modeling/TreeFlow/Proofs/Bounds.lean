import TreeFlow.Proofs.Blame
import TreeFlow.Proofs.Flattening
import TreeFlow.Proofs.Linking

/-!
# No access outside of a list

A run by position takes the same steps as the lowering itself: from the flat
form of a state it ends in the flat form of the state where the lowering ends,
with the same value or the same error. So no index and no position ever lies
outside of its list. For a child this follows from the check of arity in front
of it; the body of a function that was registered early is covered by the check
made when it was registered.
-/

set_option autoImplicit false

namespace TreeFlow

namespace Positional

variable {α : Type} {s : LowerState} {ts : List Tree} {site : Site}

/-! ## Children -/

section Children

variable {x : Lower α}

theorem renders_arity {least most : Nat} {l : Unit → Positional α} (hleast : least ≤ ts.length)
    (hmost : ts.length ≤ most) (h : Renders s x (l ())) :
    Renders s x (check ((Tree.node site ts).checkArity least most) >>= l) := by
  have hok : (Tree.node site ts).checkArity least most = .ok () := by
    simp only [Tree.checkArity, Tree.children]
    exact if_neg (by omega)
  rw [hok]
  exact h

theorem renders_wrongArity {least most : Nat} {l : Unit → Positional α}
    (hlength : ts.length < least ∨ most < ts.length) :
    Renders s (throw (site.wrongArity least most ts.length))
      (check ((Tree.node site ts).checkArity least most) >>= l) := by
  have herror : (Tree.node site ts).checkArity least most =
      .error (site.wrongArity least most ts.length) := by
    simp only [Tree.checkArity, Tree.children, Tree.site]
    exact if_pos hlength
  rw [herror]
  exact renders_fail _

theorem renders_read {γ : Type} {xs : List γ} {i : Nat} {c : γ} {l : {c // c ∈ xs} → Positional α}
    (hc : xs[i]? = some c) (h : Renders s x (l ⟨c, List.mem_of_getElem? hc⟩)) :
    Renders s x (read xs i >>= l) := by
  obtain ⟨hi, rfl⟩ := List.getElem?_eq_some_iff.mp hc
  rw [read, dif_pos hi]
  exact h

theorem renders_expect {i : Nat} {k : Kind} {c : Tree}
    {l : {c // c ∈ (Tree.node site ts).children} → Positional α} (hc : ts[i]? = some c)
    (h : c.kind = k → Renders s x (l ⟨c, List.mem_of_getElem? hc⟩)) :
    Renders s (Lower.lift (site.require i k c) >>= fun _ => x)
      (expect (.node site ts) i k >>= l) := by
  have hchild : (Tree.node site ts).child i k = (site.require i k c).map fun _ => c := by
    simp only [Tree.child, Tree.children, hc]
    rfl
  by_cases hk : c.kind = k
  · have hok : site.require i k c = .ok () := if_pos hk
    have hexpect : expect (.node site ts) i k = pure ⟨c, List.mem_of_getElem? hc⟩ := by
      unfold expect
      split
      · rename_i d hd
        rw [hchild, hok] at hd
        cases hd
        rfl
      · rename_i e he
        rw [hchild, hok] at he
        cases he
    rw [hok, hexpect]
    exact h hk
  · have herror : site.require i k c = .error (site.fault (.wrongChild i site.kind k c.kind)) :=
      if_neg hk
    have hexpect : expect (.node site ts) i k =
        fail (site.fault (.wrongChild i site.kind k c.kind)) := by
      unfold expect
      split
      · rename_i d hd
        rw [hchild, herror] at hd
        cases hd
      · rename_i e he
        rw [hchild, herror] at he
        cases he
        rfl
    rw [herror, hexpect]
    exact renders_fail _

end Children

/-! ## Expressions -/

theorem renders_arguments (h : ∀ t ∈ ts, ∀ s, Renders s (Lower.expression t) (expression t))
    (c : Callee) (args : List Value) :
    Renders s (Lower.arguments c args ts) (arguments c args ts) := by
  induction ts generalizing args s with
  | nil =>
    rw [Lower.arguments, arguments]
    exact renders_pure args
  | cons t ts ih =>
    rw [Lower.arguments, arguments]
    refine (h t (by simp) s).bind fun v _ _ => ?_
    refine (renders_check _).bind fun _ _ _ => ?_
    exact ih (fun t ht => h t (by simp [ht])) _

theorem renders_expression (t : Tree) (s : LowerState) :
    Renders s (Lower.expression t) (expression t) := by
  induction t using Tree.induct generalizing s with
  | node site ts ih =>
    rw [Lower.expression.eq_def, expression.eq_def]
    refine renders_nested fun s => ?_
    have hkind : (Tree.node site ts).kind = site.kind := rfl
    rw [hkind]
    cases site.kind with
    | literal =>
      cases ts with
      | nil => exact renders_arity (by simp) (by simp) (renders_check _)
      | cons _ _ => exact renders_wrongArity (by simp)
    | identifier =>
      cases ts with
      | nil => exact renders_arity (by simp) (by simp) (renders_name site)
      | cons _ _ => exact renders_wrongArity (by simp)
    | binaryExpression =>
      rcases ts with _ | ⟨l, _ | ⟨r, _ | ⟨_, _⟩⟩⟩
      · exact renders_wrongArity (by simp)
      · exact renders_wrongArity (by simp)
      · refine renders_arity (by simp) (by simp) ?_
        refine (renders_check _).bind fun op s _ => ?_
        refine renders_read rfl ?_
        refine (ih l (by simp) s).bind fun lhs s _ => ?_
        refine renders_read rfl ?_
        exact (ih r (by simp) s).bind fun rhs s _ => renders_operate site op lhs rhs
      · exact renders_wrongArity (by simp)
    | functionCall =>
      refine (renders_callee site _).bind fun c s _ => ?_
      refine (renders_arguments ih c c.leading).bind fun args s _ => ?_
      refine (renders_call c.id args).bind fun v s _ => ?_
      cases v with
      | some v => exact renders_pure v
      | none => exact renders_fail _
    | _ => exact renders_fail _

theorem renders_functionCall (site : Site) (ts : List Tree) :
    Renders s (Lower.functionCall (.node site ts)) (functionCall (.node site ts)) := by
  refine (renders_callee site _).bind fun c s _ => ?_
  refine (renders_arguments (fun t _ => renders_expression t) c c.leading).bind fun args s _ => ?_
  exact renders_call c.id args

theorem renders_condition (t : Tree) : Renders s (Lower.condition t) (condition t) := by
  refine (renders_expression t s).bind fun v s _ => ?_
  cases v.ty with
  | i1 => exact renders_pure v
  | i32 => exact renders_icmp .ne v (.int 0)
  | _ => exact renders_fail _

/-! ## Statements -/

theorem renders_bind (name : String) (storage : Storage) :
    Renders s (Lower.bind name storage) (of (Lower.bind name storage)) :=
  renders_modify rfl fun h => h

theorem renders_variableSlot {type : Tree} (h : ts[0]? = some type) :
    Renders s (Lower.variableSlot site type.site) (variableSlot (.node site ts)) := by
  unfold Lower.variableSlot variableSlot
  have hname : (Tree.node site ts).name = site.name := rfl
  rw [hname]
  by_cases hempty : site.name.isEmpty = true
  · simp only [if_pos hempty]
    exact renders_fail _
  · simp only [if_neg hempty]
    refine renders_read h ?_
    refine (renders_check _).bind fun ty s _ => ?_
    by_cases hvoid : ty.isVoid = true
    · simp only [if_pos hvoid]
      exact renders_fail _
    · simp only [if_neg hvoid]
      refine (renders_alloca ty).bind fun p s _ => ?_
      exact (renders_bind _ _).bind fun _ _ _ => renders_pure _

theorem renders_variableDeclaration (site : Site) (ts : List Tree) :
    Renders s (Lower.variableDeclaration site ts) (variableDeclaration (.node site ts)) := by
  match ts with
  | [type] =>
    refine renders_arity (by simp) (by simp) ?_
    exact (renders_variableSlot rfl).bind fun _ _ _ => renders_pure ()
  | [type, init] =>
    refine renders_arity (by simp) (by simp) ?_
    refine (renders_variableSlot rfl).bind fun slot s _ => ?_
    refine (renders_expression init s).bind fun v s _ => ?_
    exact (renders_check _).bind fun _ s _ => renders_store v slot.1
  | [] | _ :: _ :: _ :: _ => exact renders_wrongArity (by simp)

theorem renders_promote (name : String) (v : Value) :
    Renders s (Lower.promote name v) (promote name v) := by
  refine (renders_alloca v.ty).bind fun p s _ => ?_
  refine (renders_seed v p).bind fun _ s _ => ?_
  refine (renders_bind _ _).bind fun _ s _ => ?_
  exact (renders_note _).bind fun _ s _ => renders_pure _

theorem renders_assignedSlot (site : Site) :
    Renders s (Lower.assignedSlot site) (assignedSlot site) := by
  refine (renders_lookup site.name).bind fun b s _ => ?_
  match b with
  | some (.stored (.slot p ty)) => exact renders_pure _
  | some (.stored (.register v)) => exact renders_promote site.name v
  | some (.constant _) => exact renders_fail _
  | none => exact renders_fail _

theorem renders_assignment (site : Site) (ts : List Tree) :
    Renders s (Lower.assignment site ts) (assignment (.node site ts)) := by
  match ts with
  | [op, rhs] =>
    refine renders_arity (by simp) (by simp) ?_
    refine renders_expect rfl fun _ => ?_
    refine (renders_check _).bind fun update s _ => ?_
    refine (renders_assignedSlot site).bind fun slot s _ => ?_
    refine (renders_load slot.2 slot.1).bind fun old s _ => ?_
    refine renders_read rfl ?_
    refine (renders_expression rhs s).bind fun new s _ => ?_
    refine (renders_check _).bind fun _ s _ => ?_
    cases update with
    | replace =>
      refine (renders_pure new).bind fun result s _ => ?_
      exact (renders_store result slot.1).bind fun _ s _ => renders_bind _ _
    | combine op =>
      refine (renders_binary op old new).bind fun result s _ => ?_
      exact (renders_store result slot.1).bind fun _ s _ => renders_bind _ _
  | [] | [_] | _ :: _ :: _ :: _ => exact renders_wrongArity (by simp)

theorem renders_returnStatement (site : Site) (ts : List Tree) :
    Renders s (Lower.returnStatement site ts) (returnStatement (.node site ts)) := by
  match ts with
  | [] => exact renders_arity (by simp) (by simp) (renders_ret none)
  | [t] =>
    refine renders_arity (by simp) (by simp) ?_
    exact (renders_expression t s).bind fun v s _ => renders_ret (some v)
  | _ :: _ :: _ => exact renders_wrongArity (by simp)

theorem renders_jump (site : Site) (outside : Cause) (target : LoopTargets → Nat)
    (ts : List Tree) :
    Renders s (Lower.jump site outside target ts) (jump (.node site ts) outside target) := by
  match ts with
  | [] =>
    refine renders_arity (by simp) (by simp) ?_
    have hloop : Renders s Lower.innermostLoop (of Lower.innermostLoop) := fun hs => ⟨rfl, hs⟩
    refine hloop.bind fun l s _ => ?_
    cases l with
    | some l => exact renders_br _
    | none => exact renders_fail _
  | _ :: _ => exact renders_wrongArity (by simp)

theorem renders_conditional {test : Tree} (htest : ts[0]? = some test) {yes : Nat → Lower Unit}
    {yes' : Nat → Positional Unit} (hyes : ∀ b s, Renders s (yes b) (yes' b))
    {no : Option (Nat → Lower Unit)} {no' : Option (Nat → Positional Unit)}
    (hno : Option.Rel (fun x y => ∀ b s, Renders s (x b) (y b)) no no') :
    Renders s (Lower.conditional test yes no) (conditional (.node site ts) yes' no') := by
  refine renders_read htest ?_
  refine (renders_condition test).bind fun c s _ => ?_
  refine (renders_newBlock _).bind fun y s _ => ?_
  refine (renders_newBlock _).bind fun e s _ => ?_
  cases hno with
  | none =>
    refine (renders_pure e).bind fun n s _ => ?_
    refine (renders_condBr c y n).bind fun _ s _ => ?_
    refine (hyes y s).bind fun _ s _ => ?_
    refine (renders_fallThrough e).bind fun _ s _ => ?_
    exact renders_setBlock e
  | some h =>
    refine (renders_newBlock _).bind fun n s _ => ?_
    refine (renders_condBr c y n).bind fun _ s _ => ?_
    refine (hyes y s).bind fun _ s _ => ?_
    refine (renders_fallThrough e).bind fun _ s _ => ?_
    refine (h n s).bind fun _ s _ => ?_
    refine (renders_fallThrough e).bind fun _ s _ => ?_
    exact renders_setBlock e

theorem renders_loop {test : Tree} (htest : ts[0]? = some test) {body : Nat → Lower Unit}
    {body' : Nat → Positional Unit} (hbody : ∀ b s, Renders s (body b) (body' b)) :
    Renders s (Lower.loop test body) (loop (.node site ts) body') := by
  refine (renders_newBlock _).bind fun c s _ => ?_
  refine (renders_newBlock _).bind fun b s _ => ?_
  refine (renders_newBlock _).bind fun e s _ => ?_
  refine (renders_br c).bind fun _ s _ => ?_
  refine (renders_setBlock c).bind fun _ s _ => ?_
  refine renders_read htest ?_
  refine (renders_condition test).bind fun v s _ => ?_
  refine (renders_condBr v b e).bind fun _ s _ => ?_
  refine (renders_inLoop (hbody b)).bind fun _ s _ => ?_
  refine (renders_fallThrough c).bind fun _ s _ => ?_
  exact renders_setBlock e

theorem renders_statements (h : ∀ t ∈ ts, ∀ s, Renders s (Lower.statement t) (statement t)) :
    Renders s (Lower.statements ts) (statements ts) := by
  induction ts generalizing s with
  | nil =>
    rw [Lower.statements, statements]
    exact renders_pure ()
  | cons t ts ih =>
    rw [Lower.statements, statements]
    refine renders_terminated.bind fun ended s _ => ?_
    cases ended with
    | true => exact renders_note _
    | false =>
      refine (h t (by simp) s).bind fun _ s _ => ?_
      exact ih fun t ht => h t (by simp [ht])

theorem renders_block (h : ∀ t ∈ ts, ∀ s, Renders s (Lower.statement t) (statement t)) (b : Nat) :
    Renders s (Lower.block b (.node site ts)) (block b (.node site ts)) := by
  rw [Lower.block, block]
  have hkind : (Tree.node site ts).kind = site.kind := rfl
  rw [hkind]
  by_cases hblock : site.kind = .block
  · simp only [if_pos hblock]
    exact (renders_setBlock b).bind fun _ _ _ => renders_statements h
  · simp only [if_neg hblock]
    exact renders_fail _

def RendersTree (t : Tree) : Prop :=
  (∀ s, Renders s (Lower.statement t) (statement t)) ∧
    ∀ b s, Renders s (Lower.block b t) (block b t)

theorem renders_elseArm {no : Tree} (h : RendersTree no) (b : Nat) :
    Renders s (Lower.elseArm no b)
      (if no.kind = .block then block b no
      else if no.kind = .statement ∧ no.name = "if" then do
        of (Lower.setBlock b)
        statement no
      else fail (no.site.fault (.notElse no.kind))) := by
  unfold Lower.elseArm
  by_cases hblock : no.kind = .block
  · simp only [if_pos hblock]
    exact h.2 b s
  · simp only [if_neg hblock]
    by_cases hchain : no.kind = .statement ∧ no.name = "if"
    · simp only [if_pos hchain]
      exact (renders_setBlock b).bind fun _ s _ => h.1 s
    · simp only [if_neg hchain]
      exact renders_fail _

theorem renders_whileStatement (hkind : site.kind = .whileStatement)
    (ih : ∀ t ∈ ts, RendersTree t) :
    Renders s (Lower.statement (.node site ts)) (statement (.node site ts)) := by
  have hnode : (Tree.node site ts).kind = .whileStatement := hkind
  rw [Lower.statement.eq_def, statement.eq_def]
  refine renders_nested fun s => ?_
  simp only [hkind, hnode]
  rcases ts with _ | ⟨test, _ | ⟨body, _ | ⟨_, _⟩⟩⟩
  · exact renders_wrongArity (by simp)
  · exact renders_wrongArity (by simp)
  · refine renders_arity (by simp) (by simp) ?_
    refine renders_expect rfl fun _ => ?_
    exact renders_loop rfl (ih body (by simp)).2
  · exact renders_wrongArity (by simp)

theorem renders_ifStatement (hkind : site.kind = .statement) (hname : site.name = "if")
    (ih : ∀ t ∈ ts, RendersTree t) :
    Renders s (Lower.statement (.node site ts)) (statement (.node site ts)) := by
  have hnode : (Tree.node site ts).kind = .statement := hkind
  have hif : (Tree.node site ts).name = "if" := hname
  rw [Lower.statement.eq_def, statement.eq_def]
  refine renders_nested fun s => ?_
  simp only [hkind, hnode, if_pos hname, if_pos hif]
  rcases ts with _ | ⟨test, _ | ⟨yes, _ | ⟨no, _ | ⟨_, _⟩⟩⟩⟩
  · exact renders_wrongArity (by simp)
  · exact renders_wrongArity (by simp)
  · refine renders_arity (by simp) (by simp) ?_
    refine renders_expect rfl fun _ => ?_
    exact renders_conditional rfl (ih yes (by simp)).2 .none
  · refine renders_arity (by simp) (by simp) ?_
    refine renders_expect rfl fun _ => ?_
    exact renders_conditional rfl (ih yes (by simp)).2
      (.some fun b s => renders_elseArm (ih no (by simp)) b)
  · exact renders_wrongArity (by simp)

theorem renders_jumpStatement (hkind : site.kind = .statement) (hname : site.name ≠ "if") :
    Renders s (Lower.statement (.node site ts)) (statement (.node site ts)) := by
  have hnode : (Tree.node site ts).kind = .statement := hkind
  have hif : (Tree.node site ts).name ≠ "if" := hname
  have hsame : (Tree.node site ts).name = site.name := rfl
  rw [Lower.statement.eq_def, statement.eq_def]
  refine renders_nested fun s => ?_
  simp only [hkind, hnode, if_neg hname, if_neg hif]
  rw [hsame]
  by_cases hbreak : site.name = "break"
  · simp only [if_pos hbreak]
    exact renders_jump site .breakOutsideLoop (·.onBreak) ts
  · simp only [if_neg hbreak]
    by_cases hcontinue : site.name = "continue"
    · simp only [if_pos hcontinue]
      exact renders_jump site .continueOutsideLoop (·.onContinue) ts
    · simp only [if_neg hcontinue]
      exact renders_fail _

theorem renders_tree (t : Tree) : RendersTree t := by
  induction t using Tree.induct with
  | node site ts ih =>
    refine ⟨fun s => ?_, fun b s => renders_block (fun t ht => (ih t ht).1) b⟩
    by_cases hwhile : site.kind = .whileStatement
    · exact renders_whileStatement hwhile ih
    by_cases hstatement : site.kind = .statement
    · by_cases hif : site.name = "if"
      · exact renders_ifStatement hstatement hif ih
      · exact renders_jumpStatement hstatement hif
    rw [Lower.statement.eq_def, statement.eq_def]
    refine renders_nested fun s => ?_
    have hkind : (Tree.node site ts).kind = site.kind := rfl
    rw [hkind]
    cases hk : site.kind with
    | variableDeclaration => exact renders_variableDeclaration site ts
    | assignment => exact renders_assignment site ts
    | returnStatement => exact renders_returnStatement site ts
    | whileStatement => exact absurd hk hwhile
    | statement => exact absurd hk hstatement
    | functionCall =>
      exact (renders_functionCall site ts).bind fun _ _ _ => renders_pure ()
    | block => exact renders_statements fun t ht => (ih t ht).1
    | _ => exact renders_fail _

/-! ## Programs -/

theorem lift_bind {γ : Type} (x : Except LowerError γ) (k : γ → Except LowerError α) :
    Lower.lift (x >>= k) = Lower.lift x >>= fun a => Lower.lift (k a) := by
  cases x with
  | ok a => rfl
  | error e => rfl

theorem renders_parameter (t : Tree) :
    Renders s (Lower.lift (Lower.parameter t)) (parameter t) := by
  unfold Lower.parameter parameter
  by_cases h : t.kind = .variableDeclaration ∧ t.name.isEmpty = false
  · simp only [if_pos h]
    cases t with
    | node site ts =>
      match ts with
      | [type] =>
        refine renders_arity (by simp) (by simp) ?_
        refine renders_read rfl ?_
        simp only [Tree.children]
        rw [lift_bind]
        refine (renders_check _).bind fun ty s _ => ?_
        by_cases hvoid : ty.isVoid = true
        · simp only [if_pos hvoid]
          exact renders_fail _
        · simp only [if_neg hvoid]
          exact renders_pure _
      | [] | _ :: _ :: _ => exact renders_wrongArity (by simp [Tree.children])
  · simp only [if_neg h]
    exact renders_fail _

theorem renders_parameters (ts : List Tree) :
    Renders s (Lower.lift (ts.mapM Lower.parameter)) (ts.mapM parameter) := by
  induction ts generalizing s with
  | nil => exact renders_pure []
  | cons t ts ih =>
    rw [List.mapM_cons, List.mapM_cons, lift_bind]
    refine (renders_parameter t).bind fun p s _ => ?_
    rw [lift_bind]
    exact ih.bind fun ps _ _ => renders_pure (p :: ps)

theorem renders_signature (site : Site) (ts : List Tree) :
    Renders s (Lower.lift (Lower.signature site ts)) (signature (.node site ts)) := by
  match ts with
  | [result, params, body] =>
    unfold Lower.signature
    refine renders_arity (by simp) (by simp) ?_
    rw [lift_bind]
    refine renders_expect rfl fun _ => ?_
    rw [lift_bind]
    refine (renders_check _).bind fun ret s _ => ?_
    rw [lift_bind]
    refine renders_expect rfl fun _ => ?_
    rw [lift_bind]
    refine renders_expect rfl fun _ => ?_
    rw [lift_bind]
    exact (renders_parameters _).bind fun _ _ _ => renders_pure _
  | [] | [_] | [_, _] | _ :: _ :: _ :: _ :: _ => exact renders_wrongArity (by simp)

theorem renders_declareFunction (site : Site) (ts : List Tree) :
    Renders s (Lower.declareFunction site ts) (declareFunction (.node site ts)) := by
  refine (renders_signature site ts).bind fun sig s _ => ?_
  refine renders_get ?_
  have hfind : s.flat.module.find? (Tree.node site ts).name = s.module.find? site.name :=
    find?_flat _ _
  rw [hfind]
  by_cases h : (s.module.find? site.name).isSome = true
  · simp only [if_pos h]
    exact renders_fail _
  · simp only [if_neg h]
    refine (renders_declare sig).bind fun id s _ => ?_
    exact (renders_note _).bind fun _ _ _ => renders_pure id

theorem renders_declareFrom (k : Nat) (ts : List Tree) :
    Renders s (Lower.declareFrom k ts) (declareFrom k ts) := by
  induction ts generalizing k s with
  | nil => exact renders_pure ()
  | cons t ts ih =>
    rw [Lower.declareFrom, declareFrom]
    by_cases h : t.kind = .functionDeclaration
    · simp only [if_pos h]
      cases t with
      | node site children =>
        refine (renders_declareFunction site children).bind fun id s _ => ?_
        exact Renders.bind (renders_modify rfl fun h => h) fun _ s _ => ih (k + 1)
    · simp only [if_neg h]
      exact ih (k + 1)

theorem renders_enter (id : Nat) : Renders s (Lower.enter id) (of (Lower.enter id)) := by
  unfold Lower.enter
  rw [of_bind]
  refine Renders.bind (renders_modify rfl fun h => h) fun _ s _ => ?_
  rw [of_bind]
  refine (renders_inFunction (View.flat.newBlock _)).bind fun b s _ => ?_
  rw [of_bind]
  exact Renders.bind (renders_modify rfl fun h => h) fun _ _ _ => renders_pure b

theorem renders_bindAll (args : List (String × Value)) :
    Renders s (Lower.bindAll args) (of (Lower.bindAll args)) := by
  induction args generalizing s with
  | nil => exact renders_pure ()
  | cons a args ih =>
    rw [Lower.bindAll, of_bind]
    exact (renders_bind _ _).bind fun _ _ _ => ih

theorem renders_body (site : Site) (id : Nat) {code : Tree} (h : ts[2]? = some code) :
    Renders s (Lower.body site id code) (body (.node site ts) id) := by
  refine (renders_note _).bind fun _ s _ => ?_
  refine (renders_enter id).bind fun entry s _ => ?_
  refine renders_current fun f => ?_
  refine (renders_bindAll f.arguments).bind fun _ s _ => ?_
  refine renders_read h ?_
  refine ((renders_tree code).2 entry s).bind fun _ s _ => ?_
  refine renders_terminated.bind fun ended s _ => ?_
  have hleave : ∀ s, Renders s Lower.leave (of Lower.leave) := fun s =>
    renders_modify rfl fun h => h
  cases ended with
  | true => exact (renders_pure ()).bind fun _ s _ => hleave s
  | false =>
    refine (renders_note _).bind fun _ s _ => ?_
    exact (renders_ret _).bind fun _ s _ => hleave s

/-- A registered function has the children that its registration counted. -/
theorem renders_function {registered : Option Nat}
    (h : ∀ id, registered = some id → ∃ sig, Lower.signature site ts = .ok sig) :
    Renders s (Lower.function site registered ts) (function (.node site ts) registered) := by
  have hbody : ∀ {sig} id s, Lower.signature site ts = .ok sig →
      Renders s (Lower.bodyOf site ts id) (body (.node site ts) id) := by
    intro sig id s hsig
    obtain ⟨result, params, code, rfl, -⟩ := Lower.signature_ok hsig
    exact renders_body site id rfl
  cases registered with
  | some id =>
    obtain ⟨sig, hsig⟩ := h id rfl
    exact hbody id s hsig
  | none =>
    refine (renders_declareFunction site ts).bind fun id s hid => ?_
    obtain ⟨sig, hsig, -⟩ := Lower.declareFunction_ok hid
    exact hbody id s hsig

theorem renders_directive (site : Site) (ts : List Tree) :
    Renders s (Lower.directive site ts) (directive (.node site ts)) := by
  unfold Lower.directive directive
  have hname : (Tree.node site ts).name = site.name := rfl
  rw [hname]
  by_cases hdefine : site.name = "#define"
  · simp only [if_pos hdefine]
    match ts with
    | [name, value] =>
      refine renders_arity (by simp) (by simp) ?_
      refine renders_expect rfl fun _ => ?_
      refine renders_read rfl ?_
      by_cases hkind : value.kind ≠ .literal
      · simp only [if_pos hkind]
        exact renders_fail _
      · simp only [if_neg hkind]
        refine (renders_check _).bind fun n s _ => ?_
        refine (renders_note _).bind fun _ s _ => ?_
        exact renders_modify rfl fun h => h
    | [] | [_] | _ :: _ :: _ :: _ => exact renders_wrongArity (by simp)
  · simp only [if_neg hdefine]
    exact renders_fail _

theorem renders_item {t : Tree} {registered : Option Nat}
    (h : ∀ id, registered = some id → ∃ sig, Lower.signature t.site t.children = .ok sig) :
    Renders s (Lower.item t registered) (item t registered) := by
  cases t with
  | node site ts =>
    unfold Lower.item item
    cases (Tree.node site ts).kind with
    | preprocessorDirective => exact renders_directive site ts
    | functionDeclaration => exact renders_function h
    | _ => exact renders_fail _

theorem renders_itemsFrom {k : Nat} (h : ∀ i ∈ s.listed k ts, ∀ id, i.2 = some id →
      ∃ sig, Lower.signature i.1.site i.1.children = .ok sig) :
    Renders s (Lower.itemsFrom k ts) (itemsFrom k ts) := by
  induction ts generalizing k s with
  | nil => exact renders_pure ()
  | cons c ts ih =>
    have hread : Renders s (Lower.registered? k) (of (Lower.registered? k)) := fun hs => ⟨rfl, hs⟩
    rw [Lower.itemsFrom, itemsFrom]
    refine hread.bind fun r s' hr => ?_
    cases hr
    refine (renders_item (h _ (List.mem_cons_self ..))).bind fun _ t ht => ih fun i hi => ?_
    rw [LowerState.listed_congr (Lower.item_registered ht)] at hi
    exact h i (List.mem_cons_of_mem _ hi)

theorem renders_finished :
    Renders s
      (get >>= fun u => do
        Lower.note (.programFinished u.module.functions.length u.module.globals.length)
        pure u.module.flat)
      (get >>= fun u => do
        of (Lower.note (.programFinished u.module.functions.length u.module.globals.length))
        pure u.module) := by
  have hlength : s.flat.module.functions.length = s.module.functions.length := List.length_map _
  refine renders_get ?_
  rw [hlength]
  exact (renders_note _).bind fun _ _ _ => renders_pure _

theorem renders_program (singlePass : Bool) (t : Tree) :
    Renders .initial (Module.flat <$> Lower.program singlePass t) (program singlePass t) := by
  cases t with
  | node site ts =>
    have hkind : (Tree.node site ts).kind = site.kind := rfl
    rw [Lower.program, program, hkind]
    by_cases h : site.kind = .program
    · rw [if_pos h, if_pos h, map_bind]
      refine (renders_note _).bind fun _ s hs => ?_
      cases hs
      cases singlePass with
      | true =>
        simp only [Bool.not_true, Bool.false_eq_true, ↓reduceIte, map_bind, map_pure]
        refine (renders_itemsFrom fun i hi id hid => ?_).bind fun _ s _ => renders_finished
        rw [LowerState.listed_blank rfl] at hi
        have hmem := (List.of_mem_zip hi).2
        simp [hid] at hmem
      | false =>
        simp only [Bool.not_false, ↓reduceIte, map_bind, map_pure]
        refine (renders_declareFrom 0 ts).bind fun _ s hs => ?_
        rw [Lower.declareFrom_eq] at hs
        obtain ⟨ids, t, ht, hs⟩ := Lower.bind_ok.mp hs
        cases hs
        obtain ⟨-, -, hwaiting, -⟩ := Lower.declareAll_waiting ht
        refine (renders_itemsFrom fun i hi id hid => ?_).bind fun _ s _ => renders_finished
        rw [Lower.declareAll_listed ht fun _ _ => rfl] at hi
        obtain ⟨sig, hsig, -⟩ := hwaiting.pending i hi id hid
        exact ⟨sig, hsig⟩
    · simp only [if_neg h]
      exact renders_fail _

end Positional

/-- Lowering a tree by position never leaves a list: it ends as the lowering
does, in the flat form of the same module or in the same error. That error is
not a refusal of the builder, and its site is the site of a node of the tree. -/
theorem Tree.lower_inBounds (singlePass : Bool) (t : Tree) :
    (∃ m, (t.lower singlePass).result = .ok m ∧ t.lowerByPosition singlePass = .ok m.flat) ∨
      ∃ e, (t.lower singlePass).result = .error e ∧
        t.lowerByPosition singlePass = .error (.error e) ∧
        e.cause.kind ≠ .invalidIr ∧ ∃ site ∈ t.sites, e.site = some site := by
  have hempty : LowerState.initial.Rooted := fun f hf => by cases hf
  obtain ⟨hrun, -⟩ := Positional.renders_program singlePass t hempty
  have hflat : LowerState.initial.flat = .initial := rfl
  rw [hflat] at hrun
  cases hlower : Lower.program singlePass t .initial with
  | ok m s =>
    have hmap : (Module.flat <$> Lower.program singlePass t) .initial = .ok m.flat s := by
      change EStateM.map Module.flat (Lower.program singlePass t) .initial = _
      rw [EStateM.map, hlower]
    refine .inl ⟨m, by rw [Tree.lower, hlower], ?_⟩
    rw [Tree.lowerByPosition, hrun, hmap]
    rfl
  | error e s =>
    have hmap : (Module.flat <$> Lower.program singlePass t) .initial = .error e s := by
      change EStateM.map Module.flat (Lower.program singlePass t) .initial = _
      rw [EStateM.map, hlower]
    have hresult : (t.lower singlePass).result = .error e := by rw [Tree.lower, hlower]
    obtain ⟨hkind, hsite⟩ := Tree.lower_error_charged hresult
    refine .inr ⟨e, hresult, ?_, hkind, hsite⟩
    rw [Tree.lowerByPosition, hrun, hmap]
    rfl

end TreeFlow
