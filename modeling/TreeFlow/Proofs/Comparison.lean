import TreeFlow.Proofs.Form
import TreeFlow.Proofs.Source
import Mathlib.Data.List.Forall2

/-!
# Comparing runs

Lowering a statement is put together from a few operations on the state. A
comparison of two runs that holds for each of these operations and that sequences
keep therefore holds for the lowering of every statement. What the comparison
says of the states is left open. Of two values it says at least that they have
the same type, and it says nothing about an action if the first run of it fails.
-/

set_option autoImplicit false

namespace TreeFlow

/-! ## Related values -/

section Related

variable (R : Value → Value → Prop)

inductive Storage.Related : Storage → Storage → Prop
  | register {v w : Value} (value : R v w) : Related (.register v) (.register w)
  | slot {p q : Value} {ty : Ty} (pointer : R p q) : Related (.slot p ty) (.slot q ty)

inductive Binding.Related : Binding → Binding → Prop
  | stored {s s' : Storage} (storage : s.Related R s') : Related (.stored s) (.stored s')
  | constant {n : Int} : Related (.constant n) (.constant n)

inductive Instr.Related : Instr → Instr → Prop
  | load {d : Nat} {ty : Ty} {p q : Value} (pointer : R p q) :
      Related (.load d ty p) (.load d ty q)
  | binary {d : Nat} {op : Arith} {l r l' r' : Value} (left : R l l') (right : R r r') :
      Related (.binary d op l r) (.binary d op l' r')
  | icmp {d : Nat} {test : Compare} {l r l' r' : Value} (left : R l l') (right : R r r') :
      Related (.icmp d test l r) (.icmp d test l' r')

inductive Terminator.Related : Terminator → Terminator → Prop
  | br {target : Nat} : Related (.br target) (.br target)
  | condBr {c c' : Value} {yes no : Nat} (condition : R c c') :
      Related (.condBr c yes no) (.condBr c' yes no)
  | ret {v w : Option Value} (value : v.Rel R w) : Related (.ret v) (.ret w)

end Related

theorem Storage.Related.eq {s s' : Storage} (h : s.Related Eq s') : s = s' := by
  cases h with
  | register h => rw [h]
  | slot h => rw [h]

theorem Binding.related_refl {R : Value → Value → Prop} (h : ∀ v, R v v) (b : Binding) :
    b.Related R b := by
  cases b with
  | constant n => exact .constant
  | stored s =>
    cases s with
    | register v => exact .stored (.register (h v))
    | slot p ty => exact .stored (.slot (h p))

theorem Terminator.Related.eq {x y : Terminator} (h : x.Related Eq y) : x = y := by
  cases h with
  | br => rfl
  | condBr h => rw [h]
  | ret h =>
    cases h with
    | none => rfl
    | some h => rw [h]

theorem Scope.lookup_related {R : Value → Value → Prop} {scope scope' : Scope} {x : String}
    (hlocal : (scope.local? x).Rel (Storage.Related R) (scope'.local? x))
    (hconstants : scope'.constants = scope.constants) :
    (scope.lookup x).Rel (Binding.Related R) (scope'.lookup x) := by
  unfold lookup constant?
  rw [hconstants]
  generalize scope.local? x = b, scope'.local? x = b' at hlocal
  cases hlocal with
  | some h => exact .some (.stored h)
  | none =>
    cases scope.constants.lookup x with
    | none => exact .none
    | some n => exact .some .constant

namespace Lower

def bodyCode (site : Site) (b : Nat) (ty : Ty) (c : Tree) : Lower Unit := do
  block b c
  if !(← terminated) then
    note (.bodyFellOff site.name)
    ret (defaultReturn ty)

theorem body_eq {site : Site} {id : Nat} {f : Function} {c : Tree} {s : LowerState}
    (hf : s.module.function? id = some f) :
    body site id c s =
      (bodyCode site f.bodies.length f.ret c >>= fun _ => leave) (opened site s id f) := by
  rw [body_run hf]
  unfold bodyCode
  simp only [bind_assoc]
  refine congrFun (congrArg _ (funext fun _ => congrArg _ (funext fun ended => ?_))) _
  cases ended <;> rfl

theorem body_ok {site : Site} {id : Nat} {f : Function} {c : Tree} {s v : LowerState} {x : Unit}
    (hf : s.module.function? id = some f) :
    body site id c s = .ok x v ↔ ∃ u,
      bodyCode site f.bodies.length f.ret c (opened site s id f) = .ok () u ∧
        v = { u with function := none, block := none } := by
  rw [body_eq hf, bind_ok]
  constructor
  · rintro ⟨_, u, hu, hleave⟩
    cases hleave
    exact ⟨u, hu, rfl⟩
  · rintro ⟨u, hu, rfl⟩
    exact ⟨(), u, hu, rfl⟩

def SlotsRelated (R : Value → Value → Prop) (a b : Value × Ty) : Prop := R a.1 b.1 ∧ a.2 = b.2

def ResultsRelated (R : Value → Value → Prop) (v w : Option Value) : Prop :=
  ∀ a, v = some a → ∃ b, w = some b ∧ R a b

/-- A comparison of two runs that the operations of the lowering keep. -/
structure Comparison where
  holds : ∀ {α β : Type}, (α → β → Prop) → Lower α → Lower β → Prop
  value : Value → Value → Prop
  /-- The calls that may come up. -/
  called : Tree → Prop
  value_ty : ∀ {v w}, value v w → w.ty = v.ty
  value_const : ∀ n ty, value (.const ty n) (.const ty n)
  pure : ∀ {α β : Type} {P : α → β → Prop} {a : α} {b : β}, P a b → holds P (pure a) (pure b)
  throw : ∀ {α β : Type} (P : α → β → Prop) (e : LowerError) (y : Lower β), holds P (throw e) y
  bind : ∀ {α β γ δ : Type} {P : α → β → Prop} {Q : γ → δ → Prop} {x : Lower α} {y : Lower β}
    {k : α → Lower γ} {l : β → Lower δ}, holds P x y → (∀ a b, P a b → holds Q (k a) (l b)) →
      holds Q (x >>= k) (y >>= l)
  note : ∀ e, holds (fun _ _ => True) (note e) (note e)
  nestedValue : ∀ {x y : Lower Value} (site : Site), holds value x y →
    holds value (nested site x) (nested site y)
  nested : ∀ {x y : Lower Unit} (site : Site), holds (fun _ _ => True) x y →
    holds (fun _ _ => True) (nested site x) (nested site y)
  inLoop : ∀ {x y : Lower Unit} (l : LoopTargets),
    holds (fun _ _ => True) x y → holds (fun _ _ => True) (inLoop l x) (inLoop l y)
  innermostLoop : holds Eq innermostLoop innermostLoop
  lookup : ∀ name, holds (Option.Rel (Binding.Related value)) (lookup name) (lookup name)
  bindName : ∀ name {storage storage' : Storage}, storage.Related value storage' →
    holds (fun _ _ => True) (Lower.bind name storage) (Lower.bind name storage')
  newBlock : ∀ label, holds Eq (newBlock label) (newBlock label)
  setBlock : ∀ b, holds (fun _ _ => True) (setBlock b) (setBlock b)
  alloca : ∀ ty, holds value (alloca ty) (alloca ty)
  seed : ∀ {v w p q}, value v w → value p q → holds (fun _ _ => True) (seed v p) (seed w q)
  define : ∀ (ty : Ty) {make make' : Nat → Instr}, (∀ d, (make d).Related value (make' d)) →
    holds value (inBlock fun b => Build.define b ty make)
      (inBlock fun b => Build.define b ty make')
  store : ∀ {v w p q}, value v w → value p q → holds (fun _ _ => True) (store v p) (store w q)
  terminate : ∀ {x y : Terminator}, x.Related value y →
    holds (fun _ _ => True) (inBlock fun b => Build.terminate b x)
      (inBlock fun b => Build.terminate b y)
  terminated : holds Eq terminated terminated
  /-- Calls are left to the comparison, for they also change the module. -/
  functionCall : ∀ (site : Site) (ts : List Tree), called (.node site ts) →
    (∀ t ∈ ts, holds value (expression t) (expression t)) →
      holds (ResultsRelated value) (functionCall (.node site ts)) (functionCall (.node site ts))

namespace Comparison

variable (C : Comparison)

def keeps {α β : Type} (x : Lower α) (y : Lower β) : Prop := C.holds (fun _ _ => True) x y

def Admits (t : Tree) : Prop := ∀ u ∈ t.subtrees, u.kind = .functionCall → C.called u

variable {C}

theorem Admits.child {site : Site} {ts : List Tree} (h : C.Admits (.node site ts)) :
    ∀ t ∈ ts, C.Admits t :=
  fun _ ht u hu => h u (Tree.mem_subtrees_node.mpr (.inr ⟨_, ht, hu⟩))

variable (C)

variable {C} in
theorem mono {α β : Type} {P Q : α → β → Prop} {x : Lower α} {y : Lower β} (h : C.holds P x y)
    (hPQ : ∀ a b, P a b → Q a b) : C.holds Q x y := by
  have hbind := C.bind h fun a b hab => C.pure (hPQ a b hab)
  rwa [bind_pure, bind_pure] at hbind

theorem lift {α : Type} (x : Except LowerError α) : C.holds Eq (lift x) (lift x) := by
  cases x with
  | ok a => exact C.pure rfl
  | error e => exact C.throw _ e _

/-! ## Expressions -/

theorem load (ty : Ty) {p q : Value} (hp : C.value p q) :
    C.holds C.value (load ty p) (load ty q) :=
  C.define ty fun _ => .load hp

theorem binary (op : Arith) {l r l' r' : Value} (hl : C.value l l') (hr : C.value r r') :
    C.holds C.value (binary op l r) (binary op l' r') := by
  have hright : Lower.binary op l' r' =
      inBlock fun b => Build.define b l.ty fun d => .binary d op l' r' := by
    rw [← C.value_ty hl]
    rfl
  rw [hright]
  exact C.define l.ty fun _ => .binary hl hr

theorem icmp (test : Compare) {l r l' r' : Value} (hl : C.value l l') (hr : C.value r r') :
    C.holds C.value (icmp test l r) (icmp test l' r') :=
  C.define .i1 fun _ => .icmp hl hr

theorem name (site : Site) : C.holds C.value (name site) (name site) := by
  refine C.bind (C.lookup site.name) fun b b' hb => ?_
  cases hb with
  | none => exact C.throw _ _ _
  | some hb =>
    cases hb with
    | constant => exact C.pure (C.value_const _ .i32)
    | stored hs =>
      cases hs with
      | register hv => exact C.pure hv
      | slot hp => exact C.load _ hp

theorem operate (site : Site) (op : Operator) {l r l' r' : Value} (hl : C.value l l')
    (hr : C.value r r') : C.holds C.value (operate site op l r) (operate site op l' r') := by
  unfold Lower.operate
  rw [C.value_ty hl, C.value_ty hr]
  by_cases h : l.ty = r.ty
  · rw [if_pos h, if_pos h]
    cases op with
    | arith op => exact C.binary op hl hr
    | compare test => exact C.icmp test hl hr
  · rw [if_neg h]
    exact C.throw _ _ _

theorem literal (site : Site) :
    C.holds C.value (Lower.lift (site.literal.map .int)) (Lower.lift (site.literal.map .int)) := by
  cases site.literal with
  | ok n => exact C.pure (C.value_const n .i32)
  | error e => exact C.throw _ _ _

theorem expression (t : Tree) (ht : C.Admits t) :
    C.holds C.value (expression t) (expression t) := by
  induction t using Tree.induct with
  | node site ts ih =>
    obtain ⟨act, hform, hact⟩ := expression_form site ts
    have hts := fun t hmem => ih t hmem (ht.child t hmem)
    rw [hact]
    refine C.nestedValue site ?_
    cases hform with
    | literal => exact C.literal site
    | name => exact C.name site
    | binary _ l r =>
      refine C.bind (C.lift _) fun op _ hop => ?_
      obtain rfl := hop
      refine C.bind (hts l (by simp)) fun lhs lhs' hl => ?_
      exact C.bind (hts r (by simp)) fun rhs rhs' hr => C.operate site _ hl hr
    | call kind =>
      rw [callValue_eq]
      have hcalled := ht _ (Tree.mem_subtrees_self _) kind
      refine C.bind (C.functionCall site ts hcalled hts) fun v w hv => ?_
      cases v with
      | none => exact C.throw _ _ _
      | some v =>
        obtain ⟨w, rfl, hvw⟩ := hv v rfl
        exact C.pure hvw
    | refused => exact C.throw _ _ _

theorem condition (t : Tree) (ht : C.Admits t) : C.holds C.value (condition t) (condition t) := by
  refine C.bind (C.expression t ht) fun v w hv => ?_
  rw [C.value_ty hv]
  cases v.ty with
  | i1 => exact C.pure hv
  | i32 => exact C.icmp .ne hv (C.value_const 0 .i32)
  | _ => exact C.throw _ _ _

/-! ## Statements -/

theorem br (target : Nat) : C.keeps (br target) (br target) :=
  C.terminate .br

theorem condBr {c c' : Value} (hc : C.value c c') (yes no : Nat) :
    C.keeps (condBr c yes no) (condBr c' yes no) :=
  C.terminate (.condBr hc)

theorem ret {v w : Option Value} (hv : v.Rel C.value w) : C.keeps (ret v) (ret w) :=
  C.terminate (.ret hv)

theorem fallThrough (b : Nat) : C.keeps (fallThrough b) (fallThrough b) := by
  refine C.bind C.terminated fun ended _ h => ?_
  obtain rfl := h
  cases ended with
  | true => exact C.pure trivial
  | false => exact C.br b

theorem variableSlot (site type : Site) :
    C.holds (SlotsRelated C.value) (variableSlot site type) (variableSlot site type) := by
  unfold Lower.variableSlot
  by_cases hempty : site.name.isEmpty = true
  · simp only [if_pos hempty]
    exact C.throw _ _ _
  · simp only [if_neg hempty]
    refine C.bind (C.lift _) fun ty _ hty => ?_
    obtain rfl := hty
    by_cases hvoid : ty.isVoid = true
    · simp only [if_pos hvoid]
      exact C.throw _ _ _
    · simp only [if_neg hvoid]
      refine C.bind (C.alloca ty) fun p q hp => ?_
      exact C.bind (C.bindName _ (.slot hp)) fun _ _ _ => C.pure ⟨hp, rfl⟩

theorem checkStore (site : Site) {v w : Value} (hv : C.value v w) (ty : Ty) :
    C.keeps (Lower.lift (checkStore site v.ty ty)) (Lower.lift (checkStore site w.ty ty)) := by
  rw [C.value_ty hv]
  exact mono (C.lift _) fun _ _ _ => trivial

theorem variableDeclaration (site : Site) (ts : List Tree) (hts : ∀ t ∈ ts, C.Admits t) :
    C.keeps (variableDeclaration site ts) (variableDeclaration site ts) := by
  match ts, hts with
  | [type], _ => exact C.bind (C.variableSlot site type.site) fun _ _ _ => C.pure trivial
  | [type, init], hts =>
    refine C.bind (C.variableSlot site type.site) fun slot slot' hslot => ?_
    refine C.bind (C.expression init (hts init (by simp))) fun v w hv => ?_
    obtain ⟨hp, hty⟩ := hslot
    rw [hty]
    exact C.bind (C.checkStore _ hv _) fun _ _ _ => C.store hv hp
  | [], _ | _ :: _ :: _ :: _, _ => exact C.throw _ _ _

theorem promote (name : String) {v w : Value} (hv : C.value v w) :
    C.holds (SlotsRelated C.value) (promote name v) (promote name w) := by
  unfold Lower.promote
  rw [C.value_ty hv]
  refine C.bind (C.alloca v.ty) fun p q hp => ?_
  refine C.bind (C.seed hv hp) fun _ _ _ => ?_
  refine C.bind (C.bindName _ (.slot hp)) fun _ _ _ => ?_
  exact C.bind (C.note _) fun _ _ _ => C.pure ⟨hp, rfl⟩

theorem assignedSlot (site : Site) :
    C.holds (SlotsRelated C.value) (assignedSlot site) (assignedSlot site) := by
  refine C.bind (C.lookup site.name) fun b b' hb => ?_
  cases hb with
  | none => exact C.throw _ _ _
  | some hb =>
    cases hb with
    | constant => exact C.throw _ _ _
    | stored hs =>
      cases hs with
      | register hv => exact C.promote site.name hv
      | slot hp => exact C.pure ⟨hp, rfl⟩

theorem assignment (site : Site) (ts : List Tree) (hts : ∀ t ∈ ts, C.Admits t) :
    C.keeps (assignment site ts) (assignment site ts) := by
  match ts, hts with
  | [op, rhs], hts =>
    refine C.bind (C.lift _) fun _ _ _ => ?_
    refine C.bind (C.lift _) fun update _ hupdate => ?_
    obtain rfl := hupdate
    refine C.bind (C.assignedSlot site) fun ⟨p, ty⟩ ⟨q, _⟩ hslot => ?_
    obtain ⟨hp, hty⟩ := hslot
    obtain rfl : ty = _ := hty
    refine C.bind (C.load ty hp) fun old old' hold => ?_
    refine C.bind (C.expression rhs (hts rhs (by simp))) fun new new' hnew => ?_
    refine C.bind (C.checkStore _ hnew _) fun _ _ _ => ?_
    have hend : ∀ result result', C.value result result' → C.keeps
        (do
          Lower.store result p
          Lower.bind site.name (.slot p ty))
        (do
          Lower.store result' q
          Lower.bind site.name (.slot q ty)) := fun _ _ hresult =>
      C.bind (C.store hresult hp) fun _ _ _ => C.bindName site.name (.slot hp)
    cases update with
    | replace => exact C.bind (C.pure hnew) hend
    | combine op => exact C.bind (C.binary op hold hnew) hend
  | [], _ | [_], _ | _ :: _ :: _ :: _, _ => exact C.throw _ _ _

theorem returnStatement (site : Site) (ts : List Tree) (hts : ∀ t ∈ ts, C.Admits t) :
    C.keeps (returnStatement site ts) (returnStatement site ts) := by
  match ts, hts with
  | [], _ => exact C.ret .none
  | [t], hts => exact C.bind (C.expression t (hts t (by simp))) fun _ _ hv => C.ret (.some hv)
  | _ :: _ :: _, _ => exact C.throw _ _ _

theorem jump (site : Site) (outside : Cause) (target : LoopTargets → Nat) (ts : List Tree) :
    C.keeps (jump site outside target ts) (jump site outside target ts) := by
  match ts with
  | [] =>
    refine C.bind C.innermostLoop fun l _ hl => ?_
    obtain rfl := hl
    cases l with
    | some l => exact C.br _
    | none => exact C.throw _ _ _
  | _ :: _ => exact C.throw _ _ _

theorem conditional (test : Tree) (ht : C.Admits test) {yes : Nat → Lower Unit}
    {no : Option (Nat → Lower Unit)} (hyes : ∀ b, C.keeps (yes b) (yes b))
    (hno : ∀ arm ∈ no, ∀ b, C.keeps (arm b) (arm b)) :
    C.keeps (conditional test yes no) (conditional test yes no) := by
  cases no with
  | none =>
    rw [conditional_none]
    refine C.bind (C.condition test ht) fun c c' hc => ?_
    refine C.bind (C.newBlock _) fun y _ hy => ?_
    refine C.bind (C.newBlock _) fun e _ he => ?_
    obtain rfl := hy
    obtain rfl := he
    refine C.bind (C.condBr hc y e) fun _ _ _ => ?_
    refine C.bind (hyes y) fun _ _ _ => ?_
    exact C.bind (C.fallThrough e) fun _ _ _ => C.setBlock e
  | some arm =>
    rw [conditional_some]
    refine C.bind (C.condition test ht) fun c c' hc => ?_
    refine C.bind (C.newBlock _) fun y _ hy => ?_
    refine C.bind (C.newBlock _) fun e _ he => ?_
    refine C.bind (C.newBlock _) fun o _ ho => ?_
    obtain rfl := hy
    obtain rfl := he
    obtain rfl := ho
    refine C.bind (C.condBr hc y o) fun _ _ _ => ?_
    refine C.bind (hyes y) fun _ _ _ => ?_
    refine C.bind (C.fallThrough e) fun _ _ _ => ?_
    refine C.bind (hno arm rfl o) fun _ _ _ => ?_
    exact C.bind (C.fallThrough e) fun _ _ _ => C.setBlock e

theorem loop (test : Tree) (ht : C.Admits test) {body : Nat → Lower Unit}
    (hbody : ∀ b, C.keeps (body b) (body b)) : C.keeps (loop test body) (loop test body) := by
  refine C.bind (C.newBlock _) fun c _ hc => ?_
  refine C.bind (C.newBlock _) fun b _ hb => ?_
  refine C.bind (C.newBlock _) fun e _ he => ?_
  obtain rfl := hc
  obtain rfl := hb
  obtain rfl := he
  refine C.bind (C.br c) fun _ _ _ => ?_
  refine C.bind (C.setBlock c) fun _ _ _ => ?_
  refine C.bind (C.condition test ht) fun v v' hv => ?_
  refine C.bind (C.condBr hv b e) fun _ _ _ => ?_
  refine C.bind (C.inLoop ⟨c, e⟩ (hbody b)) fun _ _ _ => ?_
  exact C.bind (C.fallThrough c) fun _ _ _ => C.setBlock e

theorem statements {ts : List Tree} (h : ∀ t ∈ ts, C.keeps (statement t) (statement t)) :
    C.keeps (statements ts) (statements ts) := by
  induction ts with
  | nil =>
    rw [Lower.statements]
    exact C.pure trivial
  | cons t ts ih =>
    rw [Lower.statements]
    refine C.bind C.terminated fun ended _ hended => ?_
    obtain rfl := hended
    cases ended with
    | true => exact C.note _
    | false => exact C.bind (h t (by simp)) fun _ _ _ => ih fun t ht => h t (by simp [ht])

theorem blockOf {site : Site} {ts : List Tree} (h : ∀ t ∈ ts, C.keeps (statement t) (statement t))
    (b : Nat) : C.keeps (block b (.node site ts)) (block b (.node site ts)) := by
  rw [Lower.block]
  by_cases hblock : site.kind = .block
  · rw [if_pos hblock]
    exact C.bind (C.setBlock b) fun _ _ _ => C.statements h
  · rw [if_neg hblock]
    exact C.throw _ _ _

theorem elseArm {no : Tree} (hblock : ∀ b, C.keeps (block b no) (block b no))
    (hstatement : C.keeps (statement no) (statement no)) (b : Nat) :
    C.keeps (elseArm no b) (elseArm no b) := by
  unfold Lower.elseArm
  by_cases hkind : no.kind = .block
  · rw [if_pos hkind]
    exact hblock b
  · rw [if_neg hkind]
    by_cases hchain : no.kind = .statement ∧ no.name = "if"
    · rw [if_pos hchain]
      exact C.bind (C.setBlock b) fun _ _ _ => hstatement
    · rw [if_neg hchain]
      exact C.throw _ _ _

/-- The comparison holds for the lowering of every tree. -/
theorem tree (t : Tree) (ht : C.Admits t) : C.keeps (statement t) (statement t) ∧
    ∀ b, C.keeps (block b t) (block b t) := by
  induction t using Tree.induct with
  | node site ts ih =>
    have hts := ht.child
    replace ih := fun t hmem => ih t hmem (hts t hmem)
    refine ⟨?_, C.blockOf fun t hmem => (ih t hmem).1⟩
    obtain ⟨act, hform, hact⟩ := statement_form site ts
    rw [hact]
    refine C.nested site ?_
    cases hform with
    | declare => exact C.variableDeclaration site ts hts
    | assign => exact C.assignment site ts hts
    | returns => exact C.returnStatement site ts hts
    | loop _ test body =>
      refine C.bind (C.lift _) fun _ _ _ => ?_
      exact C.loop test (hts test (by simp)) (ih body (by simp)).2
    | ifThen _ _ test yes =>
      refine C.bind (C.lift _) fun _ _ _ => ?_
      exact C.conditional test (hts test (by simp)) (ih yes (by simp)).2 fun _ h => by cases h
    | ifElse _ _ test yes no =>
      obtain ⟨hstatement, hblock⟩ := ih no (by simp)
      refine C.bind (C.lift _) fun _ _ _ => ?_
      refine C.conditional test (hts test (by simp)) (ih yes (by simp)).2 fun _ h => ?_
      cases h
      exact C.elseArm hblock hstatement
    | leave => exact C.jump site _ _ ts
    | again => exact C.jump site _ _ ts
    | call kind =>
      have hcalled := ht _ (Tree.mem_subtrees_self _) kind
      have hargs := fun t hmem => C.expression t (hts t hmem)
      exact C.bind (C.functionCall site ts hcalled hargs) fun _ _ _ => C.pure trivial
    | block => exact C.statements fun t hmem => (ih t hmem).1
    | refused => exact C.throw _ _ _

theorem bodyCode (site : Site) (b : Nat) (ty : Ty) (c : Tree) (hc : C.Admits c) :
    C.keeps (bodyCode site b ty c) (bodyCode site b ty c) := by
  have hret : (defaultReturn ty).Rel C.value (defaultReturn ty) := by
    unfold defaultReturn
    split
    · exact .none
    · exact .some (C.value_const 0 ty)
  refine C.bind ((C.tree c hc).2 b) fun _ _ _ => C.bind C.terminated fun ended _ h => ?_
  obtain rfl := h
  cases ended with
  | true => exact C.pure trivial
  | false => exact C.bind (C.note _) fun _ _ _ => C.ret hret

end Comparison

/-! ## Tracked runs -/

section Tracking

variable {ι α β γ δ : Type} {E : LowerError → Prop} {R : ι → LowerState → LowerState → Prop}

/-- Where the first action succeeds, the second one, from a related state, succeeds
with a related result and the states stay related, or it fails with one of the
errors `E`. -/
def Tracks (E : LowerError → Prop) (R : ι → LowerState → LowerState → Prop) (P : α → β → Prop)
    (x : Lower α) (y : Lower β) : Prop :=
  ∀ ⦃i : ι⦄ ⦃s s' t : LowerState⦄ ⦃a : α⦄, R i s s' → x s = .ok a t →
    (∃ b t', y s' = .ok b t' ∧ P a b ∧ R i t t') ∨ ∃ e t', y s' = .error e t' ∧ E e

theorem tracks_pure {P : α → β → Prop} {a : α} {b : β} (h : P a b) :
    Tracks E R P (pure a) (pure b) := by
  intro i s s' t c hrel hr
  cases hr
  exact .inl ⟨b, s', rfl, h, hrel⟩

theorem tracks_throw (P : α → β → Prop) (e : LowerError) (y : Lower β) :
    Tracks E R P (throw e) y := by
  intro i s s' t a _ hr
  cases hr

theorem tracks_lift (x : Except LowerError α) : Tracks E R Eq (lift x) (lift x) := by
  cases x with
  | ok a => exact tracks_pure rfl
  | error e => exact tracks_throw _ e _

theorem Tracks.bind {P : α → β → Prop} {Q : γ → δ → Prop} {x : Lower α} {y : Lower β}
    {k : α → Lower γ} {l : β → Lower δ} (hx : Tracks E R P x y)
    (hk : ∀ a b, P a b → Tracks E R Q (k a) (l b)) : Tracks E R Q (x >>= k) (y >>= l) := by
  intro i s s' t c hrel hr
  obtain ⟨a, u, hu, hr⟩ := bind_ok.mp hr
  rcases hx hrel hu with ⟨b, u', hu', hab, hrel'⟩ | ⟨e, u', hu', he⟩
  · rw [bind_of_ok hu']
    exact hk a b hab hrel' hr
  · exact .inr ⟨e, u', bind_of_error hu', he⟩

theorem Tracks.mono {P Q : α → β → Prop} {x : Lower α} {y : Lower β} (h : Tracks E R P x y)
    (hPQ : ∀ a b, P a b → Q a b) : Tracks E R Q x y := by
  intro i s s' t a hrel hr
  rcases h hrel hr with ⟨b, t', ht', hab, hrel'⟩ | herror
  · exact .inl ⟨b, t', ht', hPQ a b hab, hrel'⟩
  · exact .inr herror

theorem Tracks.nested {P : α → β → Prop} {x : Lower α} {y : Lower β}
    (hdepth : ∀ {i s s'}, R i s s' → s'.depth = s.depth)
    (hdeeper : ∀ {i s s'}, R i s s' → R i (deeper s) (deeper s'))
    (hshallower : ∀ {i s s'}, R i s s' → R i (shallower s) (shallower s'))
    (site : Site) (h : Tracks E R P x y) : Tracks E R P (nested site x) (nested site y) := by
  intro i s s' t a hrel hr
  obtain ⟨hd, u, hu, rfl⟩ := nested_ok.mp hr
  rw [← hdepth hrel] at hd
  rcases h (hdeeper hrel) hu with ⟨b, u', hu', hab, hrel'⟩ | ⟨e, u', hu', he⟩
  · exact .inl ⟨b, shallower u', nested_ok.mpr ⟨hd, u', hu', rfl⟩, hab, hshallower hrel'⟩
  · refine .inr ⟨e, shallower u', ?_, he⟩
    rw [nested_of_shallow hd]
    exact ensuring_error.mpr ⟨u', hu', rfl⟩

theorem Tracks.inLoop {x y : Lower Unit} {P : Unit → Unit → Prop} (l : LoopTargets)
    (hpush : ∀ {i s s'}, R i s s' →
      R i { s with loops := l :: s.loops } { s' with loops := l :: s'.loops })
    (hpop : ∀ {i s s'}, R i s s' →
      R i { s with loops := s.loops.tail } { s' with loops := s'.loops.tail })
    (h : Tracks E R P x y) : Tracks E R P (inLoop l x) (inLoop l y) := by
  intro i s s' t a hrel hr
  obtain ⟨_, _, hs, hr⟩ := bind_ok.mp hr
  cases hs
  obtain ⟨u, hu, rfl⟩ := ensuring_ok.mp hr
  rcases h (hpush hrel) hu with ⟨b, u', hu', hab, hrel'⟩ | ⟨e, u', hu', he⟩
  · exact .inl ⟨b, _, bind_ok.mpr ⟨(), _, rfl, ensuring_ok.mpr ⟨u', hu', rfl⟩⟩, hab, hpop hrel'⟩
  · have herror : Lower.inLoop l y s' = .error e { u' with loops := u'.loops.tail } :=
      bind_error.mpr (.inr ⟨(), _, rfl, ensuring_error.mpr ⟨u', hu', rfl⟩⟩)
    exact .inr ⟨e, _, herror, he⟩

theorem tracks_arguments {V : Value → Value → Prop} {c c' : Callee} {ts : List Tree}
    (h : ∀ t ∈ ts, Tracks E R V (expression t) (expression t)) (args args' : List Value)
    (hcheck : ∀ i v w site, V v w → checkArgument c site (args.length + i) v = .ok () →
      checkArgument c' site (args'.length + i) w = .ok ()) :
    Tracks E R (fun as bs => ∃ vs ws, as = args ++ vs ∧ bs = args' ++ ws ∧ List.Forall₂ V vs ws)
      (arguments c args ts) (arguments c' args' ts) := by
  induction ts generalizing args args' with
  | nil =>
    rw [arguments, arguments]
    exact tracks_pure ⟨[], [], by simp, by simp, .nil⟩
  | cons t ts ih =>
    rw [arguments, arguments]
    refine (h t (by simp)).bind fun v w hv => ?_
    cases hc : checkArgument c t.site args.length v with
    | error e => exact (tracks_throw (fun _ _ => False) e _).bind fun _ _ h => h.elim
    | ok _ =>
      rw [show checkArgument c' t.site args'.length w = .ok () from hcheck 0 v w t.site hv hc]
      refine (tracks_pure trivial).bind fun _ _ (_ : True) => ?_
      refine (ih (fun t ht => h t (by simp [ht])) _ _ fun i v w site hvw hi => ?_).mono ?_
      · have hlength : ∀ (l : List Value) (a : Value),
            (l ++ [a]).length + i = l.length + (i + 1) := by
          intro l a
          rw [List.length_append, List.length_singleton]
          omega
        rw [hlength] at hi ⊢
        exact hcheck (i + 1) v w site hvw hi
      · rintro _ _ ⟨vs, ws, rfl, rfl, hvs⟩
        exact ⟨v :: vs, w :: ws, by simp, by simp, .cons hv hvs⟩

end Tracking

end Lower

end TreeFlow
