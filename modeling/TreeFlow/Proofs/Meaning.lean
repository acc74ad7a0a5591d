import TreeFlow.Lowering.Expression
import TreeFlow.Proofs.Machine
import TreeFlow.Proofs.Source

/-!
# What a program means

The meaning of a program is given on its tree, without a flow graph. A call has
variables of its own: they belong to the call and not to a block, and each keeps
its content until it is written again. Operands are evaluated from left to
right, and a trace records the calls of the intrinsic in their order.
-/

set_option autoImplicit false

namespace TreeFlow

abbrev Locals := String → Int

namespace Locals

def set (σ : Locals) (x : String) (n : Int) : Locals := fun y => if y = x then n else σ y

def initial (I : Interpretation) (names : List String) (args : List Int) : Locals :=
  fun x => ((names.zip args).lookup x).getD I.blank

theorem set_self (σ : Locals) (x : String) (n : Int) : σ.set x n x = n := if_pos rfl

theorem set_other {x y : String} (σ : Locals) (n : Int) (h : y ≠ x) : σ.set x n y = σ y := if_neg h

end Locals

inductive Ending where
  | normal
  | broke
  | continued
  | returned (r : Option Datum)
  deriving DecidableEq, Repr

namespace Ending

/-- How a loop ends after a round, or nothing if there is another round. -/
def leaves : Ending → Option Ending
  | .normal | .continued => none
  | .broke => some .normal
  | .returned r => some (.returned r)

theorem of_leaves_returned {o : Ending} {r : Option Datum} (h : o.leaves = some (.returned r)) :
    o = .returned r := by
  cases o with
  | returned x =>
    cases h
    rfl
  | _ => cases h

def result (fallOff : Option Datum) : Ending → Option (Option Datum)
  | .normal => some fallOff
  | .returned r => some r
  | .broke | .continued => none

end Ending

def Update.apply (I : Interpretation) : Update → Int → Int → Option Int
  | .replace, _, new => some new
  | .combine op, old, new => I.arith op old new

section Statements

variable (I : Interpretation) (constants : List (String × Int)) (call : CallRel String)

/-- The values of some expressions. A call without a result has no value. -/
inductive Eval (σ : Locals) : Piece → Trace → List Datum → Prop
  | literal {site : Site} {n : Int} (kind : site.kind = .literal) (value : site.literal = .ok n) :
      Eval σ (.one (.node site [])) [] [.int n]
  | constant {site : Site} {n : Int} (kind : site.kind = .identifier)
      (value : constants.lookup site.name = some n) : Eval σ (.one (.node site [])) [] [.int n]
  | name {site : Site} (kind : site.kind = .identifier)
      (plain : constants.lookup site.name = none) :
      Eval σ (.one (.node site [])) [] [.int (σ site.name)]
  | binary {site : Site} {a b : Tree} {op : Operator} {t₁ t₂ : Trace} {x y z : Datum}
      (kind : site.kind = .binaryExpression) (operator : Operator.ofSite site = .ok op)
      (left : Eval σ (.one a) t₁ [x]) (right : Eval σ (.one b) t₂ [y])
      (result : I.apply op x y = some z) : Eval σ (.one (.node site [a, b])) (t₁ ++ t₂) [z]
  | call {site : Site} {ts : List Tree} {t₁ t₂ : Trace} {xs : List Datum} {r : Option Datum}
      (kind : site.kind = .functionCall) (operands : Eval σ (.many ts) t₁ xs)
      (called : call site.name xs t₂ r) : Eval σ (.one (.node site ts)) (t₁ ++ t₂) r.toList
  | nil : Eval σ (.many []) [] []
  | cons {t : Tree} {ts : List Tree} {t₁ t₂ : Trace} {x : Datum} {xs : List Datum}
      (head : Eval σ (.one t) t₁ [x]) (tail : Eval σ (.many ts) t₂ xs) :
      Eval σ (.many (t :: ts)) (t₁ ++ t₂) (x :: xs)

def Decides (σ : Locals) (c : Tree) (t : Trace) (b : Bool) : Prop :=
  ∃ x, Eval I constants call σ (.one c) t [x] ∧ I.test x = some b

/-- Some statements run from one store to another. -/
inductive Exec : Piece → Locals → Trace → Ending → Locals → Prop
  | declare {site : Site} {type : Tree} {σ : Locals} (kind : site.kind = .variableDeclaration) :
      Exec (.one (.node site [type])) σ [] .normal σ
  | initialise {site : Site} {type init : Tree} {σ : Locals} {t : Trace} {n : Int}
      (kind : site.kind = .variableDeclaration)
      (value : Eval I constants call σ (.one init) t [.int n]) :
      Exec (.one (.node site [type, init])) σ t .normal (σ.set site.name n)
  | assign {site : Site} {op rhs : Tree} {σ : Locals} {t : Trace} {update : Update} {n k : Int}
      (kind : site.kind = .assignment) (updates : Update.ofSite op.site = .ok update)
      (value : Eval I constants call σ (.one rhs) t [.int n])
      (result : update.apply I (σ site.name) n = some k) :
      Exec (.one (.node site [op, rhs])) σ t .normal (σ.set site.name k)
  | returnNone {site : Site} {σ : Locals} (kind : site.kind = .returnStatement) :
      Exec (.one (.node site [])) σ [] (.returned none) σ
  | returnValue {site : Site} {c : Tree} {σ : Locals} {t : Trace} {x : Datum}
      (kind : site.kind = .returnStatement) (value : Eval I constants call σ (.one c) t [x]) :
      Exec (.one (.node site [c])) σ t (.returned (some x)) σ
  | loopEnd {site : Site} {test body : Tree} {σ : Locals} {t : Trace}
      (kind : site.kind = .whileStatement) (no : Decides I constants call σ test t false) :
      Exec (.one (.node site [test, body])) σ t .normal σ
  | loopNext {site : Site} {test body : Tree} {σ σ₁ σ₂ : Locals} {t₁ t₂ t₃ : Trace} {o o' : Ending}
      (kind : site.kind = .whileStatement) (yes : Decides I constants call σ test t₁ true)
      (round : Exec (.one body) σ t₂ o σ₁) (next : o.leaves = none)
      (rest : Exec (.one (.node site [test, body])) σ₁ t₃ o' σ₂) :
      Exec (.one (.node site [test, body])) σ (t₁ ++ (t₂ ++ t₃)) o' σ₂
  | loopLeave {site : Site} {test body : Tree} {σ σ₁ : Locals} {t₁ t₂ : Trace} {o o' : Ending}
      (kind : site.kind = .whileStatement) (yes : Decides I constants call σ test t₁ true)
      (round : Exec (.one body) σ t₂ o σ₁) (leaves : o.leaves = some o') :
      Exec (.one (.node site [test, body])) σ (t₁ ++ t₂) o' σ₁
  | ifYes {site : Site} {test yes : Tree} {ts : List Tree} {σ σ₁ : Locals} {t₁ t₂ : Trace}
      {o : Ending} (kind : site.kind = .statement) (named : site.name = "if")
      (holds : Decides I constants call σ test t₁ true) (arm : Exec (.one yes) σ t₂ o σ₁) :
      Exec (.one (.node site (test :: yes :: ts))) σ (t₁ ++ t₂) o σ₁
  | ifNo {site : Site} {test yes no : Tree} {σ σ₁ : Locals} {t₁ t₂ : Trace} {o : Ending}
      (kind : site.kind = .statement) (named : site.name = "if")
      (fails : Decides I constants call σ test t₁ false) (arm : Exec (.one no) σ t₂ o σ₁) :
      Exec (.one (.node site [test, yes, no])) σ (t₁ ++ t₂) o σ₁
  | ifNone {site : Site} {test yes : Tree} {σ : Locals} {t : Trace}
      (kind : site.kind = .statement) (named : site.name = "if")
      (fails : Decides I constants call σ test t false) :
      Exec (.one (.node site [test, yes])) σ t .normal σ
  | leave {site : Site} {σ : Locals} (kind : site.kind = .statement) (named : site.name = "break") :
      Exec (.one (.node site [])) σ [] .broke σ
  | again {site : Site} {σ : Locals} (kind : site.kind = .statement)
      (named : site.name = "continue") : Exec (.one (.node site [])) σ [] .continued σ
  | call {site : Site} {ts : List Tree} {σ : Locals} {t : Trace} {xs : List Datum}
      (kind : site.kind = .functionCall)
      (value : Eval I constants call σ (.one (.node site ts)) t xs) :
      Exec (.one (.node site ts)) σ t .normal σ
  | block {site : Site} {ts : List Tree} {σ σ₁ : Locals} {t : Trace} {o : Ending}
      (kind : site.kind = .block) (inside : Exec (.many ts) σ t o σ₁) :
      Exec (.one (.node site ts)) σ t o σ₁
  | nil {σ : Locals} : Exec (.many []) σ [] .normal σ
  | cons {c : Tree} {ts : List Tree} {σ σ₁ σ₂ : Locals} {t₁ t₂ : Trace} {o : Ending}
      (first : Exec (.one c) σ t₁ .normal σ₁) (rest : Exec (.many ts) σ₁ t₂ o σ₂) :
      Exec (.many (c :: ts)) σ (t₁ ++ t₂) o σ₂
  | stop {c : Tree} {ts : List Tree} {σ σ₁ : Locals} {t : Trace} {o : Ending}
      (first : Exec (.one c) σ t o σ₁) (abrupt : o ≠ .normal) : Exec (.many (c :: ts)) σ t o σ₁

end Statements

/-! ## Inversion

A run of a statement of a known kind comes from the rules of that kind. -/

section Inversion

variable {I : Interpretation} {constants : List (String × Int)} {call : CallRel String}
  {σ σ' : Locals} {t : Trace} {o : Ending} {site : Site} {ts : List Tree}

theorem Exec.of_declare {type : Tree}
    (h : Exec I constants call (.one (.node site [type])) σ t o σ')
    (kind : site.kind = .variableDeclaration) : t = [] ∧ o = .normal ∧ σ' = σ := by
  cases h with
  | declare => exact ⟨rfl, rfl, rfl⟩
  | _ => simp_all

theorem Exec.of_initialise {type init : Tree}
    (h : Exec I constants call (.one (.node site [type, init])) σ t o σ')
    (kind : site.kind = .variableDeclaration) :
    ∃ n, Eval I constants call σ (.one init) t [.int n] ∧ o = .normal ∧
      σ' = σ.set site.name n := by
  cases h with
  | initialise _ value => exact ⟨_, value, rfl, rfl⟩
  | _ => simp_all

theorem Exec.of_assign {op rhs : Tree}
    (h : Exec I constants call (.one (.node site [op, rhs])) σ t o σ')
    (kind : site.kind = .assignment) :
    ∃ update n k, Update.ofSite op.site = .ok update ∧
      Eval I constants call σ (.one rhs) t [.int n] ∧
        update.apply I (σ site.name) n = some k ∧ o = .normal ∧ σ' = σ.set site.name k := by
  cases h with
  | assign _ updates value result => exact ⟨_, _, _, updates, value, result, rfl, rfl⟩
  | _ => simp_all

theorem Exec.of_returnNone (h : Exec I constants call (.one (.node site [])) σ t o σ')
    (kind : site.kind = .returnStatement) : t = [] ∧ o = .returned none ∧ σ' = σ := by
  cases h with
  | returnNone => exact ⟨rfl, rfl, rfl⟩
  | _ => simp_all

theorem Exec.of_returnValue {c : Tree} (h : Exec I constants call (.one (.node site [c])) σ t o σ')
    (kind : site.kind = .returnStatement) :
    ∃ x, Eval I constants call σ (.one c) t [x] ∧ o = .returned (some x) ∧ σ' = σ := by
  cases h with
  | returnValue _ value => exact ⟨_, value, rfl, rfl⟩
  | _ => simp_all

theorem Exec.of_ifThen {test yes : Tree}
    (h : Exec I constants call (.one (.node site [test, yes])) σ t o σ')
    (kind : site.kind = .statement) :
    (∃ t₁ t₂, Decides I constants call σ test t₁ true ∧ Exec I constants call (.one yes) σ t₂ o σ' ∧
      t = t₁ ++ t₂) ∨
    Decides I constants call σ test t false ∧ o = .normal ∧ σ' = σ := by
  cases h with
  | ifYes _ _ holds arm => exact .inl ⟨_, _, holds, arm, rfl⟩
  | ifNone _ _ fails => exact .inr ⟨fails, rfl, rfl⟩
  | _ => simp_all

theorem Exec.of_ifElse {test yes no : Tree}
    (h : Exec I constants call (.one (.node site [test, yes, no])) σ t o σ')
    (kind : site.kind = .statement) :
    ∃ b t₁ t₂, Decides I constants call σ test t₁ b ∧
      Exec I constants call (.one (if b then yes else no)) σ t₂ o σ' ∧ t = t₁ ++ t₂ := by
  cases h with
  | ifYes _ _ holds arm => exact ⟨true, _, _, holds, arm, rfl⟩
  | ifNo _ _ fails arm => exact ⟨false, _, _, fails, arm, rfl⟩
  | _ => simp_all

theorem Exec.of_leave (h : Exec I constants call (.one (.node site [])) σ t o σ')
    (kind : site.kind = .statement) (named : site.name = "break") :
    t = [] ∧ o = .broke ∧ σ' = σ := by
  cases h with
  | leave => exact ⟨rfl, rfl, rfl⟩
  | _ => simp_all

theorem Exec.of_again (h : Exec I constants call (.one (.node site [])) σ t o σ')
    (kind : site.kind = .statement) (named : site.name = "continue") :
    t = [] ∧ o = .continued ∧ σ' = σ := by
  cases h with
  | again => exact ⟨rfl, rfl, rfl⟩
  | _ => simp_all

theorem Exec.of_call (h : Exec I constants call (.one (.node site ts)) σ t o σ')
    (kind : site.kind = .functionCall) :
    ∃ xs, Eval I constants call σ (.one (.node site ts)) t xs ∧ o = .normal ∧ σ' = σ := by
  cases h with
  | call _ value => exact ⟨_, value, rfl, rfl⟩
  | _ => simp_all

theorem Exec.of_block (h : Exec I constants call (.one (.node site ts)) σ t o σ')
    (kind : site.kind = .block) : Exec I constants call (.many ts) σ t o σ' := by
  cases h with
  | block _ inside => exact inside
  | _ => simp_all

theorem Exec.loop_induct {test body : Tree} {P : Locals → Trace → Ending → Locals → Prop}
    (kind : site.kind = .whileStatement)
    (hend : ∀ {σ t}, Decides I constants call σ test t false → P σ t .normal σ)
    (hnext : ∀ {σ σ₁ σ₂ t₁ t₂ t₃ o o'}, Decides I constants call σ test t₁ true →
      Exec I constants call (.one body) σ t₂ o σ₁ → o.leaves = none → P σ₁ t₃ o' σ₂ →
        P σ (t₁ ++ (t₂ ++ t₃)) o' σ₂)
    (hleave : ∀ {σ σ₁ t₁ t₂ o o'}, Decides I constants call σ test t₁ true →
      Exec I constants call (.one body) σ t₂ o σ₁ → o.leaves = some o' → P σ (t₁ ++ t₂) o' σ₁)
    (h : Exec I constants call (.one (.node site [test, body])) σ t o σ') : P σ t o σ' := by
  generalize hp : Piece.one (.node site [test, body]) = p at h
  induction h with
  | loopEnd _ no =>
    cases hp
    exact hend no
  | loopNext _ yes round next _ _ ih =>
    cases hp
    exact hnext yes round next (ih rfl)
  | loopLeave _ yes round leaves =>
    cases hp
    exact hleave yes round leaves
  | _ => simp_all

/-- A piece that neither assigns nor declares a name leaves its variable
alone. -/
theorem Exec.unchanged {p : Piece} {x : String} (h : Exec I constants call p σ t o σ')
    (hx : ∀ a ∈ p.subtrees, a.kind = .assignment ∨ a.kind = .variableDeclaration → a.name ≠ x) :
    σ' x = σ x := by
  induction h with
  | initialise kind =>
    exact Locals.set_other _ _ (hx _ (Tree.mem_subtrees_self _) (.inr kind)).symm
  | assign kind =>
    exact Locals.set_other _ _ (hx _ (Tree.mem_subtrees_self _) (.inl kind)).symm
  | loopNext _ _ _ _ _ ih₁ ih₂ =>
    rw [ih₂ hx, ih₁ fun a ha => hx a (Piece.subtrees_one (by simp) (fun _ h => h) ha)]
  | loopLeave _ _ _ _ ih =>
    exact ih fun a ha => hx a (Piece.subtrees_one (by simp) (fun _ h => h) ha)
  | ifYes _ _ _ _ ih => exact ih fun a ha => hx a (Piece.subtrees_one (by simp) (fun _ h => h) ha)
  | ifNo _ _ _ _ ih => exact ih fun a ha => hx a (Piece.subtrees_one (by simp) (fun _ h => h) ha)
  | block _ _ ih => exact ih fun a ha => hx a (List.mem_cons_of_mem _ ha)
  | cons _ _ ih₁ ih₂ =>
    rw [ih₂ fun a ha => hx a (List.mem_append_right _ ha),
      ih₁ fun a ha => hx a (List.mem_append_left _ ha)]
  | stop _ _ ih => exact ih fun a ha => hx a (List.mem_append_left _ ha)
  | _ => rfl

end Inversion

/-! ## Programs -/

namespace Tree

def declaration? (p : Tree) (name : String) : Option (List (String × Int) × Tree) :=
  p.declarations.find? fun d => d.2.name == name

def parameterNames (f : Tree) : List String :=
  match f.children with
  | [_, params, _] => params.children.map name
  | _ => []

def statements (f : Tree) : List Tree :=
  match f.children with
  | [_, _, body] => body.children
  | _ => []

def fallOff (f : Tree) : Option Datum :=
  if f.children.head?.map name = some "void" then none else some (.int 0)

/-- The body of a declaration runs on some arguments and returns. -/
def Invokes (I : Interpretation) (call : CallRel String) (constants : List (String × Int))
    (f : Tree) (args : List Int) (t : Trace) (r : Option Datum) : Prop :=
  args.length = f.parameterNames.length ∧ ∃ o σ,
    Exec I constants call (.many f.statements) (.initial I f.parameterNames args) t o σ ∧
      o.result f.fallOff = some r

/-- A call by name returns, with at most `depth` calls inside each other. A
name that no declaration has is the intrinsic. -/
def Calls (I : Interpretation) (p : Tree) : Nat → CallRel String
  | 0, _, _, _, _ => False
  | depth + 1, name, xs, t, r =>
    match p.declaration? name with
    | some (constants, f) =>
      ∃ args : List Int, xs = args.map .int ∧ f.Invokes I (p.Calls I depth) constants args t r
    | none =>
      name = Intrinsic.name ∧ t = [⟨Intrinsic.format, xs⟩] ∧
        r = some (.int (I.printed ⟨Intrinsic.format, xs⟩))

end Tree

end TreeFlow
