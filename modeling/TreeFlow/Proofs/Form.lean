import TreeFlow.Proofs.Run

/-!
# The forms of expressions and statements

Lowering a node runs one of a few actions, chosen by the kind of the node, its
name and the number of its children, and refuses every other node. The forms
below list these actions, so that a property of all runs is proved form by form.
-/

set_option autoImplicit false

namespace TreeFlow.Lower

def callValue (site : Site) (ts : List Tree) : Lower Value := do
  let c ← callee site ts.length
  let args ← arguments c c.leading ts
  match ← call c.id args with
  | some v => return v
  | none => throw (site.fault (.noValue site.name))

theorem callValue_eq (site : Site) (ts : List Tree) :
    callValue site ts = (do
      match ← functionCall (.node site ts) with
      | some v => return v
      | none => throw (site.fault (.noValue site.name))) := by
  simp only [callValue, functionCall, bind_assoc]

inductive ExpressionForm (site : Site) : List Tree → Lower Value → Prop
  | literal (kind : site.kind = .literal) : ExpressionForm site [] (lift (site.literal.map .int))
  | name (kind : site.kind = .identifier) : ExpressionForm site [] (name site)
  | binary (kind : site.kind = .binaryExpression) (l r : Tree) :
      ExpressionForm site [l, r] (do
        let op ← lift (Operator.ofSite site)
        let lhs ← expression l
        let rhs ← expression r
        operate site op lhs rhs)
  | call (kind : site.kind = .functionCall) (ts : List Tree) :
      ExpressionForm site ts (callValue site ts)
  | refused (ts : List Tree) (c : Cause) (charged : c.kind ≠ .invalidIr)
      (shallow : ∀ k, c ≠ .tooDeep k) :
      ExpressionForm site ts (throw (site.fault c))

theorem expression_form (site : Site) (ts : List Tree) :
    ∃ act, ExpressionForm site ts act ∧ expression (.node site ts) = nested site act := by
  rw [expression.eq_def]
  refine ⟨_, ?_, rfl⟩
  split
  · exact .literal ‹_›
  · exact .refused _ _ nofun nofun
  · exact .name ‹_›
  · exact .refused _ _ nofun nofun
  · exact .binary ‹_› _ _
  · exact .refused _ _ nofun nofun
  · exact .call ‹_› _
  · exact .refused _ _ nofun nofun

def elseArm (no : Tree) (b : Nat) : Lower Unit :=
  if no.kind = .block then block b no
  else if no.kind = .statement ∧ no.name = "if" then do
    setBlock b
    statement no
  else throw (no.site.fault (.notElse no.kind))

inductive StatementForm (site : Site) : List Tree → Lower Unit → Prop
  | declare (kind : site.kind = .variableDeclaration) (ts : List Tree) :
      StatementForm site ts (variableDeclaration site ts)
  | assign (kind : site.kind = .assignment) (ts : List Tree) :
      StatementForm site ts (assignment site ts)
  | returns (kind : site.kind = .returnStatement) (ts : List Tree) :
      StatementForm site ts (returnStatement site ts)
  | loop (kind : site.kind = .whileStatement) (test body : Tree) :
      StatementForm site [test, body] (do
        lift (site.require 1 .block body)
        loop test fun b => block b body)
  | ifThen (kind : site.kind = .statement) (name : site.name = "if") (test yes : Tree) :
      StatementForm site [test, yes] (do
        lift (site.require 1 .block yes)
        conditional test (fun b => block b yes) none)
  | ifElse (kind : site.kind = .statement) (name : site.name = "if") (test yes no : Tree) :
      StatementForm site [test, yes, no] (do
        lift (site.require 1 .block yes)
        conditional test (fun b => block b yes) (some (elseArm no)))
  | leave (kind : site.kind = .statement) (name : site.name = "break") (ts : List Tree) :
      StatementForm site ts (jump site .breakOutsideLoop (·.onBreak) ts)
  | again (kind : site.kind = .statement) (name : site.name = "continue") (ts : List Tree) :
      StatementForm site ts (jump site .continueOutsideLoop (·.onContinue) ts)
  | call (kind : site.kind = .functionCall) (ts : List Tree) :
      StatementForm site ts (do let _ ← functionCall (.node site ts))
  | block (kind : site.kind = .block) (ts : List Tree) : StatementForm site ts (statements ts)
  | refused (ts : List Tree) (c : Cause) (charged : c.kind ≠ .invalidIr)
      (shallow : ∀ k, c ≠ .tooDeep k) :
      StatementForm site ts (throw (site.fault c))

theorem named_form (site : Site) (kind : site.kind = .statement) (ts : List Tree) :
    ∃ act, StatementForm site ts act ∧ statement (.node site ts) = nested site act := by
  rw [statement.eq_def]
  simp only [kind]
  by_cases hif : site.name = "if"
  · simp only [hif, ↓reduceIte]
    refine ⟨_, ?_, rfl⟩
    split
    · exact .ifThen kind hif _ _
    · exact .ifElse kind hif _ _ _
    · exact .refused _ _ nofun nofun
  · simp only [hif, ↓reduceIte]
    refine ⟨_, ?_, rfl⟩
    split
    · exact .leave kind ‹_› ts
    · split
      · exact .again kind ‹_› ts
      · exact .refused _ _ nofun nofun

theorem statement_form (site : Site) (ts : List Tree) :
    ∃ act, StatementForm site ts act ∧ statement (.node site ts) = nested site act := by
  by_cases hs : site.kind = .statement
  · exact named_form site hs ts
  · rw [statement.eq_def]
    refine ⟨_, ?_, rfl⟩
    cases hk : site.kind with
    | variableDeclaration => exact .declare hk ts
    | assignment => exact .assign hk ts
    | returnStatement => exact .returns hk ts
    | whileStatement =>
      match ts with
      | [test, body] => exact .loop hk test body
      | [] | [_] | _ :: _ :: _ :: _ => exact .refused _ _ nofun nofun
    | statement => exact absurd hk hs
    | functionCall => exact .call hk ts
    | block => exact .block hk ts
    | _ => exact .refused _ _ nofun nofun

theorem item_form (t : Tree) (registered : Option Nat) :
    t.kind = .preprocessorDirective ∧ item t registered = directive t.site t.children ∨
      t.kind = .functionDeclaration ∧ item t registered = function t.site registered t.children ∨
        item t registered = throw (t.site.fault (.notTopLevel t.kind)) := by
  unfold item
  split
  · exact .inl ⟨‹_›, rfl⟩
  · exact .inr (.inl ⟨‹_›, rfl⟩)
  · exact .inr (.inr rfl)

end TreeFlow.Lower
