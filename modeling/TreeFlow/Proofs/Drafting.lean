import TreeFlow.Proofs.Paths
import TreeFlow.Proofs.Tracing

/-!
# Drafts of control flow

The blocks of a function can be drafted from its text. A cursor says which block
control is in, whether that block has ended, and how many blocks there are. Each
loop takes the next three blocks for its test, its body and its end, and each
conditional two or three. A draft lists the loops with the blocks that lead to
them. What stands behind the end of a block is left out.
-/

set_option autoImplicit false

namespace TreeFlow

structure Cursor where
  block : Nat
  blocks : Nat
  ended : Bool
  deriving DecidableEq, Repr

namespace Cursor

def stop (κ : Cursor) : Cursor := { κ with ended := true }

def open? (κ : Cursor) : Option Nat := if κ.ended then none else some κ.block

end Cursor

/-- A loop with the blocks of its test, its body and its end. It is reached from
one block, some blocks leave it, some start its next round, and its body may go
on into the next round at its last block. -/
structure Loop where
  reached : Nat
  test : Nat
  body : Nat
  stop : Nat
  leaves : List Nat
  again : List Nat
  last : Option Nat
  deriving DecidableEq, Repr

/-- Where control is afterwards, the blocks that leave or repeat the innermost
loop around the text, and the loops in the text. -/
structure Draft where
  cursor : Cursor
  leaves : List Nat
  again : List Nat
  loops : List Loop
  deriving DecidableEq, Repr

namespace Draft

def quiet (κ : Cursor) : Draft := ⟨κ, [], [], []⟩

def append (d e : Draft) : Draft :=
  ⟨e.cursor, d.leaves ++ e.leaves, d.again ++ e.again, d.loops ++ e.loops⟩

def resume (d : Draft) (b : Nat) : Draft := { d with cursor := ⟨b, d.cursor.blocks, false⟩ }

def loop (κ : Cursor) (d : Draft) : Draft :=
  ⟨⟨κ.blocks + 2, d.cursor.blocks, false⟩, [], [],
    ⟨κ.block, κ.blocks, κ.blocks + 1, κ.blocks + 2, d.leaves, d.again, d.cursor.open?⟩ :: d.loops⟩

end Draft

namespace Tree

mutual

def draft : Tree → Cursor → Draft
  | .node site children, κ =>
    match site.kind, children with
    | .returnStatement, _ => .quiet κ.stop
    | .whileStatement, [_, body] =>
      .loop κ (body.draft ⟨κ.blocks + 1, κ.blocks + 3, false⟩)
    | .statement, [] =>
      if site.name = "break" then ⟨κ.stop, [κ.block], [], []⟩ else ⟨κ.stop, [], [κ.block], []⟩
    | .statement, [_, yes] =>
      (yes.draft ⟨κ.blocks, κ.blocks + 2, false⟩).resume (κ.blocks + 1)
    | .statement, [_, yes, no] =>
      let first := yes.draft ⟨κ.blocks, κ.blocks + 3, false⟩
      (first.append (no.draft ⟨κ.blocks + 2, first.cursor.blocks, false⟩)).resume (κ.blocks + 1)
    | .block, ts => draftAll ts κ
    | _, _ => .quiet κ

def draftAll : List Tree → Cursor → Draft
  | [], κ => .quiet κ
  | t :: ts, κ =>
    if κ.ended then .quiet κ else (t.draft κ).append (draftAll ts (t.draft κ).cursor)

end

/-- The draft of a function. Its body starts in the entry block. -/
def flow (f : Tree) : Draft := draftAll f.statements ⟨0, 1, false⟩

end Tree

def Piece.draft : Piece → Cursor → Draft
  | .one t => t.draft
  | .many ts => Tree.draftAll ts

def Mark.cursor (μ : Mark) : Cursor := ⟨μ.block, μ.blocks, μ.ended⟩

/-! ## The forms of statements -/

section Forms

variable {site : Site} {t test yes no : Tree} {ts : List Tree} (κ : Cursor)

theorem Tree.draft_of_block (h : t.kind = .block) : t.draft κ = Tree.draftAll t.children κ := by
  cases t with
  | node site ts =>
    rw [Site.eq_of_kind (show site.kind = .block from h)]
    rfl

theorem Tree.draft_arm (no : Tree) : no.arm.draft κ = no.draft κ := by
  unfold Tree.arm
  split
  · rw [Tree.draft_of_block κ ‹_›]
    rfl
  · rfl

namespace Piece

theorem draft_declaration (kind : site.kind = .variableDeclaration) :
    (one (.node site ts)).draft κ = .quiet κ := by
  rw [Site.eq_of_kind kind]
  rfl

theorem draft_assignment (kind : site.kind = .assignment) :
    (one (.node site ts)).draft κ = .quiet κ := by
  rw [Site.eq_of_kind kind]
  rfl

theorem draft_call (kind : site.kind = .functionCall) :
    (one (.node site ts)).draft κ = .quiet κ := by
  rw [Site.eq_of_kind kind]
  rfl

theorem draft_return (kind : site.kind = .returnStatement) :
    (one (.node site ts)).draft κ = .quiet κ.stop := by
  rw [Site.eq_of_kind kind]
  rfl

theorem draft_loop {body : Tree} (kind : site.kind = .whileStatement) (block : body.kind = .block) :
    (one (.node site [test, body])).draft κ =
      .loop κ ((many body.children).draft ⟨κ.blocks + 1, κ.blocks + 3, false⟩) := by
  rw [Site.eq_of_kind kind, draft, draft, ← Tree.draft_of_block _ block]
  rfl

theorem draft_ifThen (kind : site.kind = .statement) (block : yes.kind = .block) :
    (one (.node site [test, yes])).draft κ =
      ((many yes.children).draft ⟨κ.blocks, κ.blocks + 2, false⟩).resume (κ.blocks + 1) := by
  rw [Site.eq_of_kind kind, draft, draft, ← Tree.draft_of_block _ block]
  rfl

theorem draft_ifElse (kind : site.kind = .statement) (block : yes.kind = .block) :
    (one (.node site [test, yes, no])).draft κ =
      (((many yes.children).draft ⟨κ.blocks, κ.blocks + 3, false⟩).append
        (no.arm.draft ⟨κ.blocks + 2,
          ((many yes.children).draft ⟨κ.blocks, κ.blocks + 3, false⟩).cursor.blocks, false⟩)).resume
            (κ.blocks + 1) := by
  have hyes : ∀ κ, (many yes.children).draft κ = yes.draft κ := fun κ =>
    (Tree.draft_of_block κ block).symm
  rw [Site.eq_of_kind kind, hyes, Tree.draft_arm]
  rfl

theorem draft_leave (kind : site.kind = .statement) (named : site.name = "break") :
    (one (.node site [])).draft κ = ⟨κ.stop, [κ.block], [], []⟩ := by
  rw [Site.eq_of_kind kind, named]
  rfl

theorem draft_again (kind : site.kind = .statement) (named : site.name = "continue") :
    (one (.node site [])).draft κ = ⟨κ.stop, [], [κ.block], []⟩ := by
  rw [Site.eq_of_kind kind, named]
  rfl

theorem draft_block (kind : site.kind = .block) :
    (one (.node site ts)).draft κ = (many ts).draft κ := Tree.draft_of_block κ kind

theorem draft_ended (h : κ.ended = true) : (many ts).draft κ = .quiet κ := by
  cases ts with
  | nil => rfl
  | cons t ts => exact if_pos h

theorem draft_cons (h : κ.ended = false) :
    (many (t :: ts)).draft κ =
      ((one t).draft κ).append ((many ts).draft ((one t).draft κ).cursor) := by
  obtain ⟨block, blocks, ended⟩ := κ
  cases h
  rfl

end Piece

end Forms

theorem Mark.cursor_head (μ : Mark) (b : Nat) : (μ.head b).cursor = ⟨b, μ.blocks, false⟩ := rfl

theorem Assigns.cursor {g : Function} {name : String} {p : Value} {ty : Ty} {μ μ' : Mark}
    (h : Assigns g name μ p ty μ') : μ'.cursor = μ.cursor := by
  cases h <;> rfl

/-- A layout moves the cursor as the draft of its text says. -/
theorem Lays.drafted {m : Module} {g : Function} {p : Piece} {ls : List LoopTargets} {μ μ' : Mark}
    (h : Lays m g p ls μ μ') : (p.draft μ.cursor).cursor = μ'.cursor := by
  induction h with
  | declare kind =>
    rw [Piece.draft_declaration _ kind]
    rfl
  | initialise kind =>
    rw [Piece.draft_declaration _ kind]
    rfl
  | assign kind _ _ target =>
    rw [Piece.draft_assignment _ kind]
    exact target.cursor.symm
  | returnNone kind =>
    rw [Piece.draft_return _ kind]
    rfl
  | returnValue kind =>
    rw [Piece.draft_return _ kind]
    rfl
  | loop kind block _ _ _ _ _ _ ih =>
    rw [Piece.draft_loop _ kind block, Mark.cursor_head]
    exact congrArg (fun κ : Cursor => Cursor.mk _ κ.blocks false) ih
  | ifThen kind _ block _ _ _ _ _ ih =>
    rw [Piece.draft_ifThen _ kind block, Mark.cursor_head]
    exact congrArg (fun κ : Cursor => Cursor.mk _ κ.blocks false) ih
  | @ifElse site test yes no ls μ μ₁ μ₂ c v r kind _ block _ _ _ _ _ _ _ _ ih₁ ih₂ =>
    have hfirst : ((Piece.many yes.children).draft ⟨μ.blocks, μ.blocks + 3, false⟩).cursor.blocks =
        μ₁.blocks := congrArg Cursor.blocks ih₁
    rw [Piece.draft_ifElse _ kind block, Mark.cursor_head]
    show Cursor.mk _ (no.arm.draft ⟨μ.blocks + 2, ((Piece.many yes.children).draft
      ⟨μ.blocks, μ.blocks + 3, false⟩).cursor.blocks, false⟩).cursor.blocks false = _
    rw [hfirst]
    exact congrArg (fun κ : Cursor => Cursor.mk _ κ.blocks false) ih₂
  | leave kind named =>
    rw [Piece.draft_leave _ kind named]
    rfl
  | again kind named =>
    rw [Piece.draft_again _ kind named]
    rfl
  | call kind =>
    rw [Piece.draft_call _ kind]
    rfl
  | block kind _ ih =>
    rw [Piece.draft_block _ kind]
    exact ih
  | nil => rfl
  | skip ended => rw [Piece.draft_ended _ ended]; rfl
  | cons unended _ _ ih₁ ih₂ =>
    rw [Piece.draft_cons _ unended, ih₁]
    exact ih₂

end TreeFlow
