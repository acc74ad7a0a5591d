/-!
# Parsing expressions

A grammar gives an expression to each of its rules. Choices are ordered, and a repetition
goes on as long as it can. In a rule that is not atomic, white space and comments may
stand between the parts of a sequence and between repetitions, and they are skipped.

A run of an expression fails or matches the start of what is left. A match leaves a pair
for each rule that is not silent. A run also keeps the rules that have failed at the
furthest position so far, for these are the ones that a message names. A rule in which
exactly one other rule has failed at its own start leaves it at that one.
-/

set_option autoImplicit false

namespace TreeFlow.Peg

inductive Expr (ρ : Type) where
  | text (s : List Char)
  | range (low high : Char)
  | any
  | start
  | finish
  | call (r : ρ)
  | seq (a b : Expr ρ)
  | alt (a b : Expr ρ)
  | opt (a : Expr ρ)
  | star (a : Expr ρ)
  /-- What follows the first match of a repetition. -/
  | more (a : Expr ρ)
  | not (a : Expr ρ)

inductive Modifier where
  | normal
  | silent
  | atomic
  deriving DecidableEq, Repr

structure Grammar (ρ : Type) where
  modifier : ρ → Modifier
  body : ρ → Expr ρ
  whitespace : ρ
  comment : ρ

structure Position where
  read : List Char
  rest : List Char
  deriving DecidableEq, Repr

inductive Pair (ρ : Type) where
  | node (rule : ρ) (start stop : Position) (inner : List (Pair ρ))

/-- The rules that have failed at the furthest position. -/
structure Tries (ρ : Type) where
  read : List Char
  rules : List ρ

inductive Answer (ρ : Type) where
  | ok (pairs : List (Pair ρ)) (c : Position) (τ : Tries ρ)
  | fail (τ : Tries ρ)

variable {ρ : Type}

namespace Tries

def initial : Tries ρ := ⟨[], []⟩

def here (τ : Tries ρ) (read : List Char) : List ρ :=
  if τ.read.length = read.length then τ.rules else []

def missed (before after : Tries ρ) (r : ρ) (read : List Char) : Tries ρ :=
  let known := (before.here read).length
  if (after.here read).length = known + 1 then after
  else if after.read.length < read.length then ⟨read, [r]⟩
  else if after.read.length = read.length then ⟨read, after.rules.take known ++ [r]⟩
  else after

end Tries

namespace Grammar

def skip (G : Grammar ρ) : Expr ρ :=
  .seq (.star (.call G.whitespace)) (.star (.seq (.call G.comment) (.star (.call G.whitespace))))

def gap (G : Grammar ρ) (atomic : Bool) : Expr ρ := if atomic then .text [] else G.skip

/-- A rule leaves a pair and is kept when it fails, unless it is silent or inside an atomic
one. -/
def tracks (G : Grammar ρ) (atomic : Bool) (r : ρ) : Bool := !atomic && G.modifier r != .silent

def inside (G : Grammar ρ) (atomic : Bool) (r : ρ) : Bool := atomic || G.modifier r == .atomic

end Grammar

/-- `Runs G atomic e c τ o`: the expression `e` comes to `o` at `c`. -/
inductive Runs (G : Grammar ρ) : Bool → Expr ρ → Position → Tries ρ → Answer ρ → Prop
  | text {a : Bool} {c : Position} {τ : Tries ρ} {s rest : List Char} (h : c.rest = s ++ rest) :
      Runs G a (.text s) c τ (.ok [] ⟨c.read ++ s, rest⟩ τ)
  | noText {a : Bool} {c : Position} {τ : Tries ρ} {s : List Char} (h : ¬ s <+: c.rest) :
      Runs G a (.text s) c τ (.fail τ)
  | range {a : Bool} {c : Position} {τ : Tries ρ} {low high x : Char} {rest : List Char}
      (h : c.rest = x :: rest) (hx : low ≤ x ∧ x ≤ high) :
      Runs G a (.range low high) c τ (.ok [] ⟨c.read ++ [x], rest⟩ τ)
  | noRange {a : Bool} {c : Position} {τ : Tries ρ} {low high : Char}
      (h : ∀ x ∈ c.rest.head?, ¬ (low ≤ x ∧ x ≤ high)) : Runs G a (.range low high) c τ (.fail τ)
  | any {a : Bool} {c : Position} {τ : Tries ρ} {x : Char} {rest : List Char}
      (h : c.rest = x :: rest) : Runs G a .any c τ (.ok [] ⟨c.read ++ [x], rest⟩ τ)
  | noAny {a : Bool} {c : Position} {τ : Tries ρ} (h : c.rest = []) : Runs G a .any c τ (.fail τ)
  | start {a : Bool} {c : Position} {τ : Tries ρ} (h : c.read = []) :
      Runs G a .start c τ (.ok [] c τ)
  | noStart {a : Bool} {c : Position} {τ : Tries ρ} (h : c.read ≠ []) :
      Runs G a .start c τ (.fail τ)
  | finish {a : Bool} {c : Position} {τ : Tries ρ} (h : c.rest = []) :
      Runs G a .finish c τ (.ok [] c τ)
  | noFinish {a : Bool} {c : Position} {τ : Tries ρ} (h : c.rest ≠ []) :
      Runs G a .finish c τ (.fail τ)
  | quiet {a : Bool} {c : Position} {τ : Tries ρ} {r : ρ} {o : Answer ρ}
      (h : G.tracks a r = false) (body : Runs G (G.inside a r) (G.body r) c τ o) :
      Runs G a (.call r) c τ o
  | matched {a : Bool} {c c₁ : Position} {τ τ₁ : Tries ρ} {r : ρ} {ps : List (Pair ρ)}
      (h : G.tracks a r = true) (body : Runs G (G.inside a r) (G.body r) c τ (.ok ps c₁ τ₁)) :
      Runs G a (.call r) c τ (.ok [.node r c c₁ ps] c₁ τ₁)
  | missed {a : Bool} {c : Position} {τ τ₁ : Tries ρ} {r : ρ} (h : G.tracks a r = true)
      (body : Runs G (G.inside a r) (G.body r) c τ (.fail τ₁)) :
      Runs G a (.call r) c τ (.fail (τ.missed τ₁ r c.read))
  | seq {a : Bool} {c c₁ c₂ c₃ : Position} {τ τ₁ τ₂ τ₃ : Tries ρ} {e e' : Expr ρ}
      {ps qs : List (Pair ρ)} (first : Runs G a e c τ (.ok ps c₁ τ₁))
      (gap : Runs G true (G.gap a) c₁ τ₁ (.ok [] c₂ τ₂))
      (second : Runs G a e' c₂ τ₂ (.ok qs c₃ τ₃)) : Runs G a (.seq e e') c τ (.ok (ps ++ qs) c₃ τ₃)
  | noFirst {a : Bool} {c : Position} {τ τ₁ : Tries ρ} {e e' : Expr ρ}
      (first : Runs G a e c τ (.fail τ₁)) : Runs G a (.seq e e') c τ (.fail τ₁)
  | noSecond {a : Bool} {c c₁ c₂ : Position} {τ τ₁ τ₂ τ₃ : Tries ρ} {e e' : Expr ρ}
      {ps : List (Pair ρ)} (first : Runs G a e c τ (.ok ps c₁ τ₁))
      (gap : Runs G true (G.gap a) c₁ τ₁ (.ok [] c₂ τ₂))
      (second : Runs G a e' c₂ τ₂ (.fail τ₃)) : Runs G a (.seq e e') c τ (.fail τ₃)
  | left {a : Bool} {c c₁ : Position} {τ τ₁ : Tries ρ} {e e' : Expr ρ} {ps : List (Pair ρ)}
      (first : Runs G a e c τ (.ok ps c₁ τ₁)) : Runs G a (.alt e e') c τ (.ok ps c₁ τ₁)
  | right {a : Bool} {c : Position} {τ τ₁ : Tries ρ} {e e' : Expr ρ} {o : Answer ρ}
      (first : Runs G a e c τ (.fail τ₁)) (second : Runs G a e' c τ₁ o) :
      Runs G a (.alt e e') c τ o
  | opt {a : Bool} {c c₁ : Position} {τ τ₁ : Tries ρ} {e : Expr ρ} {ps : List (Pair ρ)}
      (body : Runs G a e c τ (.ok ps c₁ τ₁)) : Runs G a (.opt e) c τ (.ok ps c₁ τ₁)
  | noOpt {a : Bool} {c : Position} {τ τ₁ : Tries ρ} {e : Expr ρ}
      (body : Runs G a e c τ (.fail τ₁)) : Runs G a (.opt e) c τ (.ok [] c τ₁)
  | star {a : Bool} {c c₁ c₂ : Position} {τ τ₁ τ₂ : Tries ρ} {e : Expr ρ} {ps qs : List (Pair ρ)}
      (first : Runs G a e c τ (.ok ps c₁ τ₁)) (rest : Runs G a (.more e) c₁ τ₁ (.ok qs c₂ τ₂)) :
      Runs G a (.star e) c τ (.ok (ps ++ qs) c₂ τ₂)
  | noStar {a : Bool} {c : Position} {τ τ₁ : Tries ρ} {e : Expr ρ}
      (first : Runs G a e c τ (.fail τ₁)) : Runs G a (.star e) c τ (.ok [] c τ₁)
  | more {a : Bool} {c c₁ c₂ c₃ : Position} {τ τ₁ τ₂ τ₃ : Tries ρ} {e : Expr ρ}
      {ps qs : List (Pair ρ)} (gap : Runs G true (G.gap a) c τ (.ok [] c₁ τ₁))
      (next : Runs G a e c₁ τ₁ (.ok ps c₂ τ₂)) (rest : Runs G a (.more e) c₂ τ₂ (.ok qs c₃ τ₃)) :
      Runs G a (.more e) c τ (.ok (ps ++ qs) c₃ τ₃)
  | noMore {a : Bool} {c c₁ : Position} {τ τ₁ τ₂ : Tries ρ} {e : Expr ρ}
      (gap : Runs G true (G.gap a) c τ (.ok [] c₁ τ₁)) (next : Runs G a e c₁ τ₁ (.fail τ₂)) :
      Runs G a (.more e) c τ (.ok [] c τ₂)
  | not {a : Bool} {c : Position} {τ τ₁ : Tries ρ} {e : Expr ρ}
      (body : Runs G a e c τ (.fail τ₁)) : Runs G a (.not e) c τ (.ok [] c τ)
  | noNot {a : Bool} {c c₁ : Position} {τ τ₁ : Tries ρ} {e : Expr ρ} {ps : List (Pair ρ)}
      (body : Runs G a e c τ (.ok ps c₁ τ₁)) : Runs G a (.not e) c τ (.fail τ)

variable {G : Grammar ρ} {a : Bool} {e e' : Expr ρ} {c c₁ c₂ : Position} {τ τ₁ τ₂ : Tries ρ}

/-- An expression comes to one outcome at most. -/
theorem Runs.unique {o o' : Answer ρ} (h : Runs G a e c τ o) (h' : Runs G a e c τ o') :
    o = o' := by
  induction h generalizing o' with
  | text h =>
    cases h' with
    | text h' =>
      obtain rfl := List.append_cancel_left (h.symm.trans h')
      rfl
    | noText h' => exact absurd ⟨_, h.symm⟩ h'
  | noText h =>
    cases h' with
    | text h' => exact absurd ⟨_, h'.symm⟩ h
    | noText => rfl
  | range h hx =>
    cases h' with
    | range h' =>
      cases h.symm.trans h'
      rfl
    | noRange h' => exact absurd hx (h' _ (by rw [h]; rfl))
  | noRange h =>
    cases h' with
    | range h' hx => exact absurd hx (h _ (by rw [h']; rfl))
    | noRange => rfl
  | any h =>
    cases h' with
    | any h' =>
      cases h.symm.trans h'
      rfl
    | noAny h' => cases h.symm.trans h'
  | noAny h =>
    cases h' with
    | any h' => cases h.symm.trans h'
    | noAny => rfl
  | start h =>
    cases h' with
    | start => rfl
    | noStart h' => exact absurd h h'
  | noStart h =>
    cases h' with
    | start h' => exact absurd h' h
    | noStart => rfl
  | finish h =>
    cases h' with
    | finish => rfl
    | noFinish h' => exact absurd h h'
  | noFinish h =>
    cases h' with
    | finish h' => exact absurd h' h
    | noFinish => rfl
  | quiet h _ ih =>
    cases h' with
    | quiet _ body => exact ih body
    | matched h' | missed h' => exact absurd (h.symm.trans h') Bool.false_ne_true
  | matched h _ ih =>
    cases h' with
    | quiet h' => exact absurd (h'.symm.trans h) Bool.false_ne_true
    | matched _ body =>
      cases ih body
      rfl
    | missed _ body => cases ih body
  | missed h _ ih =>
    cases h' with
    | quiet h' => exact absurd (h'.symm.trans h) Bool.false_ne_true
    | matched _ body => cases ih body
    | missed _ body =>
      cases ih body
      rfl
  | seq _ _ _ ih₁ ih₂ ih₃ =>
    cases h' with
    | seq first gap second =>
      cases ih₁ first
      cases ih₂ gap
      cases ih₃ second
      rfl
    | noFirst first => cases ih₁ first
    | noSecond first gap second =>
      cases ih₁ first
      cases ih₂ gap
      cases ih₃ second
  | noFirst _ ih =>
    cases h' with
    | seq first | noSecond first => cases ih first
    | noFirst first =>
      cases ih first
      rfl
  | noSecond _ _ _ ih₁ ih₂ ih₃ =>
    cases h' with
    | seq first gap second =>
      cases ih₁ first
      cases ih₂ gap
      cases ih₃ second
    | noFirst first => cases ih₁ first
    | noSecond first gap second =>
      cases ih₁ first
      cases ih₂ gap
      cases ih₃ second
      rfl
  | left _ ih =>
    cases h' with
    | left first => exact ih first
    | right first => cases ih first
  | right _ _ ih₁ ih₂ =>
    cases h' with
    | left first => cases ih₁ first
    | right first second =>
      cases ih₁ first
      exact ih₂ second
  | opt _ ih =>
    cases h' with
    | opt body => exact ih body
    | noOpt body => cases ih body
  | noOpt _ ih =>
    cases h' with
    | opt body => cases ih body
    | noOpt body =>
      cases ih body
      rfl
  | star _ _ ih₁ ih₂ =>
    cases h' with
    | star first rest =>
      cases ih₁ first
      cases ih₂ rest
      rfl
    | noStar first => cases ih₁ first
  | noStar _ ih =>
    cases h' with
    | star first => cases ih first
    | noStar first =>
      cases ih first
      rfl
  | more _ _ _ ih₁ ih₂ ih₃ =>
    cases h' with
    | more gap next rest =>
      cases ih₁ gap
      cases ih₂ next
      cases ih₃ rest
      rfl
    | noMore gap next =>
      cases ih₁ gap
      cases ih₂ next
  | noMore _ _ ih₁ ih₂ =>
    cases h' with
    | more gap next =>
      cases ih₁ gap
      cases ih₂ next
    | noMore gap next =>
      cases ih₁ gap
      cases ih₂ next
      rfl
  | not _ ih =>
    cases h' with
    | not => rfl
    | noNot body => cases ih body
  | noNot _ ih =>
    cases h' with
    | not body => cases ih body
    | noNot => rfl

/-! ## Repetitions -/

def Answer.prepend (ps : List (Pair ρ)) : Answer ρ → Answer ρ
  | .ok qs c τ => .ok (ps ++ qs) c τ
  | .fail τ => .fail τ

theorem Runs.seq_more {ps : List (Pair ρ)} {o : Answer ρ}
    (gap : Runs G true (G.gap a) c τ (.ok [] c₁ τ₁)) (next : Runs G a e c₁ τ₁ (.ok ps c₂ τ₂))
    (rest : Runs G a (.seq (.more e) e') c₂ τ₂ o) :
    Runs G a (.seq (.more e) e') c τ (o.prepend ps) := by
  cases rest with
  | seq first gap' second =>
    rw [Answer.prepend, ← List.append_assoc]
    exact .seq (.more gap next first) gap' second
  | noFirst first => cases first
  | noSecond first gap' second => exact .noSecond (.more gap next first) gap' second

theorem Runs.star_of_more {o : Answer ρ} (h : Runs G a (.more e) c τ o)
    (tight : Runs G true (G.gap a) c τ (.ok [] c τ)) : Runs G a (.star e) c τ o := by
  cases h with
  | more gap next rest =>
    cases gap.unique tight
    exact .star next rest
  | noMore gap next =>
    cases gap.unique tight
    exact .noStar next

theorem Runs.seq_star {o : Answer ρ} (h : Runs G a (.seq (.more e) e') c τ o)
    (tight : Runs G true (G.gap a) c τ (.ok [] c τ)) : Runs G a (.seq (.star e) e') c τ o := by
  cases h with
  | seq first gap second => exact .seq (first.star_of_more tight) gap second
  | noFirst first => exact .noFirst (first.star_of_more tight)
  | noSecond first gap second => exact .noSecond (first.star_of_more tight) gap second

end TreeFlow.Peg
