import TreeFlow.Lowering.Shape

/-!
# Pieces of source

What is said of a statement and of a row of statements is said of a piece. The
subtrees of a piece are listed, so that what they contain can be computed.
-/

set_option autoImplicit false

namespace TreeFlow

variable {ts : List Tree} {site : Site}

inductive Piece where
  | one (t : Tree)
  | many (ts : List Tree)

def Tree.bare (kind : Kind) (name : String) (children : List Tree) : Tree :=
  .node ⟨kind, name, none⟩ children

def Tree.arm (no : Tree) : Piece := if no.kind = .block then .many no.children else .one no

def Tree.constant? (t : Tree) : Option (String × Int) :=
  if t.kind = .preprocessorDirective ∧ t.name = "#define" then
    match t.children with
    | [name, value] => value.site.literal.toOption.map (name.name, ·)
    | _ => none
  else none

/-! ## Declarations of a program -/

namespace Tree

/-- The function declarations among some items, each with the constants that
are defined above it, the latest first. -/
def declarationsFrom (constants : List (String × Int)) :
    List Tree → List (List (String × Int) × Tree)
  | [] => []
  | t :: ts =>
    if t.kind = .functionDeclaration then (constants, t) :: declarationsFrom constants ts
    else declarationsFrom (t.constant?.toList ++ constants) ts

def declarations (p : Tree) : List (List (String × Int) × Tree) := declarationsFrom [] p.children

theorem mem_of_declarationsFrom {cs cs' : List (String × Int)} {f : Tree}
    (h : (cs', f) ∈ declarationsFrom cs ts) : f ∈ ts := by
  induction ts generalizing cs with
  | nil => cases h
  | cons t ts ih =>
    rw [declarationsFrom] at h
    split at h
    · rcases List.mem_cons.mp h with h | h
      · cases h
        exact List.mem_cons_self ..
      · exact List.mem_cons_of_mem _ (ih h)
    · exact List.mem_cons_of_mem _ (ih h)

end Tree

/-! ## Subtrees -/

namespace Tree

mutual

def subtrees : Tree → List Tree
  | .node s ts => .node s ts :: subtreesAll ts

def subtreesAll : List Tree → List Tree
  | [] => []
  | t :: ts => t.subtrees ++ subtreesAll ts

end

theorem mem_subtreesAll {c : Tree} : c ∈ subtreesAll ts ↔ ∃ t ∈ ts, c ∈ t.subtrees := by
  induction ts with
  | nil => simp [subtreesAll]
  | cons t ts ih => simp [subtreesAll, ih]

theorem mem_subtrees_node {c : Tree} {s : Site} :
    c ∈ (node s ts).subtrees ↔ c = node s ts ∨ ∃ t ∈ ts, c ∈ t.subtrees := by
  rw [subtrees, List.mem_cons, mem_subtreesAll]

theorem mem_subtrees_self (t : Tree) : t ∈ t.subtrees := by
  cases t
  simp [subtrees]

theorem subtrees_child {c t : Tree} (h : t ∈ c.children) : t.subtrees ⊆ c.subtrees := by
  cases c with
  | node s ts => exact fun x hx => mem_subtrees_node.mpr (.inr ⟨t, h, hx⟩)

end Tree

def Piece.subtrees : Piece → List Tree
  | .one t => t.subtrees
  | .many ts => Tree.subtreesAll ts

theorem Piece.subtrees_one {t : Tree} {l : List Tree} (ht : t ∈ ts)
    (h : (Piece.one (.node site ts)).subtrees ⊆ l) : t.subtrees ⊆ l :=
  fun _ hc => h (Tree.mem_subtrees_node.mpr (.inr ⟨t, ht, hc⟩))

theorem Tree.subtreesAll_children (t : Tree) : Tree.subtreesAll t.children ⊆ t.subtrees := by
  cases t with
  | node site ts => exact fun _ hc => List.mem_cons_of_mem _ hc

theorem Tree.subtrees_arm (t : Tree) : t.arm.subtrees ⊆ t.subtrees := by
  unfold Tree.arm
  split
  · exact t.subtreesAll_children
  · exact fun _ hc => hc

/-! ## Declared names -/

def Piece.declared (p : Piece) : List String :=
  (p.subtrees.filter fun t => t.kind = .variableDeclaration).map Tree.name

namespace Piece

theorem mem_declared {p : Piece} {x : String} :
    x ∈ p.declared ↔ ∃ t ∈ p.subtrees, t.kind = .variableDeclaration ∧ t.name = x := by
  simp [declared, and_assoc]

theorem declared_node (site : Site) (ts : List Tree) :
    declared (.one (.node site ts)) =
      (if site.kind = .variableDeclaration then [site.name] else []) ++ declared (.many ts) := by
  simp only [declared, subtrees, Tree.subtrees, List.filter_cons, Tree.kind, Tree.site]
  by_cases h : site.kind = .variableDeclaration <;> simp [h, Tree.name, Tree.site]

theorem declared_nil : declared (.many []) = [] := rfl

theorem declared_cons (t : Tree) (ts : List Tree) :
    declared (.many (t :: ts)) = declared (.one t) ++ declared (.many ts) := by
  simp [declared, subtrees, Tree.subtreesAll]

theorem declared_member {t : Tree} (ht : t ∈ ts) :
    (declared (.one t)).Sublist (declared (.one (.node site ts))) := by
  rw [declared_node]
  refine List.Sublist.trans ?_ (List.sublist_append_right _ _)
  induction ts with
  | nil => cases ht
  | cons c ts ih =>
    rw [declared_cons]
    rcases List.mem_cons.mp ht with rfl | ht
    · exact List.sublist_append_left _ _
    · exact (ih ht).trans (List.sublist_append_right _ _)

theorem declared_children (t : Tree) :
    (declared (.many t.children)).Sublist (declared (.one t)) := by
  cases t with
  | node site ts =>
    rw [declared_node]
    exact List.sublist_append_right _ _

theorem declared_arm (t : Tree) : t.arm.declared.Sublist (declared (.one t)) := by
  unfold Tree.arm
  split
  · exact declared_children t
  · exact List.Sublist.refl _

theorem declared_inside {t : Tree} (ht : t ∈ ts) :
    (declared (.many t.children)).Sublist (declared (.one (.node site ts))) :=
  (declared_children t).trans (declared_member ht)

theorem declared_otherwise {t : Tree} (ht : t ∈ ts) :
    t.arm.declared.Sublist (declared (.one (.node site ts))) :=
  (declared_arm t).trans (declared_member ht)

end Piece

/-! ## Names assigned in loops -/

def Tree.assigned (t : Tree) : List String :=
  (t.subtrees.filter fun a => a.kind = .assignment).map Tree.name

def Tree.assignedInBody (t : Tree) : List String :=
  match t.children with
  | [_, body] => body.assigned
  | _ => []

def Piece.looped (p : Piece) : List String :=
  (p.subtrees.filter fun t => t.kind = .whileStatement).flatMap Tree.assignedInBody

theorem Tree.mem_assigned {t : Tree} {x : String} :
    x ∈ t.assigned ↔ ∃ a ∈ t.subtrees, a.kind = .assignment ∧ a.name = x := by
  simp [Tree.assigned, and_assoc]

namespace Piece

theorem mem_looped {p : Piece} {x : String} :
    x ∈ p.looped ↔ ∃ t ∈ p.subtrees, t.kind = .whileStatement ∧ x ∈ t.assignedInBody := by
  simp [looped, and_assoc]

theorem looped_mono {p q : Piece} (h : p.subtrees ⊆ q.subtrees) : p.looped ⊆ q.looped := by
  intro x hx
  obtain ⟨t, ht, hloop⟩ := mem_looped.mp hx
  exact mem_looped.mpr ⟨t, h ht, hloop⟩

theorem looped_children :
    (Piece.many ts).looped ⊆ (Piece.one (.node site ts)).looped :=
  looped_mono fun _ hc => List.mem_cons_of_mem _ hc

theorem looped_inside {t : Tree} (ht : t ∈ ts) :
    (Piece.many t.children).looped ⊆ (Piece.one (.node site ts)).looped :=
  looped_mono fun _ hc => subtrees_one ht (fun _ h => h) (t.subtreesAll_children hc)

theorem looped_arm {t : Tree} (ht : t ∈ ts) :
    t.arm.looped ⊆ (Piece.one (.node site ts)).looped :=
  looped_mono fun _ hc => subtrees_one ht (fun _ h => h) (t.subtrees_arm hc)

theorem mem_looped_body {test body : Tree} {x : String} (kind : site.kind = .whileStatement)
    (hx : x ∈ body.assigned) :
    x ∈ (Piece.one (.node site [test, body])).looped :=
  mem_looped.mpr ⟨_, Tree.mem_subtrees_self _, kind, hx⟩

end Piece

end TreeFlow
