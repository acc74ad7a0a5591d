import TreeFlow.Text.White
import TreeFlow.Tree.Outline

/-!
# The grammar of dumps

A dump is a node with skipped text around it. Between the tokens of a node
blanks and comments are skipped, as many as there are, and words and names are
as long as they can be. A `Document` says which part of a text is which token.
It fits the text if every part is a longest one of its class, seen together with
the text behind it, and a text has at most one document that fits.
-/

set_option autoImplicit false

namespace TreeFlow.Grammar

/-! ## Characters and tokens -/

def EndsLine (c : Char) : Prop := c = '\n' ∨ c = '\r'

def Blank (c : Char) : Prop := c = ' ' ∨ c = '\t' ∨ EndsLine c

def Letter (c : Char) : Prop := 'a' ≤ c ∧ c ≤ 'z' ∨ 'A' ≤ c ∧ c ≤ 'Z'

def WordChar (c : Char) : Prop := Letter c ∨ '0' ≤ c ∧ c ≤ '9' ∨ c = '_'

def NameChar (c : Char) : Prop := c ≠ ')' ∧ ¬ EndsLine c

structure Longest (P : Char → Prop) (cs rest : List Char) : Prop where
  all : ∀ c ∈ cs, P c
  stop : ∀ c ∈ rest.head?, ¬ P c

/-- The text starts with nothing that is skipped. -/
structure Solid (rest : List Char) : Prop where
  blank : ∀ c ∈ rest.head?, ¬ Blank c
  comment : ¬ ['/', '/'] <+: rest

/-- Blanks and comments, all that stand in front of `rest`. A comment ends with
its line or with the text. -/
inductive Skip : List Char → List Char → Prop
  | done {rest : List Char} (solid : Solid rest) : Skip [] rest
  | blank {c : Char} {s rest : List Char} (blank : Blank c) (more : Skip s rest) :
      Skip (c :: s) rest
  | comment {line s rest : List Char} (longest : Longest (¬ EndsLine ·) line (s ++ rest))
      (more : Skip s rest) : Skip ('/' :: '/' :: (line ++ s)) rest

def Word (w rest : List Char) : Prop :=
  ∃ c cs, w = c :: cs ∧ Letter c ∧ Longest WordChar cs rest

theorem not_blank_slash : ¬ Blank '/' := by
  rintro (h | h | h | h) <;> exact absurd h (by decide)

theorem Letter.plain {c : Char} (h : Letter c) :
    ¬ Blank c ∧ c ≠ '/' ∧ c ≠ '{' ∧ c ≠ '}' := by
  refine ⟨?_, ?_, ?_, ?_⟩
  · rintro (rfl | rfl | rfl | rfl) <;> exact absurd h (by unfold Letter; decide)
  all_goals
    rintro rfl
    exact absurd h (by unfold Letter; decide)

theorem Longest.unique {P : Char → Prop} {xs ys r r' : List Char} (h : Longest P xs r)
    (h' : Longest P ys r') (heq : xs ++ r = ys ++ r') : xs = ys ∧ r = r' := by
  induction xs generalizing ys with
  | nil =>
    cases ys with
    | nil => exact ⟨rfl, heq⟩
    | cons y ys =>
      obtain rfl : r = y :: (ys ++ r') := heq
      exact absurd (h'.all y (by simp)) (h.stop y rfl)
  | cons x xs ih =>
    cases ys with
    | nil =>
      obtain rfl : x :: (xs ++ r) = r' := heq
      exact absurd (h.all x (by simp)) (h'.stop x rfl)
    | cons y ys =>
      obtain ⟨rfl, htail⟩ := List.cons.inj heq
      have hxs : Longest P xs r := ⟨fun c hc => h.all c (List.mem_cons_of_mem _ hc), h.stop⟩
      have hys : Longest P ys r' := ⟨fun c hc => h'.all c (List.mem_cons_of_mem _ hc), h'.stop⟩
      obtain ⟨rfl, hr⟩ := ih hxs hys htail
      exact ⟨rfl, hr⟩

theorem Longest.split {P : Char → Prop} {cs rest xs r : List Char} (h : Longest P cs rest)
    (heq : cs ++ rest = xs ++ r) (hxs : ∀ x ∈ xs, P x) :
    ∃ ys, cs = xs ++ ys ∧ r = ys ++ rest ∧ Longest P ys rest := by
  rcases List.append_eq_append_iff.mp heq with ⟨ys, rfl, rfl⟩ | ⟨ys, rfl, rfl⟩
  · cases ys with
    | nil => exact ⟨[], by simp, by simp, by simp, h.stop⟩
    | cons y ys => exact absurd (hxs y (by simp)) (h.stop y rfl)
  · exact ⟨ys, rfl, rfl, fun y hy => h.all y (by simp [hy]), h.stop⟩

theorem exists_longest (P : Char → Prop) (cs : List Char) :
    ∃ xs rest, cs = xs ++ rest ∧ Longest P xs rest := by
  induction cs with
  | nil => exact ⟨[], [], rfl, nofun, nofun⟩
  | cons c cs ih =>
    by_cases hc : P c
    · obtain ⟨xs, rest, rfl, hlong⟩ := ih
      exact ⟨c :: xs, rest, rfl, List.forall_mem_cons.mpr ⟨hc, hlong.all⟩, hlong.stop⟩
    · refine ⟨[], c :: cs, rfl, nofun, fun d hd => ?_⟩
      obtain rfl := Option.some.inj hd
      exact hc

theorem Skip.solid {s rest : List Char} (h : Skip s rest) : Solid rest := by
  induction h with
  | done solid => exact solid
  | blank _ _ ih | comment _ _ ih => exact ih

theorem Skip.blanks {s rest : List Char} (h : Skip s rest) :
    ∃ xs ys, s = xs ++ ys ∧ Longest Blank xs (ys ++ rest) ∧
      (ys = [] ∧ Solid rest ∨ ∃ line s', ys = '/' :: '/' :: (line ++ s') ∧
        Longest (¬ EndsLine ·) line (s' ++ rest) ∧ Skip s' rest) := by
  induction h with
  | done solid => exact ⟨[], [], rfl, ⟨by simp, solid.blank⟩, .inl ⟨rfl, solid⟩⟩
  | @blank c s rest blank _ ih =>
    obtain ⟨xs, ys, rfl, hxs, hys⟩ := ih
    exact ⟨c :: xs, ys, rfl, ⟨List.forall_mem_cons.mpr ⟨blank, hxs.all⟩, hxs.stop⟩, hys⟩
  | @comment line s rest longest more ih =>
    refine ⟨[], _, rfl, ⟨by simp, fun c hc => ?_⟩, .inr ⟨line, s, rfl, longest, more⟩⟩
    obtain rfl := Option.some.inj hc
    exact not_blank_slash

theorem Skip.unique {s s' r r' : List Char} (h : Skip s r) (h' : Skip s' r')
    (heq : s ++ r = s' ++ r') : s = s' ∧ r = r' := by
  induction h generalizing s' with
  | @done rest solid =>
    cases h' with
    | done => exact ⟨rfl, heq⟩
    | @blank c s' _ hc more =>
      obtain rfl : rest = c :: (s' ++ r') := heq
      exact absurd hc (solid.blank c rfl)
    | @comment line s' _ longest more =>
      refine absurd ⟨line ++ s' ++ r', ?_⟩ solid.comment
      exact heq.symm
  | @blank c s rest hc more ih =>
    cases h' with
    | done solid =>
      obtain rfl : c :: (s ++ rest) = r' := heq
      exact absurd hc (solid.blank c rfl)
    | blank hc' more' =>
      obtain ⟨rfl, htail⟩ := List.cons.inj heq
      obtain ⟨rfl, hr⟩ := ih more' htail
      exact ⟨rfl, hr⟩
    | comment =>
      obtain ⟨rfl, -⟩ := List.cons.inj heq
      exact absurd hc not_blank_slash
  | @comment line s rest longest more ih =>
    cases h' with
    | done solid => exact absurd ⟨line ++ s ++ rest, heq⟩ solid.comment
    | blank hc' =>
      obtain ⟨rfl, -⟩ := List.cons.inj heq
      exact absurd hc' not_blank_slash
    | @comment line' s' _ longest' more' =>
      have htail : line ++ (s ++ rest) = line' ++ (s' ++ r') := by simpa using heq
      obtain ⟨rfl, hmore⟩ := longest.unique longest' htail
      obtain ⟨rfl, hr⟩ := ih more' hmore
      exact ⟨rfl, hr⟩

theorem not_solid {cs : List Char} (h : ¬ Solid cs) :
    (∃ c rest, cs = c :: rest ∧ Blank c) ∨ ∃ rest, cs = '/' :: '/' :: rest := by
  by_cases hcomment : ['/', '/'] <+: cs
  · obtain ⟨rest, rfl⟩ := hcomment
    exact .inr ⟨rest, rfl⟩
  · cases cs with
    | nil => exact absurd ⟨nofun, hcomment⟩ h
    | cons c rest =>
      refine .inl ⟨c, rest, rfl, Classical.byContradiction fun hc => ?_⟩
      refine h ⟨fun d hd => ?_, hcomment⟩
      obtain rfl := Option.some.inj hd
      exact hc

theorem exists_skip (cs : List Char) : ∃ s rest, cs = s ++ rest ∧ Skip s rest := by
  induction hn : cs.length using Nat.strongRecOn generalizing cs with
  | ind n ih =>
    subst hn
    by_cases hsolid : Solid cs
    · exact ⟨[], cs, rfl, .done hsolid⟩
    · rcases not_solid hsolid with ⟨c, more, rfl, hc⟩ | ⟨more, rfl⟩
      · obtain ⟨s, rest, rfl, hskip⟩ := ih more.length (by simp) more rfl
        exact ⟨c :: s, rest, rfl, .blank hc hskip⟩
      · obtain ⟨line, tail, rfl, hline⟩ := exists_longest (¬ EndsLine ·) more
        obtain ⟨s, rest, rfl, hskip⟩ := ih tail.length (by simp; omega) tail rfl
        exact ⟨'/' :: '/' :: (line ++ s), rest, by simp, .comment hline hskip⟩

theorem Word.unique {w w' r r' : List Char} (h : Word w r) (h' : Word w' r')
    (heq : w ++ r = w' ++ r') : w = w' ∧ r = r' := by
  obtain ⟨c, cs, rfl, -, hlong⟩ := h
  obtain ⟨c', cs', rfl, -, hlong'⟩ := h'
  obtain ⟨rfl, htail⟩ := List.cons.inj heq
  obtain ⟨rfl, hr⟩ := hlong.unique hlong' htail
  exact ⟨rfl, hr⟩

/-! ## Headings -/

/-- The tokens of a head and what is skipped between them. -/
structure Heading where
  kind : List Char
  beforeParen : List Char
  beforeName : List Char
  name : List Char
  behindName : List Char

namespace Heading

variable (h : Heading)

def tail (rest : List Char) : List Char := h.behindName ++ ')' :: rest

def inner (rest : List Char) : List Char := h.beforeName ++ (h.name ++ h.tail rest)

def before (rest : List Char) : List Char :=
  h.kind ++ (h.beforeParen ++ '(' :: h.inner rest)

structure Fits (rest : List Char) : Prop where
  kind : Word h.kind (h.beforeParen ++ '(' :: h.inner rest)
  paren : Skip h.beforeParen ('(' :: h.inner rest)
  opening : Skip h.beforeName (h.name ++ h.tail rest)
  name : Longest NameChar h.name (h.tail rest)
  closing : Skip h.behindName (')' :: rest)

theorem before_append (xs ys : List Char) : h.before (xs ++ ys) = h.before xs ++ ys := by
  simp [before, inner, tail]

theorem after_before (p : Place) (xs ys : List Char) :
    (p.after (h.before xs)).after ys = p.after (h.before (xs ++ ys)) := by
  rw [← Place.after_append, before_append]

variable {h}

theorem Fits.unique {h' : Heading} {r r' : List Char} (hfit : h.Fits r) (hfit' : h'.Fits r')
    (heq : h.before r = h'.before r') : h = h' ∧ r = r' := by
  obtain ⟨hkind, hparen⟩ := hfit.kind.unique hfit'.kind heq
  obtain ⟨hbefore, hinner⟩ := hfit.paren.unique hfit'.paren hparen
  obtain ⟨hopening, hname⟩ := hfit.opening.unique hfit'.opening (List.cons.inj hinner).2
  obtain ⟨hname, htail⟩ := hfit.name.unique hfit'.name hname
  obtain ⟨hbehind, hrest⟩ := hfit.closing.unique hfit'.closing htail
  obtain ⟨kind, beforeParen, beforeName, name, behindName⟩ := h
  cases h'
  cases hkind
  cases hbefore
  cases hopening
  cases hname
  cases hbehind
  exact ⟨rfl, (List.cons.inj hrest).2⟩

theorem Fits.letter {rest : List Char} (hfit : h.Fits rest) :
    ∃ c cs, h.before rest = c :: cs ∧ Letter c := by
  obtain ⟨c, cs, hkind, hc, -⟩ := hfit.kind
  exact ⟨c, cs ++ (h.beforeParen ++ '(' :: h.inner rest), by rw [before, hkind]; rfl, hc⟩

end Heading

/-- A word that is not the start of a heading. -/
inductive Broken : List Char → Prop
  | word {w g rest : List Char} (kind : Word w (g ++ rest)) (paren : Skip g rest)
      (stop : ∀ c ∈ rest.head?, c ≠ '(') : Broken (w ++ (g ++ rest))
  | name {w g g' name g'' rest : List Char}
      (kind : Word w (g ++ '(' :: (g' ++ (name ++ (g'' ++ rest)))))
      (paren : Skip g ('(' :: (g' ++ (name ++ (g'' ++ rest)))))
      (opening : Skip g' (name ++ (g'' ++ rest))) (longest : Longest NameChar name (g'' ++ rest))
      (closing : Skip g'' rest) (stop : ∀ c ∈ rest.head?, c ≠ ')') :
      Broken (w ++ (g ++ '(' :: (g' ++ (name ++ (g'' ++ rest)))))

theorem head?_cases (P : Char → Prop) (cs : List Char) :
    (∃ c rest, cs = c :: rest ∧ P c) ∨ ∀ c ∈ cs.head?, ¬ P c := by
  cases cs with
  | nil => exact .inr nofun
  | cons c cs =>
    by_cases hc : P c
    · exact .inl ⟨c, cs, rfl, hc⟩
    · exact .inr fun d hd => Option.some.inj hd ▸ hc

theorem heading_or_broken {c : Char} (hc : Letter c) (cs : List Char) :
    (∃ (h : Heading) (rest : List Char), c :: cs = h.before rest ∧ h.Fits rest) ∨
      Broken (c :: cs) := by
  obtain ⟨w, t₁, rfl, hword⟩ := exists_longest WordChar cs
  obtain ⟨g, t₂, rfl, hparen⟩ := exists_skip t₁
  have hkind : Word (c :: w) (g ++ t₂) := ⟨c, w, rfl, hc, hword⟩
  rcases head?_cases (· = '(') t₂ with ⟨_, t₃, rfl, rfl⟩ | hstop
  · obtain ⟨g', t₄, rfl, hopening⟩ := exists_skip t₃
    obtain ⟨name, t₅, rfl, hname⟩ := exists_longest NameChar t₄
    obtain ⟨g'', t₆, rfl, hclosing⟩ := exists_skip t₅
    rcases head?_cases (· = ')') t₆ with ⟨_, rest, rfl, rfl⟩ | hstop
    · exact .inl ⟨⟨c :: w, g, g', name, g''⟩, rest, rfl, hkind, hparen, hopening, hname, hclosing⟩
    · exact .inr (.name hkind hparen hopening hname hclosing hstop)
  · exact .inr (.word hkind hparen hstop)

/-! ## Nodes -/

mutual

inductive Node where
  | leaf (heading : Heading)
  | braced (heading : Heading) (outside inside : List Char) (children : Nodes)

inductive Nodes where
  | nil
  | cons (node : Node) (gap : List Char) (more : Nodes)

end

mutual

def Node.before : Node → List Char → List Char
  | .leaf h, rest => h.before rest
  | .braced h outside inside ns, rest =>
    h.before (outside ++ '{' :: (inside ++ ns.before ('}' :: rest)))

def Nodes.before : Nodes → List Char → List Char
  | .nil, rest => rest
  | .cons n gap ns, rest => n.before (gap ++ ns.before rest)

end

mutual

def Node.Fits : Node → List Char → Prop
  | .leaf h, rest => h.Fits rest
  | .braced h outside inside ns, rest =>
    h.Fits (outside ++ '{' :: (inside ++ ns.before ('}' :: rest))) ∧
      Skip outside ('{' :: (inside ++ ns.before ('}' :: rest))) ∧
      Skip inside (ns.before ('}' :: rest)) ∧ ns.Fits ('}' :: rest)

def Nodes.Fits : Nodes → List Char → Prop
  | .nil, _ => True
  | .cons n gap ns, rest =>
    n.Fits (gap ++ ns.before rest) ∧ Skip gap (ns.before rest) ∧ ns.Fits rest

end

mutual

theorem Node.before_append : ∀ (n : Node) (xs ys : List Char),
    n.before (xs ++ ys) = n.before xs ++ ys
  | .leaf h, xs, ys => h.before_append xs ys
  | .braced h outside inside ns, xs, ys => by
    have hns : ns.before ('}' :: (xs ++ ys)) = ns.before ('}' :: xs) ++ ys :=
      Nodes.before_append ns ('}' :: xs) ys
    rw [Node.before, Node.before, hns, ← h.before_append]
    simp

theorem Nodes.before_append : ∀ (ns : Nodes) (xs ys : List Char),
    ns.before (xs ++ ys) = ns.before xs ++ ys
  | .nil, _, _ => rfl
  | .cons n gap ns, xs, ys => by
    rw [Nodes.before, Nodes.before, Nodes.before_append ns, ← List.append_assoc,
      Node.before_append n]

end

theorem Node.after_before (n : Node) (p : Place) (xs ys : List Char) :
    (p.after (n.before xs)).after ys = p.after (n.before (xs ++ ys)) := by
  rw [← Place.after_append, n.before_append]

theorem Nodes.after_before (ns : Nodes) (p : Place) (xs ys : List Char) :
    (p.after (ns.before xs)).after ys = p.after (ns.before (xs ++ ys)) := by
  rw [← Place.after_append, ns.before_append]

theorem Node.length_before (n : Node) (xs ys : List Char) :
    ys.length < (n.before (xs ++ ys)).length := by
  have hpos : 0 < (n.before xs).length := by
    cases n <;> rw [Node.before, Heading.before, List.length_append, List.length_append,
      List.length_cons] <;> omega
  rw [n.before_append, List.length_append]
  omega

theorem Node.Fits.letter {n : Node} {rest : List Char} (h : n.Fits rest) :
    ∃ c cs, n.before rest = c :: cs ∧ Letter c := by
  cases n with
  | leaf => exact Heading.Fits.letter h
  | braced => exact h.1.letter

/-- Children cannot follow on `rest`. -/
def Ends (rest : List Char) : Prop := ∀ c ∈ rest.head?, c ≠ '{'

theorem ends_brace (rest : List Char) : Ends ('}' :: rest) := by
  rintro c hc rfl
  cases hc

theorem Nodes.Fits.ends {ns : Nodes} {rest : List Char} (h : ns.Fits rest) (hrest : Ends rest) :
    Ends (ns.before rest) := by
  cases ns with
  | nil => exact hrest
  | cons n gap ns =>
    obtain ⟨c, cs, hbefore, hc⟩ := h.1.letter
    rw [Nodes.before, hbefore]
    rintro d hd rfl
    cases hd
    exact hc.plain.2.2.1 rfl

mutual

theorem Node.Fits.unique : ∀ {n n' : Node} {gap gap' r r' : List Char}, n.Fits (gap ++ r) →
    Skip gap r → Ends r → n'.Fits (gap' ++ r') → Skip gap' r' → Ends r' →
      n.before (gap ++ r) = n'.before (gap' ++ r') → n = n' ∧ gap = gap' ∧ r = r'
  | .leaf h, .leaf h', gap, gap', r, r', hfit, hgap, _, hfit', hgap', _, heq => by
    obtain ⟨rfl, hrest⟩ := Heading.Fits.unique hfit hfit' heq
    obtain ⟨rfl, rfl⟩ := hgap.unique hgap' hrest
    exact ⟨rfl, rfl, rfl⟩
  | .leaf h, .braced h' outside' inside' ns', gap, gap', r, r', hfit, hgap, hends, hfit', _, _,
      heq => by
    obtain ⟨-, hrest⟩ := Heading.Fits.unique hfit hfit'.1 heq
    obtain ⟨-, rfl⟩ := hgap.unique hfit'.2.1 hrest
    exact absurd rfl (hends '{' rfl)
  | .braced h outside inside ns, .leaf h', gap, gap', r, r', hfit, _, _, hfit', hgap', hends,
      heq => by
    obtain ⟨-, hrest⟩ := Heading.Fits.unique hfit.1 hfit' heq
    obtain ⟨-, rfl⟩ := hfit.2.1.unique hgap' hrest
    exact absurd rfl (hends '{' rfl)
  | .braced h outside inside ns, .braced h' outside' inside' ns', gap, gap', r, r', hfit, hgap, _,
      hfit', hgap', _, heq => by
    obtain ⟨hhead, houtside, hinside, hns⟩ := hfit
    obtain ⟨hhead', houtside', hinside', hns'⟩ := hfit'
    obtain ⟨rfl, hrest⟩ := hhead.unique hhead' heq
    obtain ⟨rfl, hbrace⟩ := houtside.unique houtside' hrest
    obtain ⟨rfl, hchildren⟩ := hinside.unique hinside' (List.cons.inj hbrace).2
    obtain ⟨rfl, hbehind⟩ := Nodes.Fits.unique hns hns' hchildren
    obtain ⟨rfl, rfl⟩ := hgap.unique hgap' hbehind
    exact ⟨rfl, rfl, rfl⟩

theorem Nodes.Fits.unique : ∀ {ns ns' : Nodes} {r r' : List Char}, ns.Fits ('}' :: r) →
    ns'.Fits ('}' :: r') → ns.before ('}' :: r) = ns'.before ('}' :: r') → ns = ns' ∧ r = r'
  | .nil, .nil, r, r', _, _, heq => ⟨rfl, (List.cons.inj heq).2⟩
  | .nil, .cons n gap ns, r, r', _, hfit, heq => by
    obtain ⟨c, cs, hbefore, hc⟩ := hfit.1.letter
    rw [Nodes.before, Nodes.before, hbefore] at heq
    exact absurd (List.cons.inj heq).1.symm hc.plain.2.2.2
  | .cons n gap ns, .nil, r, r', hfit, _, heq => by
    obtain ⟨c, cs, hbefore, hc⟩ := hfit.1.letter
    rw [Nodes.before, Nodes.before, hbefore] at heq
    exact absurd (List.cons.inj heq).1 hc.plain.2.2.2
  | .cons n gap ns, .cons n' gap' ns', r, r', hfit, hfit', heq => by
    obtain ⟨hnode, hgap, hns⟩ := hfit
    obtain ⟨hnode', hgap', hns'⟩ := hfit'
    obtain ⟨rfl, rfl, hrest⟩ := Node.Fits.unique hnode hgap (hns.ends (ends_brace r)) hnode' hgap'
      (hns'.ends (ends_brace r')) heq
    obtain ⟨rfl, rfl⟩ := Nodes.Fits.unique hns hns' hrest
    exact ⟨rfl, rfl⟩

end

/-! ## Documents -/

structure Document where
  lead : List Char
  node : Node
  trail : List Char

namespace Document

/-- The document is a derivation of the text. -/
structure Derives (d : Document) (text : List Char) : Prop where
  text : text = d.lead ++ d.node.before d.trail
  lead : Skip d.lead (d.node.before d.trail)
  node : d.node.Fits d.trail
  trail : Skip d.trail []

theorem Derives.unique {d d' : Document} {text : List Char} (h : d.Derives text)
    (h' : d'.Derives text) : d = d' := by
  obtain ⟨lead, node, trail⟩ := d
  obtain ⟨lead', node', trail'⟩ := d'
  obtain ⟨htext, hlead, hnode, htrail⟩ := h
  obtain ⟨htext', hlead', hnode', htrail'⟩ := h'
  dsimp only at *
  obtain ⟨rfl, hrest⟩ := hlead.unique hlead' (htext.symm.trans htext')
  rw [← List.append_nil trail] at hnode hrest
  rw [← List.append_nil trail'] at hnode' hrest
  obtain ⟨rfl, rfl, -⟩ := hnode.unique htrail nofun hnode' htrail' nofun hrest
  rfl

end Document

/-! ## What a document says -/

def Heading.head (h : Heading) (p : Place) : Head :=
  ⟨String.ofList h.kind, String.ofList (Text.trim h.name), p⟩

mutual

def Node.outline : Node → Place → Outline
  | .leaf h, p => .node (h.head p) []
  | .braced h outside inside ns, p =>
    .node (h.head p) (ns.outlines (p.after (h.before (outside ++ '{' :: inside))))

def Nodes.outlines : Nodes → Place → List Outline
  | .nil, _ => []
  | .cons n gap ns, p => n.outline p :: ns.outlines (p.after (n.before gap))

end

def Document.outline (d : Document) : Outline := d.node.outline (Place.start.after d.lead)

end TreeFlow.Grammar
