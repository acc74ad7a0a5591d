import Mathlib.Data.List.Forall2
import TreeFlow.Proofs.Acceptance

/-!
# Where nodes stand

The location of a node is the line and the column where its kind stands in the text.
A place moves on with every character, so it belongs to one point of the text, and
places in the text are in the order of the text. The heads of a document come one
behind another, each in front of its children.
-/

set_option autoImplicit false

namespace TreeFlow

/-! ## Places and points of a text -/

namespace Place

/-- On an earlier line, or further left on the same one. -/
def Before (p q : Place) : Prop := p.line < q.line ∨ p.line = q.line ∧ p.column < q.column

/-- At the place `p` of the text, `rest` is what is left of it. A line starts behind
every line feed, whether or not a carriage return stands before it. -/
def Reads (p : Place) (text rest : List Char) : Prop :=
  ∃ before, text = before ++ rest ∧ p.line = before.count '\n' + 1 ∧
    p.column = (before.reverse.takeWhile (· != '\n')).length + 1

variable {p q r : Place}

theorem Before.irrefl (p : Place) : ¬ p.Before p := by
  unfold Before
  omega

theorem Before.trans (h : p.Before q) (h' : q.Before r) : p.Before r := by
  unfold Before at *
  omega

theorem Before.trans_not (h : p.Before q) (h' : ¬ r.Before q) : p.Before r := by
  unfold Before at *
  omega

theorem before_advance (p : Place) (c : Char) : p.Before (p.advance c) := by
  unfold Before advance
  split
  · exact .inl (Nat.lt_succ_self _)
  · exact .inr ⟨rfl, Nat.lt_succ_self _⟩

theorem before_after (p : Place) {cs : List Char} (h : cs ≠ []) : p.Before (p.after cs) := by
  induction cs generalizing p with
  | nil => exact absurd rfl h
  | cons c cs ih =>
    by_cases hcs : cs = []
    · subst hcs
      exact p.before_advance c
    · exact (p.before_advance c).trans (ih _ hcs)

theorem not_after_before (p : Place) (cs : List Char) : ¬ (p.after cs).Before p := by
  intro h
  by_cases hcs : cs = []
  · subst hcs
    exact Before.irrefl p h
  · exact Before.irrefl p ((p.before_after hcs).trans h)

theorem after_start (cs : List Char) :
    (start.after cs).line = cs.count '\n' + 1 ∧
      (start.after cs).column = (cs.reverse.takeWhile (· != '\n')).length + 1 := by
  induction cs using List.reverseRecOn with
  | nil => exact ⟨rfl, rfl⟩
  | append_singleton cs c ih =>
    have hstep : start.after (cs ++ [c]) = (start.after cs).advance c := after_append _ cs [c]
    rw [hstep, advance, List.reverse_append, List.reverse_singleton, List.singleton_append]
    by_cases hc : c = '\n'
    · subst hc
      simp [ih.1]
    · simp [hc, ih.1, ih.2]

theorem reads_iff {text rest : List Char} :
    p.Reads text rest ↔ ∃ before, text = before ++ rest ∧ p = start.after before := by
  refine exists_congr fun before => and_congr_right fun _ => ?_
  obtain ⟨hline, hcolumn⟩ := after_start before
  rw [← hline, ← hcolumn]
  constructor
  · rintro ⟨hl, hc⟩
    cases p
    cases hl
    cases hc
    rfl
  · rintro rfl
    exact ⟨rfl, rfl⟩

theorem Reads.unique {text rest rest' : List Char} (h : p.Reads text rest)
    (h' : p.Reads text rest') : rest = rest' := by
  obtain ⟨before, rfl, hp⟩ := reads_iff.mp h
  obtain ⟨before', htext, hp'⟩ := reads_iff.mp h'
  have hsame : ∀ {xs ys : List Char}, start.after xs = start.after (xs ++ ys) → ys = [] := by
    intro xs ys hafter
    by_contra hys
    have hlt := (start.after xs).before_after hys
    rw [← after_append, ← hafter] at hlt
    exact Before.irrefl _ hlt
  rcases List.append_eq_append_iff.mp htext with ⟨ys, rfl, rfl⟩ | ⟨ys, rfl, rfl⟩
  · rw [hsame (hp.symm.trans hp'), List.nil_append]
  · rw [hsame (hp'.symm.trans hp), List.nil_append]

end Place

/-! ## Rising places -/

structure Rising (p q : Place) (ps : List Place) : Prop where
  bounds : ∀ x ∈ ps, ¬ x.Before p ∧ x.Before q
  pairwise : ps.Pairwise Place.Before

namespace Rising

variable {p q r : Place} {ps qs : List Place}

theorem nil (p q : Place) : Rising p q [] := ⟨nofun, .nil⟩

theorem append (h : Rising p q ps) (h' : Rising q r qs) (hpq : ¬ q.Before p) (hqr : ¬ r.Before q) :
    Rising p r (ps ++ qs) where
  bounds x hx := by
    rcases List.mem_append.mp hx with hx | hx
    · obtain ⟨hp, hq⟩ := h.bounds x hx
      exact ⟨hp, hq.trans_not hqr⟩
    · obtain ⟨hq, hr⟩ := h'.bounds x hx
      exact ⟨fun hxp => hq (hxp.trans_not hpq), hr⟩
  pairwise := by
    refine List.pairwise_append.mpr ⟨h.pairwise, h'.pairwise, fun x hx y hy => ?_⟩
    exact (h.bounds x hx).2.trans_not (h'.bounds y hy).1

theorem cons (h : Rising q r ps) (hpq : p.Before q) (hqr : ¬ r.Before q) :
    Rising p r (p :: ps) := by
  have hp : Rising p q [p] :=
    ⟨fun x hx => by
      obtain rfl := List.mem_singleton.mp hx
      exact ⟨Place.Before.irrefl x, hpq⟩, List.pairwise_singleton _ _⟩
  exact hp.append h (fun hqp => Place.Before.irrefl p (hpq.trans hqp)) hqr

end Rising

/-! ## Documents -/

namespace Grammar

theorem Heading.before_ne_nil (h : Heading) (rest : List Char) : h.before rest ≠ [] := by
  simp [Heading.before]

mutual

theorem Node.rising : ∀ (n : Node) (p : Place) (rest : List Char),
    Rising p (p.after (n.before rest)) ((n.outline p).heads.map Head.place)
  | .leaf h, p, rest => by
    have hlt := p.before_after (h.before_ne_nil rest)
    exact (Rising.nil _ _).cons hlt (Place.Before.irrefl _)
  | .braced h outside inside ns, p, rest => by
    have hchildren := Nodes.rising ns (p.after (h.before (outside ++ '{' :: inside))) ('}' :: rest)
    have hlt := p.before_after (h.before_ne_nil (outside ++ '{' :: inside))
    have hend : (p.after (h.before (outside ++ '{' :: inside))).after (ns.before ('}' :: rest)) =
        p.after ((Node.braced h outside inside ns).before rest) := by
      rw [h.after_before, Node.before, List.append_assoc, List.cons_append]
    have hrises := hchildren.cons hlt (Place.not_after_before _ _)
    rw [hend] at hrises
    exact hrises

theorem Nodes.rising : ∀ (ns : Nodes) (p : Place) (rest : List Char),
    Rising p (p.after (ns.before rest)) ((Outline.headsAll (ns.outlines p)).map Head.place)
  | .nil, p, rest => .nil _ _
  | .cons n gap ns, p, rest => by
    have hnode := Node.rising n p gap
    have hmore := Nodes.rising ns (p.after (n.before gap)) rest
    have hend : (p.after (n.before gap)).after (ns.before rest) =
        p.after ((Nodes.cons n gap ns).before rest) := by
      rw [n.after_before, Nodes.before]
    have hrises := hnode.append hmore (Place.not_after_before _ _) (Place.not_after_before _ _)
    rw [hend, ← List.map_append] at hrises
    exact hrises

end

/-- The head stands at its place, with an opening parenthesis behind its word. -/
def Stands (text : List Char) (h : Head) : Prop :=
  ∃ gap rest, h.place.Reads text (h.word.toList ++ (gap ++ '(' :: rest)) ∧ Skip gap ('(' :: rest)

theorem Heading.Fits.stands {h : Heading} {rest : List Char} (hfit : h.Fits rest)
    (before : List Char) :
    Stands (before ++ h.before rest) (h.head (Place.start.after before)) := by
  refine ⟨h.beforeParen, h.inner rest, Place.reads_iff.mpr ⟨before, ?_, rfl⟩, hfit.paren⟩
  rw [Heading.head, String.toList_ofList, Heading.before]

mutual

theorem Node.Fits.stands : ∀ {n : Node} {rest : List Char}, n.Fits rest → ∀ before : List Char,
    ∀ h ∈ (n.outline (Place.start.after before)).heads, Stands (before ++ n.before rest) h
  | .leaf h, rest, hfit, before => by
    rw [Node.outline, Outline.heads]
    exact List.forall_mem_cons.mpr ⟨Heading.Fits.stands hfit before, nofun⟩
  | .braced h outside inside ns, rest, hfit, before => by
    rw [Node.outline, Outline.heads]
    refine List.forall_mem_cons.mpr ⟨hfit.1.stands before, ?_⟩
    have hchildren := Nodes.Fits.stands hfit.2.2.2 (before ++ h.before (outside ++ '{' :: inside))
    rw [Place.after_append, List.append_assoc, ← h.before_append, List.append_assoc,
      List.cons_append] at hchildren
    exact hchildren

theorem Nodes.Fits.stands : ∀ {ns : Nodes} {rest : List Char}, ns.Fits rest →
    ∀ before : List Char, ∀ h ∈ Outline.headsAll (ns.outlines (Place.start.after before)),
      Stands (before ++ ns.before rest) h
  | .nil, _, _, _ => nofun
  | .cons n gap ns, rest, hfit, before => by
    rw [Nodes.outlines, Outline.headsAll]
    refine List.forall_mem_append.mpr ⟨Node.Fits.stands hfit.1 before, ?_⟩
    have hmore := Nodes.Fits.stands hfit.2.2 (before ++ n.before gap)
    rw [Place.after_append, List.append_assoc, ← n.before_append] at hmore
    exact hmore

end

theorem Document.Derives.stands {d : Document} {text : List Char} (h : d.Derives text) :
    ∀ head ∈ d.outline.heads, Stands text head := by
  rw [h.text]
  exact h.node.stands d.lead

end Grammar

/-! ## Trees -/

namespace Outline

variable {file : String}

def Places (file : String) (h : Head) (s : Site) : Prop :=
  s.kind.label = h.word ∧ s.location = some ⟨file, h.place⟩

mutual

theorem Denotes.sites : ∀ {o : Outline} {t : Tree}, o.Denotes file t →
    List.Forall₂ (Places file) o.heads t.sites
  | .node h os, .node s ts, ht => by
    rw [heads, Tree.sites_node]
    exact .cons ⟨ht.1, ht.2.2.1⟩ (DenotesAll.sites ht.2.2.2)

theorem DenotesAll.sites : ∀ {os : List Outline} {ts : List Tree}, DenotesAll file os ts →
    List.Forall₂ (Places file) (headsAll os) (Tree.sitesAll ts)
  | [], [], _ => .nil
  | _ :: _, _ :: _, hts => List.rel_append (Denotes.sites hts.1) (DenotesAll.sites hts.2)

end

end Outline

/-- A node of a tree that was read from a file: it has a place in this file, and at this
place the text starts with the kind of the node, then blanks and comments, as many as
there are, then an opening parenthesis. -/
structure Site.Located (file : String) (text : List Char) (p : Place) (s : Site) : Prop where
  location : s.location = some ⟨file, p⟩
  inside : ∃ rest, p.Reads text rest
  heading : ∀ rest, p.Reads text rest → ∃ gap more,
    rest = s.kind.label.toList ++ (gap ++ '(' :: more) ∧ Grammar.Skip gap ('(' :: more)

theorem Grammar.Stands.located {file : String} {text : List Char} {h : Head} {s : Site}
    (hstands : Stands text h) (hs : Outline.Places file h s) : s.Located file text h.place := by
  obtain ⟨gap, more, hreads, hskip⟩ := hstands
  refine ⟨hs.2, ⟨_, hreads⟩, fun rest hrest => ⟨gap, more, ?_, hskip⟩⟩
  rw [hs.1]
  exact hrest.unique hreads

/-- Every node of a tree that was read stands in the text where its location says, and
in preorder the locations rise strictly. -/
theorem Tree.read_located {file text : String} {t : Tree} (h : Tree.read file text = .ok t) :
    ∃ ps, List.Forall₂ (Site.Located file text.toList) ps t.sites ∧ ps.Pairwise Place.Before := by
  cases ho : Reader.outline text.toList with
  | error e =>
    rw [Tree.read, ho] at h
    cases h
  | ok o =>
    rw [Tree.read_of_outline ho] at h
    obtain ⟨d, hd, rfl⟩ := Reader.outline_iff.mp ho
    have hsites := (Outline.denotes_of_resolve h).sites
    refine ⟨d.outline.heads.map Head.place, List.forall₂_map_left_iff.mpr ?_, ?_⟩
    · refine List.Forall₂.imp ?_ ((List.forall₂_and_left _ _).mpr ⟨hd.stands, hsites⟩)
      exact fun _ _ hhead => hhead.1.located hhead.2
    · exact (d.node.rising _ []).pairwise

/-- A line that ends in two characters, a carriage return inside a line, a tab, a
character of two bytes and a comment between a kind and its parenthesis. -/
def Tree.brokenLines : String := "Block(\u00e9)\r\n\x7b //\n\tLiteral //\n(1)\r Literal(2)\x7d"

theorem Tree.brokenLines_located :
    ∃ t ps, Tree.read "in.ast" brokenLines = .ok t ∧
      t.sites.map Site.location = [some ⟨"in.ast", 1, 1⟩, some ⟨"in.ast", 3, 2⟩,
        some ⟨"in.ast", 4, 6⟩] ∧
      List.Forall₂ (Site.Located "in.ast" brokenLines.toList) ps t.sites ∧
        ps.Pairwise Place.Before := by
  obtain ⟨t, ht⟩ : ∃ t, Tree.read "in.ast" brokenLines = .ok t :=
    Lower.except_of_isOk (by decide +kernel)
  have hplaces : (Tree.read "in.ast" brokenLines).toOption.map (·.sites.map Site.location) =
      some [some ⟨"in.ast", 1, 1⟩, some ⟨"in.ast", 3, 2⟩, some ⟨"in.ast", 4, 6⟩] := by
    decide +kernel
  rw [ht] at hplaces
  obtain ⟨ps, hlocated, hrising⟩ := Tree.read_located ht
  exact ⟨t, ps, ht, Option.some.inj hplaces, hlocated, hrising⟩

end TreeFlow
