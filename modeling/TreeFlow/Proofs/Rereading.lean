import TreeFlow.Proofs.Acceptance

/-!
# Dumping what was read

Names that were read are trimmed and stay on one line, so a tree that was read
comes back from its dump unless one of its names starts like a comment. Such a
name can be read: white space that is no blank of the grammar keeps a comment
from being skipped and is trimmed from the name afterwards. In a text whose white
space is all blanks no name starts like a comment.
-/

set_option autoImplicit false

namespace TreeFlow

/-! ## Names in a text -/

theorem Text.trimRight_isPrefix (cs : List Char) : trimRight cs <+: cs := by
  have hsuffix : cs.reverse.dropWhile isWhite <:+ cs.reverse := List.dropWhile_suffix _
  simpa [trimRight] using List.reverse_prefix.mpr hsuffix

namespace Grammar

open Reader

/-- White space of the text is skipped where it may be. -/
def Plain (text : List Char) : Prop := ∀ c ∈ text, Text.isWhite c = true → Blank c

theorem Plain.suffix {text rest : List Char} (h : Plain text) (hrest : rest <:+ text) :
    Plain rest := fun c hc => h c (hrest.subset hc)

theorem Heading.suffix_before (h : Heading) (rest : List Char) : rest <:+ h.before rest :=
  ⟨h.before [], (h.before_append [] rest).symm⟩

theorem Node.suffix_before (n : Node) (rest : List Char) : rest <:+ n.before rest :=
  ⟨n.before [], (n.before_append [] rest).symm⟩

theorem Heading.plain_name {h : Heading} {rest : List Char} (hplain : Plain (h.before rest)) :
    Plain h.name := fun c hc => hplain c (by simp [before, inner, hc])

theorem Heading.Fits.not_odd {h : Heading} {rest : List Char} (hfit : h.Fits rest)
    (hplain : Plain h.name) : ¬ Reader.Odd (String.ofList (Text.trim h.name)) := by
  rw [Reader.Odd, String.toList_ofList]
  have hsolid := hfit.opening.solid
  cases hname : h.name with
  | nil => exact fun hodd => by cases List.prefix_nil.mp hodd
  | cons c cs =>
    rw [hname] at hsolid hplain
    have hwhite : Text.isWhite c = false := by
      refine Bool.eq_false_iff.mpr fun hc => ?_
      exact hsolid.blank c rfl (hplain c List.mem_cons_self hc)
    rw [Text.trim_cons hwhite]
    intro hodd
    obtain ⟨rfl, hslash⟩ := List.cons_prefix_cons.mp hodd
    refine hsolid.comment (List.cons_prefix_cons.mpr ⟨rfl, ?_⟩)
    exact (hslash.trans (Text.trimRight_isPrefix cs)).trans (List.prefix_append cs _)

mutual

theorem Node.Fits.not_odd : ∀ {n : Node} {rest : List Char} (p : Place), n.Fits rest →
    Plain (n.before rest) → ∀ x ∈ (n.outline p).names, ¬ Reader.Odd x
  | .leaf h, rest, p, hfit, hplain, x, hx => by
    obtain rfl : x = String.ofList (Text.trim h.name) := by
      simpa [Node.outline, Outline.names, Outline.namesAll, Heading.head] using hx
    exact Heading.Fits.not_odd hfit (Heading.plain_name hplain)
  | .braced h outside inside ns, rest, p, hfit, hplain, x, hx => by
    rw [Node.outline, Outline.names] at hx
    rcases List.mem_cons.mp hx with rfl | hx
    · exact hfit.1.not_odd (Heading.plain_name hplain)
    · refine Nodes.Fits.not_odd _ hfit.2.2.2 (hplain.suffix ?_) x hx
      have hinside : ns.before ('}' :: rest) <:+ '{' :: (inside ++ ns.before ('}' :: rest)) :=
        (List.suffix_append inside _).trans (List.suffix_cons _ _)
      exact (hinside.trans (List.suffix_append outside _)).trans (h.suffix_before _)

theorem Nodes.Fits.not_odd : ∀ {ns : Nodes} {rest : List Char} (p : Place), ns.Fits rest →
    Plain (ns.before rest) → ∀ x ∈ Outline.namesAll (ns.outlines p), ¬ Reader.Odd x
  | .nil, rest, p, _, _, x, hx => by cases hx
  | .cons n gap ns, rest, p, hfit, hplain, x, hx => by
    rw [Nodes.outlines, Outline.namesAll] at hx
    rcases List.mem_append.mp hx with hx | hx
    · exact Node.Fits.not_odd p hfit.1 hplain x hx
    · refine Nodes.Fits.not_odd _ hfit.2.2 (hplain.suffix ?_) x hx
      exact (List.suffix_append gap _).trans (n.suffix_before _)

end

end Grammar

namespace Tree

open Reader Reader.State

/-! ## Trees that were read -/

mutual

theorem dumpChars_strip : ∀ (level : Nat) (t : Tree), dumpChars level t.strip = dumpChars level t
  | level, .node s [] => rfl
  | level, .node s (t :: ts) => by
    have hfirst := dumpChars_strip (level + 1) t
    have hmore := dumpAll_strip (level + 1) ts
    rw [strip, stripAll, dumpChars, dumpChars, hfirst, hmore]
    rfl

theorem dumpAll_strip :
    ∀ (level : Nat) (ts : List Tree), dumpAll level (stripAll ts) = dumpAll level ts
  | level, [] => rfl
  | level, t :: ts => by
    rw [stripAll, dumpAll, dumpAll, dumpChars_strip level t, dumpAll_strip level ts]

end

theorem dump_eq_of_strip {t t' : Tree} (h : t'.strip = t.strip) : t'.dump = t.dump := by
  rw [dump, dump, ← dumpChars_strip 0 t', h, dumpChars_strip]

variable {file text : String} {t : Tree}

theorem outline_of_read (h : Tree.read file text = .ok t) :
    ∃ o, outline text.toList = .ok o ∧ t.sites.map Site.name = o.names := by
  rw [Tree.read] at h
  split at h
  · rename_i o ho
    exact ⟨o, ho, Outline.names_of_resolve h⟩
  · cases h

theorem readable_of_read (h : Tree.read file text = .ok t) : ∀ s ∈ t.sites, Readable s.name := by
  obtain ⟨o, ho, hnames⟩ := outline_of_read h
  have hsane := sane_initial.run (not_failed_of_finish ho)
  intro s hs
  refine hsane.names s.name ?_
  rw [← (names_of_finish hsane.alone ho).2, ← hnames]
  exact List.mem_map_of_mem hs

theorem not_odd_of_reread {t' : Tree} (hreadable : ∀ s ∈ t.sites, Readable s.name)
    (hread : Tree.read file t.dump = .ok t') (hsame : t'.strip = t.strip) :
    ∀ s ∈ t.sites, ¬ Reader.Odd s.name := by
  obtain ⟨o, ho, hnames⟩ := outline_of_read hread
  rw [dump, String.toList_ofList, dumpChars_eq] at ho
  rw [← names_strip, hsame, names_strip, ← names_lines 0] at hnames
  have hlines : ∀ x ∈ (lines 0 t).flatMap Line.names, Readable x := by
    rw [names_lines]
    exact List.forall_mem_map.mpr hreadable
  have hstart : initial.Between [] := ⟨⟨.fresh, .fresh, rfl⟩, .inl rfl, rfl⟩
  rcases hstart.lines hlines (not_failed_of_finish ho) with hplain | hskips | hstray
  · intro s hs
    refine hplain s.name ?_
    rw [names_lines]
    exact List.mem_map_of_mem hs
  · exact absurd ho hskips.not_finish
  · exact absurd hnames.symm (hstray.not_finish ho)

theorem not_odd_of_plain (h : Tree.read file text = .ok t) (hplain : Grammar.Plain text.toList) :
    ∀ s ∈ t.sites, ¬ Reader.Odd s.name := by
  obtain ⟨o, ho, hnames⟩ := outline_of_read h
  obtain ⟨d, hd, rfl⟩ := outline_iff.mp ho
  rw [hd.text] at hplain
  have hodd := hd.node.not_odd (Place.start.after d.lead) (hplain.suffix (List.suffix_append _ _))
  intro s hs
  refine hodd s.name ?_
  rw [← Grammar.Document.outline, ← hnames]
  exact List.mem_map_of_mem hs

/-- A tree that was read comes back from its dump, with the same dump, if and
only if none of its names starts like a comment. This is so whenever the white
space of the text is all blanks. -/
theorem reread_iff (h : Tree.read file text = .ok t) (again : String) :
    ((∃ t', Tree.read again t.dump = .ok t' ∧ t'.strip = t.strip ∧ t'.dump = t.dump) ↔
      ∀ s ∈ t.sites, ¬ ['/', '/'] <+: s.name.toList) ∧
    ((∀ c ∈ text.toList, Text.isWhite c = true → Grammar.Blank c) →
      ∃ t', Tree.read again t.dump = .ok t' ∧ t'.strip = t.strip ∧ t'.dump = t.dump) := by
  have hreadable := readable_of_read h
  have hback : (∀ s ∈ t.sites, ¬ Reader.Odd s.name) →
      ∃ t', Tree.read again t.dump = .ok t' ∧ t'.strip = t.strip ∧ t'.dump = t.dump := by
    intro hodd
    have hclean : ∀ s ∈ t.sites, CleanName s.name := fun s hs =>
      cleanName_iff.mpr ⟨hreadable s hs, hodd s hs⟩
    have hread : ∃ t', Tree.read again t.dump = .ok t' ∧ t'.strip = t.strip := read_dump hclean
    obtain ⟨t', hread, hsame⟩ := hread
    exact ⟨t', hread, hsame, dump_eq_of_strip hsame⟩
  refine ⟨⟨?_, hback⟩, fun hplain => hback (not_odd_of_plain h hplain)⟩
  rintro ⟨t', hread, hsame, -⟩
  exact not_odd_of_reread hreadable hread hsame

theorem reread_block :
    ∃ t, Tree.read "in.ast" "Block( // one\n a / b ) \x7bLiteral(//\n/)\x7d" = .ok t ∧
      ∃ t', Tree.read "in.ast" t.dump = .ok t' ∧ t'.strip = t.strip ∧ t'.dump = t.dump := by
  have hread : ∃ t, Tree.read "in.ast" "Block( // one\n a / b ) \x7bLiteral(//\n/)\x7d" = .ok t :=
    Lower.except_of_isOk (by decide +kernel)
  have hblank : ("Block( // one\n a / b ) \x7bLiteral(//\n/)\x7d".toList.all
      fun c => !Text.isWhite c || isGap c) = true := by decide +kernel
  obtain ⟨t, ht⟩ := hread
  refine ⟨t, ht, (reread_iff ht "in.ast").2 fun c hc hwhite => ?_⟩
  have hgap := List.all_eq_true.mp hblank c hc
  rw [hwhite, Bool.not_true, Bool.false_or] at hgap
  exact isGap_iff.mp hgap

/-- A vertical tab keeps the comment from being skipped and is trimmed from the
name. -/
theorem reread_fails : ∃ t, Tree.read "in.ast" "Program(\x0b//x)" = .ok t ∧
    t.dump = "Program(//x)\n" ∧ ¬ ∃ t', Tree.read "in.ast" t.dump = .ok t' := by
  have hdump :
      (Tree.read "in.ast" "Program(\x0b//x)").toOption.map dump = some "Program(//x)\n" := by
    decide +kernel
  have hback : (Tree.read "in.ast" "Program(//x)\n").isOk = false := by decide +kernel
  cases hread : Tree.read "in.ast" "Program(\x0b//x)" with
  | error e =>
    rw [hread] at hdump
    cases hdump
  | ok t =>
    rw [hread] at hdump
    have ht : t.dump = "Program(//x)\n" := Option.some.inj hdump
    refine ⟨t, rfl, ht, ?_⟩
    rintro ⟨t', ht'⟩
    rw [← ht, ht'] at hback
    cases hback

end Tree

end TreeFlow
