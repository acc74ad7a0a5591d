import Mathlib.Data.List.DropRight
import TreeFlow.Tree.Dump
import TreeFlow.Proofs.Heads

/-!
# Reading what was dumped

A dump reads back as the same tree, up to locations, if and only if every name
in it is clean. One direction runs the reader along the dump of a tree. For the
other, the names that a reader produces have no blanks at their ends and stay on
one line, and a name that starts like a comment is skipped together with the
rest of its line, so that another name is read in its place.
-/

set_option autoImplicit false

namespace TreeFlow

variable {s : Reader.State} {c : Char}

/-! ## Trimmed texts -/

namespace Text

variable {cs : List Char}

theorem trimLeft_cons (hc : isWhite c = false) : trimLeft (c :: cs) = c :: cs := by
  simp [trimLeft, hc]

theorem trimRight_cons (hc : isWhite c = false) : trimRight (c :: cs) = c :: trimRight cs := by
  rw [trimRight, List.reverse_cons, List.dropWhile_append]
  split
  · rename_i hnil
    simp [trimRight, List.isEmpty_iff.mp hnil, hc]
  · simp [trimRight]

theorem trim_cons (hc : isWhite c = false) : trim (c :: cs) = c :: trimRight cs := by
  rw [trim, trimLeft_cons hc, trimRight_cons hc]

theorem trimRight_trimRight (cs : List Char) : trimRight (trimRight cs) = trimRight cs := by
  simp only [trimRight, List.reverse_reverse, List.dropWhile_idempotent]

theorem trim_trim (cs : List Char) : trim (trim cs) = trim cs := by
  cases h : trimLeft cs with
  | nil =>
    have hnil : trim cs = [] := by
      rw [trim, h]
      rfl
    rw [hnil]
    rfl
  | cons c rest =>
    have hc : isWhite c = false := by
      have hhead := List.head?_dropWhile_not isWhite cs
      rw [show cs.dropWhile isWhite = c :: rest from h] at hhead
      simpa using hhead
    rw [show trim cs = c :: trimRight rest by rw [trim, h, trimRight_cons hc], trim_cons hc,
      trimRight_trimRight]

theorem mem_of_mem_trim (h : c ∈ trim cs) : c ∈ cs := by
  have hright : c ∈ trimLeft cs := by
    rw [trim, trimRight, List.mem_reverse] at h
    exact List.mem_reverse.mp ((List.dropWhile_suffix _).subset h)
  exact (List.dropWhile_suffix _).subset hright

theorem head_of_trim (h : trim (c :: cs) = c :: cs) : isWhite c = false := by
  by_contra hc
  have hlen : (trim (c :: cs)).length ≤ cs.length := by
    rw [trim, trimRight, List.length_reverse, trimLeft,
      List.dropWhile_cons_of_pos (by simpa using hc)]
    refine Nat.le_trans (List.dropWhile_suffix _).length_le ?_
    rw [List.length_reverse]
    exact (List.dropWhile_suffix _).length_le
  rw [h, List.length_cons] at hlen
  omega

end Text

/-! ## Clean names -/

/-- The name is trimmed, stays inside the parentheses and on one line, and does
not start a comment. -/
structure CleanName (name : String) : Prop where
  trimmed : Text.trim name.toList = name.toList
  inside : ∀ c ∈ name.toList, c ≠ ')' ∧ c ≠ '\n' ∧ c ≠ '\r'
  plain : ¬ ['/', '/'] <+: name.toList

namespace Tree

mutual

def strip : Tree → Tree
  | .node s ts => .node { s with location := none } (stripAll ts)

def stripAll : List Tree → List Tree
  | [] => []
  | t :: ts => t.strip :: stripAll ts

end

mutual

theorem names_strip : ∀ t : Tree, t.strip.sites.map Site.name = t.sites.map Site.name
  | .node s ts => by
    rw [strip, sites_node, sites_node, List.map_cons, List.map_cons, names_stripAll ts]

theorem names_stripAll : ∀ ts : List Tree,
    (sitesAll (stripAll ts)).map Site.name = (sitesAll ts).map Site.name
  | [] => rfl
  | t :: ts => by
    have htail := names_stripAll ts
    rw [sitesAll, sitesAll] at htail
    rw [stripAll, sitesAll, sitesAll, List.flatMap_cons, List.flatMap_cons, List.map_append,
      List.map_append, names_strip t, htail]

end

end Tree

namespace Reader

theorem isName_iff : isName c = true ↔ c ≠ ')' ∧ c ≠ '\n' ∧ c ≠ '\r' := by
  simp [isName, isNewline]

theorem isGap_white (h : Text.isWhite c = false) : isGap c = false := by
  by_contra hc
  simp only [isGap, isNewline, Bool.not_eq_false, Bool.or_eq_true, beq_iff_eq] at hc
  rcases hc with (rfl | rfl) | rfl | rfl <;> exact absurd h (by decide)

theorem cleanName_iff {name : String} :
    CleanName name ↔ Readable name ∧ ¬ ['/', '/'] <+: name.toList := by
  constructor
  · intro h
    exact ⟨⟨h.trimmed, fun c hc => isName_iff.mpr (h.inside c hc)⟩, h.plain⟩
  · rintro ⟨⟨htrim, hlegal⟩, hplain⟩
    exact ⟨htrim, fun c hc => isName_iff.mp (hlegal c hc), hplain⟩

theorem readable_spelled {text : List Char} (h : ∀ c ∈ text, isName c = true) :
    Readable (spelled text) := by
  rw [Readable, spelled, String.toList_ofList]
  refine ⟨Text.trim_trim _, fun c hc => h c ?_⟩
  exact List.mem_reverse.mp (Text.mem_of_mem_trim hc)

/-! ## All names that are read are readable -/

namespace State

structure Sane (s : State) : Prop where
  alone : s.Alone
  text : ∀ text, s.mode.phase.text? = some text → ∀ c ∈ text, isName c = true
  names : ∀ x ∈ s.names, Readable x

theorem sane_initial : initial.Sane := ⟨.inl rfl, nofun, nofun⟩

theorem Sane.turn {s t : State} (hs : s.Sane) (h : s.Turn t) (ht : t.mode.phase ≠ .failed) :
    t.Sane := by
  obtain ⟨halone, hnames⟩ := h.names hs.alone ht
  refine ⟨halone, ?_, ?_⟩
  · intro text htext
    cases h with
    | stays _ _ phase => exact hs.text text (phase ▸ htext)
    | grows more ready legal _ _ phase =>
      rw [phase] at htext
      cases htext
      intro c hc
      rcases List.mem_append.mp hc with hc | hc
      · exact legal c hc
      · exact hs.text _ ready c hc
    | starts _ _ _ _ phase =>
      rw [phase] at htext
      cases htext
      exact nofun
    | fails phase => exact absurd phase ht
    | closes _ _ _ _ phase | opens _ _ _ phase | ends _ _ _ _ _ phase =>
      rw [phase] at htext
      cases htext
  · rcases hnames with ⟨hsame, -⟩ | ⟨name, more, hready, hmore, hnew⟩
    · rw [hsame]
      exact hs.names
    · rw [hnew]
      intro x hx
      rcases List.mem_append.mp hx with hx | hx
      · exact hs.names x hx
      · obtain rfl := List.mem_singleton.mp hx
        refine readable_spelled fun c hc => ?_
        rcases List.mem_append.mp hc with hc | hc
        · exact hmore c hc
        · exact hs.text name hready c hc

theorem Sane.run (hs : s.Sane) {cs : List Char} (h : (s.run cs).mode.phase ≠ .failed) :
    (s.run cs).Sane := by
  induction cs generalizing s with
  | nil => exact hs
  | cons c cs ih =>
    refine ih (hs.turn (step_turn s c) fun hfail => ?_) h
    exact h (run_failed hfail cs)

theorem not_failed_of_finish {o : Outline} (h : s.finish = .ok o) : s.mode.phase ≠ .failed := by
  intro hfail
  cases hm : s.mode with
  | failed e =>
    rw [finish, hm] at h
    cases h
  | gap g | slash g _ | comment g => rw [hm] at hfail; cases g <;> cases hfail
  | word | name => rw [hm] at hfail; cases hfail

theorem names_of_finish {o : Outline} (hs : s.Alone) (h : s.finish = .ok o) :
    s.AtNode ∧ o.names = s.names := by
  suffices hgap : ∀ g, s.mode.phase = g.phase → s.finishGap g = .ok o →
      s.AtNode ∧ o.names = s.names by
    unfold finish at h
    split at h
    · exact hgap _ (by simp [Mode.phase, *]) h
    · exact hgap _ (by simp [Mode.phase, *]) h
    all_goals cases h
  intro g hg h
  unfold finishGap at h
  split at h
  · rename_i hroot
    cases h
    have hframes : s.frames = [] := by
      rcases hs with hs | hs
      · rw [hs] at hroot
        cases hroot
      · exact hs.1
    refine ⟨.inl hg, ?_⟩
    simp [names, placed, hroot, hframes, hg, Gap.phase, frameNames, rootNames, Phase.names]
  · rename_i l hroot hframes
    cases h
    refine ⟨.inr ⟨l, hg⟩, ?_⟩
    simp [names, placed, hroot, hframes, hg, Gap.phase, frameNames, rootNames, Phase.names,
      Outline.names, Outline.namesAll]
  · cases h

/-! ## Runs of the reader -/

section Runs

variable (p : Place) (fs : List Frame) (r : Option Outline) {cs : List Char}

theorem run_gap (g : Gap) (h : ∀ c ∈ cs, isGap c = true) :
    ∃ p', run ⟨p, fs, r, .gap g⟩ cs = ⟨p', fs, r, .gap g⟩ := by
  induction cs generalizing p with
  | nil => exact ⟨p, rfl⟩
  | cons c cs ih =>
    obtain ⟨hc, hcs⟩ := List.forall_mem_cons.mp h
    obtain ⟨p', hp'⟩ := ih (p.advance c) hcs
    refine ⟨p', ?_⟩
    rw [run, ← hp']
    simp [step, react, stepGap, hc, enter]

theorem run_word (st : Start) (h : ∀ c ∈ cs, isWord c = true) :
    ∃ p', run ⟨p, fs, r, .word st⟩ cs =
      ⟨p', fs, r, .word { st with word := cs.reverse ++ st.word }⟩ := by
  induction cs generalizing p st with
  | nil => exact ⟨p, rfl⟩
  | cons c cs ih =>
    obtain ⟨hc, hcs⟩ := List.forall_mem_cons.mp h
    obtain ⟨p', hp'⟩ := ih (p.advance c) { st with word := c :: st.word } hcs
    refine ⟨p', ?_⟩
    rw [List.reverse_cons, List.append_assoc, List.singleton_append, run, ← hp']
    simp [step, react, hc, enter]

theorem run_name (st : Start) (text : List Char) (h : ∀ c ∈ cs, isName c = true) :
    ∃ p', run ⟨p, fs, r, .name st text⟩ cs = ⟨p', fs, r, .name st (cs.reverse ++ text)⟩ := by
  induction cs generalizing p text with
  | nil => exact ⟨p, rfl⟩
  | cons c cs ih =>
    obtain ⟨hc, hcs⟩ := List.forall_mem_cons.mp h
    obtain ⟨p', hp'⟩ := ih (p.advance c) (c :: text) hcs
    refine ⟨p', ?_⟩
    rw [List.reverse_cons, List.append_assoc, List.singleton_append, run, ← hp']
    obtain ⟨hparen, hline⟩ := isName_iff.mp hc
    simp [step, react, stepName, hparen, isNewline, hline, enter]

theorem run_comment (g : Gap) (h : ∀ c ∈ cs, isNewline c = false) :
    ∃ p', run ⟨p, fs, r, .comment g⟩ cs = ⟨p', fs, r, .comment g⟩ := by
  induction cs generalizing p with
  | nil => exact ⟨p, rfl⟩
  | cons c cs ih =>
    obtain ⟨hc, hcs⟩ := List.forall_mem_cons.mp h
    obtain ⟨p', hp'⟩ := ih (p.advance c) hcs
    refine ⟨p', ?_⟩
    rw [run, ← hp']
    simp [step, react, hc]

theorem isGap_margin (level : Nat) : ∀ c ∈ Tree.margin level, isGap c = true := by
  intro c hc
  obtain rfl := List.eq_of_mem_replicate hc
  rfl

theorem label_chars (k : Kind) :
    ∃ c cs, k.label.toList = c :: cs ∧ isWordStart c = true ∧ ∀ d ∈ cs, isWord d = true := by
  cases k <;> exact ⟨_, _, rfl, rfl, List.all_eq_true.mp rfl⟩

theorem wordStart_plain (h : isWordStart c = true) :
    isGap c = false ∧ c ≠ '/' ∧ c ≠ '{' ∧ c ≠ '}' ∧ c ≠ ')' := by
  refine ⟨?_, ?_, ?_, ?_, ?_⟩
  · by_contra hc
    simp only [isGap, isNewline, Bool.not_eq_false, Bool.or_eq_true, beq_iff_eq] at hc
    rcases hc with (rfl | rfl) | rfl | rfl <;> exact absurd h (by decide)
  all_goals
    rintro rfl
    exact absurd h (by decide)

inductive Gap.Ready : Gap → Prop
  | fresh : Ready .fresh
  | leaf (h : Head) : Ready (.leaf h)

theorem Gap.Ready.atNode {g : Gap} (h : Gap.Ready g) (hs : s.mode = .gap g) : s.AtNode := by
  cases h with
  | fresh => exact .inl (by rw [hs]; rfl)
  | leaf l => exact .inr ⟨l, by rw [hs]; rfl⟩

theorem step_leave {s u : State} {g : Gap} (hmode : s.mode = .gap g) (hgap : isGap c = false)
    (hslash : c ≠ '/') (h : s.leave g c = some u) :
    s.step c = { u with place := s.place.advance c } := by
  have hreact : s.react c = u := by
    rw [react, hmode]
    show s.stepGap g c = u
    rw [stepGap, if_neg (by rw [hgap]; exact Bool.false_ne_true), if_neg hslash, h]
    rfl
  rw [step, hreact]

theorem step_stuck {g : Gap} (hmode : s.mode = .gap g) (hgap : isGap c = false) (hslash : c ≠ '/')
    (h : s.leave g c = none) :
    (s.step c).mode.phase = .failed := by
  have hreact : s.react c = s.enter (.failed (s.stuck g s.place)) := by
    rw [react, hmode]
    show s.stepGap g c = _
    rw [stepGap, if_neg (by rw [hgap]; exact Bool.false_ne_true), if_neg hslash, h]
    rfl
  rw [step, hreact]
  rfl

theorem step_spell (st : Start) {c : Char} (hgap : isGap c = false) (hslash : c ≠ '/')
    (hparen : c ≠ ')') :
    step ⟨p, fs, r, .gap (.paren st)⟩ c = ⟨p.advance c, fs, r, .name st [c]⟩ := by
  have hleave : leave ⟨p, fs, r, .gap (.paren st)⟩ (.paren st) c =
      some ⟨p, fs, r, .name st [c]⟩ := by
    rw [leave, if_neg hparen]
    rfl
  exact step_leave rfl hgap hslash hleave

theorem leave_letter {g : Gap} (hg : Gap.Ready g) (hmode : s.mode = .gap g)
    (hc : isWordStart c = true) : ∃ b, s.leave g c = s.settled.begin? c b := by
  obtain ⟨-, -, hopen, hclose, -⟩ := wordStart_plain hc
  cases hg with
  | fresh => exact ⟨false, by rw [leave, if_neg hclose, settled_of_fresh (by rw [hmode]; rfl)]⟩
  | leaf l =>
    exact ⟨true, by rw [leave, if_neg hopen, if_neg hclose, settled_of_leaf (by rw [hmode]; rfl)]⟩

theorem leave_brace {g : Gap} (hg : Gap.Ready g) (hmode : s.mode = .gap g) :
    s.leave g '}' = s.settled.close?.map (·.enter (.gap .fresh)) := by
  cases hg with
  | fresh => rw [leave, if_pos rfl, settled_of_fresh (by rw [hmode]; rfl)]
  | leaf l => rw [leave, if_neg (by decide), if_pos rfl, settled_of_leaf (by rw [hmode]; rfl)]

theorem step_letter {g : Gap} (hg : Gap.Ready g) (hmode : s.mode = .gap g)
    (hc : isWordStart c = true) :
    (∃ st, s.step c = ⟨s.place.advance c, s.settled.frames, none, .word st⟩ ∧ st.word = [c] ∧
        s.settled.root = none) ∨ (s.step c).mode.phase = .failed ∧ s.settled.root ≠ none := by
  obtain ⟨hgap, hslash, -⟩ := wordStart_plain hc
  obtain ⟨b, hleave⟩ := leave_letter hg hmode hc
  cases hroot : s.settled.root with
  | none =>
    rw [begin?, if_pos (by rw [hroot, hc]; rfl)] at hleave
    refine .inl ⟨⟨[c], s.settled.place, b⟩, ?_, rfl, rfl⟩
    rw [step_leave hmode hgap hslash hleave, ← hroot]
    rfl
  | some o =>
    rw [begin?, if_neg (by rw [hroot]; nofun)] at hleave
    exact .inr ⟨step_stuck hmode hgap hslash hleave, nofun⟩

theorem run_opening {g : Gap} (hg : Gap.Ready g) (level : Nat) (k : Kind) :
    (∃ st p', run ⟨p, fs, r, .gap g⟩ (Tree.margin level ++ (k.label.toList ++ ['('])) =
        ⟨p', (settled ⟨p, fs, r, .gap g⟩).frames, none, .gap (.paren st)⟩ ∧
          st.word.reverse = k.label.toList ∧ (settled ⟨p, fs, r, .gap g⟩).root = none) ∨
      (run ⟨p, fs, r, .gap g⟩ (Tree.margin level ++ (k.label.toList ++ ['(']))).mode.phase =
        .failed ∧ (settled ⟨p, fs, r, .gap g⟩).root ≠ none := by
  obtain ⟨c, cs, hlabel, hc, hcs⟩ := label_chars k
  obtain ⟨p₁, h₁⟩ := run_gap p fs r g (isGap_margin level)
  -- Where the head starts does not matter for what is open.
  have hsettled : (settled ⟨p₁, fs, r, .gap g⟩).frames = (settled ⟨p, fs, r, .gap g⟩).frames ∧
      (settled ⟨p₁, fs, r, .gap g⟩).root = (settled ⟨p, fs, r, .gap g⟩).root := by
    cases hg with
    | fresh => exact ⟨rfl, rfl⟩
    | leaf l => cases fs <;> exact ⟨rfl, rfl⟩
  rw [run_append, h₁, hlabel, List.cons_append, run, ← hsettled.1, ← hsettled.2]
  rcases step_letter (s := ⟨p₁, fs, r, .gap g⟩) hg rfl hc with ⟨st, h₂, hst, hroot⟩ | ⟨hfail, hroot⟩
  · obtain ⟨p₃, h₃⟩ := run_word (p₁.advance c) (settled ⟨p₁, fs, r, .gap g⟩).frames none st hcs
    refine .inl ⟨{ st with word := cs.reverse ++ st.word }, p₃.advance '(', ?_, ?_, hroot⟩
    · rw [h₂, run_append, h₃]
      rfl
    · simp [hst]
  · exact .inr ⟨run_failed hfail _, hroot⟩

theorem run_clean (st : Start) {name : String} (h : CleanName name) :
    ∃ p', run ⟨p, fs, r, .gap (.paren st)⟩ (name.toList ++ [')']) =
      ⟨p', fs, r, .gap (.leaf (st.finish name.toList.reverse))⟩ := by
  obtain ⟨⟨htrim, hlegal⟩, hplain⟩ := cleanName_iff.mp h
  -- From the second character on, the name is spelled until the parenthesis.
  have hspell : ∀ p text cs, (∀ c ∈ cs, isName c = true) →
      ∃ p', run ⟨p, fs, r, .name st text⟩ (cs ++ [')']) =
        ⟨p', fs, r, .gap (.leaf (st.finish (cs.reverse ++ text)))⟩ := by
    intro p text cs hcs
    obtain ⟨p₁, h₁⟩ := run_name p fs r st text hcs
    exact ⟨p₁.advance ')', by rw [run_append, h₁]; rfl⟩
  cases hname : name.toList with
  | nil => exact ⟨p.advance ')', rfl⟩
  | cons c cs =>
    rw [hname] at htrim hlegal hplain
    obtain ⟨hc, hcs⟩ := List.forall_mem_cons.mp hlegal
    have hgap := isGap_white (Text.head_of_trim htrim)
    have hparen := (isName_iff.mp hc).1
    by_cases hslash : c = '/'
    · subst hslash
      cases cs with
      | nil => exact ⟨(p.advance '/').advance ')', rfl⟩
      | cons d cs =>
        obtain ⟨hd, hcs⟩ := List.forall_mem_cons.mp hcs
        have hd' : d ≠ '/' := by
          rintro rfl
          exact hplain ⟨cs, rfl⟩
        obtain ⟨p', hp'⟩ := hspell ((p.advance '/').advance d) [d, '/'] cs hcs
        obtain ⟨hdparen, hdline⟩ := isName_iff.mp hd
        have hstart : run ⟨p, fs, r, .gap (.paren st)⟩ ['/', d] =
            ⟨(p.advance '/').advance d, fs, r, .name st [d, '/']⟩ := by
          simp [run, step, react, stepGap, isGap, isNewline, stepName, hd', hdparen, hdline, enter]
        refine ⟨p', ?_⟩
        rw [show '/' :: d :: cs ++ [')'] = ['/', d] ++ (cs ++ [')']) from rfl, run_append, hstart,
          hp']
        simp
    · obtain ⟨p', hp'⟩ := hspell (p.advance c) [c] cs hcs
      refine ⟨p', ?_⟩
      rw [List.reverse_cons, List.cons_append, run, step_spell p fs r st hgap hslash hparen, hp']

theorem finish_name (st : Start) {name : String} (h : CleanName name) :
    (st.finish name.toList.reverse).name = name := by
  simp only [Start.finish, List.reverse_reverse, h.trimmed, String.ofList_toList]

theorem run_odd (st : Start) {name : String} (h : Readable name) (hodd : ['/', '/'] <+: name.toList)
    {rest : List Char} (hrest : ∀ c ∈ rest, isNewline c = false) :
    ∃ p', run ⟨p, fs, r, .gap (.paren st)⟩ (name.toList ++ rest ++ ['\n']) =
      ⟨p', fs, r, .gap (.paren st)⟩ := by
  obtain ⟨cs, hcs⟩ := hodd
  have hline : ∀ c ∈ cs ++ rest, isNewline c = false := by
    intro c hc
    rcases List.mem_append.mp hc with hc | hc
    · have hname := isName_iff.mp (h.2 c (by rw [← hcs]; simp [hc]))
      simp [isNewline, hname.2]
    · exact hrest c hc
  obtain ⟨p₁, h₁⟩ := run_comment ((p.advance '/').advance '/') fs r (.paren st) hline
  refine ⟨p₁.advance '\n', ?_⟩
  have hstart : run ⟨p, fs, r, .gap (.paren st)⟩ ['/', '/'] =
      ⟨(p.advance '/').advance '/', fs, r, .comment (.paren st)⟩ := rfl
  rw [← hcs, List.append_assoc, List.append_assoc, run_append, hstart, ← List.append_assoc,
    run_append, h₁]
  rfl

end Runs

/-! ## Clean dumps -/

def Settles (s : State) (fs : List Frame) (r : Option Outline) : Prop :=
  ∃ g, Gap.Ready g ∧ s.mode = .gap g ∧ (s.root = none ∨ g = .fresh) ∧ s.settled.frames = fs ∧
    s.settled.root = r

def afterNode (o : Outline) : List Frame → List Frame × Option Outline
  | [] => ([], some o)
  | f :: fs => ({ f with children := o :: f.children } :: fs, none)

theorem settles_leaf (p : Place) (fs : List Frame) (h : Head) :
    Settles ⟨p, fs, none, .gap (.leaf h)⟩ (afterNode (.node h []) fs).1
      (afterNode (.node h []) fs).2 := by
  refine ⟨_, .leaf h, rfl, .inl rfl, ?_⟩
  cases fs <;> exact ⟨rfl, rfl⟩

theorem Settles.finish {o : Outline} (h : s.Settles [] (some o)) : s.finish = .ok o := by
  obtain ⟨g, hg, hmode, hroot, hframes, hcomplete⟩ := h
  rw [State.finish, hmode]
  cases hg with
  | fresh =>
    rw [settled_of_fresh (by rw [hmode]; rfl)] at hcomplete
    simp [finishGap, hcomplete]
  | leaf l =>
    have hnone := hroot.resolve_right nofun
    rw [settled_of_leaf (by rw [hmode]; rfl)] at hframes hcomplete
    have hnil := frames_attach.mp hframes
    rw [attach, hnil] at hcomplete
    simp only [finishGap, hnone, hnil]
    simpa using hcomplete

theorem Settles.heading {fs : List Frame} (h : s.Settles fs none) (level : Nat) {site : Site}
    (hclean : CleanName site.name) :
    ∃ p' l, s.run (Tree.margin level ++ Tree.heading site) = ⟨p', fs, none, .gap (.leaf l)⟩ ∧
      l.word = site.kind.label ∧ l.name = site.name := by
  obtain ⟨g, hg, hmode, -, rfl, hroot⟩ := h
  obtain ⟨p, fs, r, m⟩ := s
  obtain rfl : m = .gap g := hmode
  rcases run_opening p fs r hg level site.kind with ⟨st, p₁, h₁, hword, -⟩ | ⟨-, hsome⟩
  · obtain ⟨p₂, h₂⟩ := run_clean p₁ (settled ⟨p, fs, r, .gap g⟩).frames none st hclean
    refine ⟨p₂, st.finish site.name.toList.reverse, ?_, ?_, finish_name st hclean⟩
    · rw [← h₂, ← h₁, ← run_append]
      simp [Tree.heading]
    · simp [Start.finish, hword]
  · exact absurd hroot hsome

theorem Settles.close {h : Head} {os : List Outline} {fs : List Frame}
    (hs : s.Settles (⟨h, os⟩ :: fs) none) (level : Nat) :
    (s.run (Tree.margin level ++ ['}', '\n'])).Settles (afterNode (.node h os.reverse) fs).1
      (afterNode (.node h os.reverse) fs).2 := by
  obtain ⟨g, hg, hmode, -, hframes, hroot⟩ := hs
  obtain ⟨p, fs', r, m⟩ := s
  obtain rfl : m = .gap g := hmode
  obtain ⟨p₁, h₁⟩ := run_gap p fs' r g (isGap_margin level)
  rw [run_append, h₁]
  cases hg with
  | fresh =>
    obtain rfl : fs' = ⟨h, os⟩ :: fs := hframes
    obtain rfl : r = none := hroot
    cases fs <;> exact ⟨.fresh, .fresh, rfl, .inr rfl, rfl, rfl⟩
  | leaf l =>
    cases fs' with
    | nil => cases hframes
    | cons f fs' =>
      cases hframes
      obtain rfl : r = none := hroot
      cases fs <;> exact ⟨.fresh, .fresh, rfl, .inr rfl, rfl, rfl⟩

end State

end Reader

namespace Tree

open Reader Reader.State

variable {file : String}

def Rereads (file : String) (t : Tree) : Prop :=
  (∀ s ∈ t.sites, CleanName s.name) → ∀ (level : Nat) (s : State) (fs : List Reader.Frame),
    s.Settles fs none → ∃ o t', o.resolve file = .ok t' ∧ t'.strip = t.strip ∧
      (s.run (dumpChars level t)).Settles (afterNode o fs).1 (afterNode o fs).2

theorem rereads_all {ts : List Tree} (h : ∀ t ∈ ts, Rereads file t)
    (hclean : ∀ s ∈ sitesAll ts, CleanName s.name) (level : Nat) {l : Head} {os : List Outline}
    {fs : List Reader.Frame} (hs : s.Settles (⟨l, os⟩ :: fs) none) :
    ∃ os' ts', Outline.resolveAll file os' = .ok ts' ∧ stripAll ts' = stripAll ts ∧
      (s.run (dumpAll level ts)).Settles (⟨l, os'.reverse ++ os⟩ :: fs) none := by
  induction ts generalizing s os with
  | nil => exact ⟨[], [], rfl, rfl, hs⟩
  | cons t ts ih =>
    obtain ⟨hhead, htail⟩ := List.forall_mem_cons.mp h
    have hfirst : ∀ s ∈ t.sites, CleanName s.name := fun s hs => hclean s (by simp [sitesAll, hs])
    have hrest : ∀ s ∈ sitesAll ts, CleanName s.name := by
      intro s hs
      refine hclean s ?_
      rw [sitesAll, List.flatMap_cons]
      exact List.mem_append_right _ hs
    obtain ⟨o, t', ho, ht', hnext⟩ := hhead hfirst level s _ hs
    obtain ⟨os', ts', hos', hts', hlast⟩ := ih htail hrest hnext
    refine ⟨o :: os', t' :: ts', ?_, ?_, ?_⟩
    · simp [Outline.resolveAll, ho, hos']
    · rw [stripAll, stripAll, ht', hts']
    · rw [dumpAll, run_append]
      simpa using hlast

theorem rereads (file : String) (t : Tree) : Rereads file t := by
  induction t using Tree.induct with
  | node site ts ih =>
    intro hclean level s fs hs
    rw [sites_node] at hclean
    obtain ⟨hsite, hts⟩ := List.forall_mem_cons.mp hclean
    obtain ⟨p, l, hheading, hword, hname⟩ := hs.heading level hsite
    have hkind : Kind.ofLabel? l.word = some site.kind := by rw [hword, Kind.ofLabel?_label]
    cases ts with
    | nil =>
      refine ⟨.node l [], .node ⟨site.kind, l.name, some ⟨file, l.place⟩⟩ [], ?_, ?_, ?_⟩
      · simp [Outline.resolve, hkind, Outline.resolveAll]
      · simp [strip, stripAll, hname]
      · rw [dumpChars, run_append, hheading]
        exact settles_leaf _ fs l
    | cons t ts =>
      have hopen : (run ⟨p, fs, none, .gap (.leaf l)⟩ [' ', '{', '\n']).Settles (⟨l, []⟩ :: fs)
          none := ⟨.fresh, .fresh, rfl, .inl rfl, rfl, rfl⟩
      obtain ⟨os, ts', hos, hts', hinside⟩ := rereads_all ih hts (level + 1) hopen
      refine ⟨.node l os, .node ⟨site.kind, l.name, some ⟨file, l.place⟩⟩ ts', ?_, ?_, ?_⟩
      · simp [Outline.resolve, hkind, hos]
      · rw [strip, strip, hts', hname]
      · have hclose := hinside.close level
        rw [List.append_nil, List.reverse_reverse] at hclose
        rw [← hheading] at hclose
        simpa only [dumpChars, run_append, dumpAll] using hclose

theorem read_dump {t : Tree} (h : ∀ s ∈ t.sites, CleanName s.name) :
    ∃ t', Tree.read file t.dump = .ok t' ∧ t'.strip = t.strip := by
  have hinitial : initial.Settles [] none := ⟨.fresh, .fresh, rfl, .inl rfl, rfl, rfl⟩
  obtain ⟨o, t', ho, ht', hs⟩ := rereads file t h 0 initial [] hinitial
  refine ⟨t', ?_, ht'⟩
  rw [Tree.read, dump, String.toList_ofList, outline, hs.finish]
  exact ho

end Tree

/-! ## The lines of a dump -/

inductive Line where
  | head (level : Nat) (site : Site) (opens : Bool)
  | close (level : Nat)

namespace Line

def chars : Line → List Char
  | .head level site opens =>
    Tree.margin level ++ Tree.heading site ++ (if opens then [' ', '{'] else []) ++ ['\n']
  | .close level => Tree.margin level ++ ['}', '\n']

def names : Line → List String
  | .head _ site _ => [site.name]
  | .close _ => []

theorem chars_eq (l : Line) : ∃ level c cs, l.chars = Tree.margin level ++ c :: cs ∧
    Text.isWhite c = false ∧ c ≠ '/' ∧ c ≠ ')' := by
  cases l with
  | head level site opens =>
    obtain ⟨kind, name, location⟩ := site
    cases kind <;> exact ⟨level, _, _, by simp only [chars, Tree.heading, List.append_assoc]; rfl,
      by decide, by decide, by decide⟩
  | close level => exact ⟨level, '}', ['\n'], rfl, by decide, by decide, by decide⟩

end Line

namespace Tree

mutual

def lines (level : Nat) : Tree → List Line
  | .node s [] => [.head level s false]
  | .node s (t :: ts) =>
    .head level s true :: (lines (level + 1) t ++ linesAll (level + 1) ts ++ [.close level])

def linesAll (level : Nat) : List Tree → List Line
  | [] => []
  | t :: ts => lines level t ++ linesAll level ts

end

mutual

theorem dumpChars_eq : ∀ (level : Nat) (t : Tree),
    dumpChars level t = (lines level t).flatMap Line.chars
  | level, .node s [] => by simp [dumpChars, lines, Line.chars]
  | level, .node s (t :: ts) => by
    simp [dumpChars, lines, Line.chars, dumpChars_eq (level + 1) t, dumpAll_eq (level + 1) ts]

theorem dumpAll_eq : ∀ (level : Nat) (ts : List Tree),
    dumpAll level ts = (linesAll level ts).flatMap Line.chars
  | level, [] => rfl
  | level, t :: ts => by
    simp [dumpAll, linesAll, dumpChars_eq level t, dumpAll_eq level ts]

end

mutual

theorem names_lines : ∀ (level : Nat) (t : Tree),
    (lines level t).flatMap Line.names = t.sites.map Site.name
  | level, .node s [] => by simp [lines, Line.names, sites_node, sitesAll]
  | level, .node s (t :: ts) => by
    have htail := names_linesAll (level + 1) ts
    rw [sitesAll] at htail
    simp [lines, Line.names, sites_node, sitesAll, names_lines (level + 1) t, htail]

theorem names_linesAll : ∀ (level : Nat) (ts : List Tree),
    (linesAll level ts).flatMap Line.names = (sitesAll ts).map Site.name
  | level, [] => rfl
  | level, t :: ts => by
    have htail := names_linesAll level ts
    rw [sitesAll] at htail
    simp [linesAll, sitesAll, names_lines level t, htail]

end

end Tree

/-! ## Odd names -/

namespace Reader

def Odd (name : String) : Prop := ['/', '/'] <+: name.toList

namespace State

/-- Where `expected` goes on with an odd name, the reader has skipped it. -/
def Skips (expected : List String) (s : State) : Prop :=
  s.Alone ∧ (∃ st, s.mode = .gap (.paren st)) ∧ ∃ x, Odd x ∧ s.names ++ [x] <+: expected

/-- Where `expected` has an odd name, the reader spells or has read a name that
starts with another character. -/
inductive Astray (expected : List String) (s : State) : Prop
  | spelling {c : Char} {text : List Char} {x : String} (alone : s.Alone)
      (text : s.mode.phase.text? = some (text ++ [c])) (solid : Text.isWhite c = false)
      (plain : c ≠ '/') (odd : Odd x) (here : s.names ++ [x] <+: expected)
  | misread {before : List String} {x y : String} (alone : s.Alone)
      (read : before ++ [y] <+: s.names) (plain : ¬ Odd y) (odd : Odd x)
      (here : before ++ [x] <+: expected)

section Straying

variable {expected : List String} {t : State}

theorem not_odd_spelled {text : List Char} (hc : Text.isWhite c = false) (hplain : c ≠ '/') :
    ¬ Odd (spelled (text ++ [c])) := by
  rintro ⟨rest, hrest⟩
  rw [spelled, String.toList_ofList, List.reverse_append, List.reverse_singleton,
    List.singleton_append, Text.trim_cons hc] at hrest
  exact hplain (List.cons.inj hrest).1.symm

theorem Astray.alone (h : s.Astray expected) : s.Alone := by
  cases h with
  | spelling alone => exact alone
  | misread alone => exact alone

theorem Astray.turn (h : s.Astray expected) (ht : s.Turn t) (hlive : t.mode.phase ≠ .failed) :
    t.Astray expected := by
  obtain ⟨halone, hnames⟩ := ht.names h.alone hlive
  cases h with
  | @spelling c text x _ htext solid plain odd here =>
    rcases hnames with ⟨hsame, hgrows⟩ | ⟨name, more, hready, -, hnew⟩
    · obtain ⟨more, hmore⟩ := hgrows _ htext
      rw [← List.append_assoc] at hmore
      exact .spelling halone hmore solid plain odd (hsame ▸ here)
    · obtain rfl := Option.some.inj (htext.symm.trans hready)
      rw [← List.append_assoc] at hnew
      have hprefix : s.names ++ [spelled (more ++ text ++ [c])] <+: t.names :=
        ⟨[], by rw [hnew, List.append_nil]⟩
      exact .misread halone hprefix (not_odd_spelled solid plain) odd here
  | misread _ read plain odd here =>
    refine .misread halone (read.trans ?_) plain odd here
    rcases hnames with ⟨hsame, -⟩ | ⟨_, _, -, -, hnew⟩
    · exact ⟨[], by rw [hsame, List.append_nil]⟩
    · exact ⟨_, hnew.symm⟩

theorem Astray.run (h : s.Astray expected) {cs : List Char}
    (hlive : (s.run cs).mode.phase ≠ .failed) : (s.run cs).Astray expected := by
  induction cs generalizing s with
  | nil => exact h
  | cons c cs ih =>
    refine ih (h.turn (step_turn s c) fun hfail => ?_) hlive
    exact hlive (run_failed hfail cs)

theorem Skips.line (h : s.Skips expected) (l : Line)
    (hlive : (s.run l.chars).mode.phase ≠ .failed) : (s.run l.chars).Astray expected := by
  obtain ⟨halone, ⟨st, hmode⟩, x, hodd, hhere⟩ := h
  obtain ⟨p, fs, r, m⟩ := s
  obtain rfl : m = .gap (.paren st) := hmode
  obtain ⟨level, c, cs, hchars, hwhite, hslash, hparen⟩ := l.chars_eq
  obtain ⟨p₁, h₁⟩ := run_gap p fs r (.paren st) (isGap_margin level)
  have hgap := isGap_white hwhite
  rw [hchars, run_append, h₁, State.run, step_spell p₁ fs r st hgap hslash hparen] at hlive ⊢
  have hroot : r = none := halone.root nofun
  have hstray : Astray expected ⟨p₁.advance c, fs, r, .name st [c]⟩ :=
    .spelling (.inl hroot) (show _ = some ([] ++ [c]) from rfl) hwhite hslash hodd hhere
  exact hstray.run hlive

end Straying

/-! ## Lines, one after the other -/

section Lines

variable {p : Place} {fs : List Frame} {r : Option Outline} {g : Gap}

theorem chars_head (level : Nat) (site : Site) (opens : Bool) :
    Line.chars (.head level site opens) =
      Tree.margin level ++ (site.kind.label.toList ++ ['(']) ++
        (site.name.toList ++ (')' :: if opens then [' ', '{'] else []) ++ ['\n']) := by
  simp [Line.chars, Tree.heading]

theorem run_head_failed (level : Nat) (site : Site) (opens : Bool)
    (h : (run ⟨p, fs, r, .gap g⟩
      (Tree.margin level ++ (site.kind.label.toList ++ ['(']))).mode.phase = .failed) :
    (run ⟨p, fs, r, .gap g⟩ (Line.chars (.head level site opens))).mode.phase = .failed := by
  rw [chars_head, run_append]
  exact run_failed h _

theorem step_brace (hg : Gap.Ready g) (hmode : s.mode = .gap g) :
    (∃ u, s.settled.close? = some u ∧
        s.step '}' = ⟨s.place.advance '}', u.frames, u.root, .gap .fresh⟩) ∨
      (s.step '}').mode.phase = .failed := by
  have hleave := leave_brace hg hmode
  cases hclose : s.settled.close? with
  | none =>
    rw [hclose] at hleave
    exact .inr (step_stuck hmode rfl (by decide) hleave)
  | some u =>
    rw [hclose] at hleave
    exact .inl ⟨u, rfl, step_leave hmode rfl (by decide) hleave⟩

def Between (s : State) (names : List String) : Prop :=
  (∃ g, Gap.Ready g ∧ s.mode = .gap g) ∧ s.Alone ∧ s.names = names

theorem between_head (p : Place) (fs : List Frame) (l : Head) (opens : Bool) :
    (run ⟨p, fs, none, .gap (.leaf l)⟩ ((if opens then [' ', '{'] else []) ++ ['\n'])).Between
      (frameNames fs ++ [l.name]) := by
  cases opens with
  | false =>
    refine ⟨⟨.leaf l, .leaf l, rfl⟩, .inl rfl, ?_⟩
    exact congrArg (· ++ [l.name]) (List.append_nil (frameNames fs))
  | true =>
    refine ⟨⟨.fresh, .fresh, rfl⟩, .inl rfl, ?_⟩
    exact (List.append_nil _).trans (List.append_nil (frameNames fs ++ [l.name]))

theorem Between.head {names : List String} (h : s.Between names) (level : Nat) {site : Site}
    (opens : Bool) (hclean : CleanName site.name)
    (hlive : (s.run (Line.chars (.head level site opens))).mode.phase ≠ .failed) :
    (s.run (Line.chars (.head level site opens))).Between (names ++ [site.name]) := by
  obtain ⟨⟨g, hg, hmode⟩, halone, rfl⟩ := h
  have hplaced := halone.placed_settled (hg.atNode hmode)
  obtain ⟨p, fs, r, m⟩ := s
  obtain rfl : m = .gap g := hmode
  rcases run_opening p fs r hg level site.kind with ⟨st, p₁, h₁, -, hroot⟩ | ⟨hfail, -⟩
  · obtain ⟨p₂, h₂⟩ := run_clean p₁ (settled ⟨p, fs, r, .gap g⟩).frames none st hclean
    have hname := finish_name st hclean
    rw [placed, hroot, rootNames, List.append_nil] at hplaced
    have hline : run ⟨p, fs, r, .gap g⟩ (Line.chars (.head level site opens)) =
        run ⟨p₂, (settled ⟨p, fs, r, .gap g⟩).frames, none,
          .gap (.leaf (st.finish site.name.toList.reverse))⟩
          ((if opens then [' ', '{'] else []) ++ ['\n']) := by
      rw [← h₂, ← h₁, ← run_append, ← run_append, chars_head]
      simp
    have hend := between_head p₂ (settled ⟨p, fs, r, .gap g⟩).frames
      (st.finish site.name.toList.reverse) opens
    rwa [← hline, hplaced, hname] at hend
  · exact absurd (run_head_failed level site opens hfail) hlive

theorem Between.odd {names : List String} (h : s.Between names) (rest : List String) (level : Nat)
    {site : Site} (opens : Bool) (hread : Readable site.name) (hodd : Odd site.name)
    (hlive : (s.run (Line.chars (.head level site opens))).mode.phase ≠ .failed) :
    (s.run (Line.chars (.head level site opens))).Skips (names ++ site.name :: rest) := by
  obtain ⟨⟨g, hg, hmode⟩, halone, rfl⟩ := h
  have hplaced := halone.placed_settled (hg.atNode hmode)
  obtain ⟨p, fs, r, m⟩ := s
  obtain rfl : m = .gap g := hmode
  rcases run_opening p fs r hg level site.kind with ⟨st, p₁, h₁, -, hroot⟩ | ⟨hfail, -⟩
  · have hrest : ∀ c ∈ ')' :: (if opens then [' ', '{'] else []), isNewline c = false := by
      cases opens <;> simp [isNewline]
    obtain ⟨p₂, h₂⟩ := run_odd p₁ (settled ⟨p, fs, r, .gap g⟩).frames none st hread hodd hrest
    rw [placed, hroot, rootNames, List.append_nil] at hplaced
    rw [chars_head, run_append, h₁, h₂]
    refine ⟨.inl rfl, ⟨st, rfl⟩, site.name, hodd, ?_⟩
    rw [← hplaced]
    refine ⟨rest, ?_⟩
    simp [State.names, placed, rootNames, Mode.phase, Gap.phase, Phase.names]
  · exact absurd (run_head_failed level site opens hfail) hlive

theorem Between.close {names : List String} (h : s.Between names) (level : Nat)
    (hlive : (s.run (Line.chars (.close level))).mode.phase ≠ .failed) :
    (s.run (Line.chars (.close level))).Between names := by
  obtain ⟨⟨g, hg, hmode⟩, halone, rfl⟩ := h
  have hnode := hg.atNode hmode
  obtain ⟨p, fs, r, m⟩ := s
  obtain rfl : m = .gap g := hmode
  obtain ⟨p₁, h₁⟩ := run_gap p fs r g (isGap_margin level)
  rw [Line.chars, run_append, h₁, run] at hlive ⊢
  rcases step_brace (s := ⟨p₁, fs, r, .gap g⟩) hg rfl with ⟨u, hu, h₂⟩ | hfail
  · -- The place of the brace does not matter for what it closes.
    have halone₁ : Alone ⟨p₁, fs, r, .gap g⟩ := halone
    have hplaced := halone₁.placed_settled hnode
    obtain ⟨hsame, hsolo⟩ := placed_close (halone₁.root_settled hnode hu) hu
    rw [h₂]
    refine ⟨⟨_, .fresh, rfl⟩, hsolo.imp_right fun hf => ⟨hf, rfl⟩, ?_⟩
    calc _ = u.placed := List.append_nil _
      _ = _ := hsame.trans hplaced
  · exact absurd (run_failed hfail _) hlive

theorem not_failed_of_run {cs cs' : List Char} (h : (s.run (cs ++ cs')).mode.phase ≠ .failed) :
    (s.run cs).mode.phase ≠ .failed := by
  intro hfail
  rw [run_append] at h
  exact h (run_failed hfail _)

/-- The lines of a dump are read as they stand up to the first odd name. -/
theorem Between.lines {ls : List Line} {names : List String} (h : s.Between names)
    (hread : ∀ x ∈ ls.flatMap Line.names, Readable x)
    (hlive : (s.run (ls.flatMap Line.chars)).mode.phase ≠ .failed) :
    (∀ x ∈ ls.flatMap Line.names, ¬ Odd x) ∨
      (s.run (ls.flatMap Line.chars)).Skips (names ++ ls.flatMap Line.names) ∨
        (s.run (ls.flatMap Line.chars)).Astray (names ++ ls.flatMap Line.names) := by
  induction ls generalizing s names with
  | nil => exact .inl nofun
  | cons l ls ih =>
    rw [List.flatMap_cons] at hread hlive ⊢
    rw [List.flatMap_cons, run_append]
    have hfirst := not_failed_of_run hlive
    rw [run_append] at hlive
    have hrest : ∀ x ∈ ls.flatMap Line.names, Readable x := fun x hx => hread x (by simp [hx])
    cases l with
    | close level => exact ih (h.close level hfirst) hrest hlive
    | head level site opens =>
      have hname := hread site.name (by simp [Line.names])
      by_cases hodd : Odd site.name
      · have hskips := h.odd (ls.flatMap Line.names) level opens hname hodd hfirst
        refine .inr ?_
        cases ls with
        | nil => exact .inl hskips
        | cons l' ls =>
          refine .inr ?_
          rw [show (l' :: ls).flatMap Line.chars = l'.chars ++ ls.flatMap Line.chars from rfl,
            run_append] at hlive ⊢
          exact (hskips.line l' fun hfail => hlive (run_failed hfail _)).run hlive
      · have hnext := h.head level opens (cleanName_iff.mpr ⟨hname, hodd⟩) hfirst
        rcases ih hnext hrest hlive with hplain | hlost
        · refine .inl fun x hx => ?_
          rcases List.mem_cons.mp hx with rfl | hx
          · exact hodd
          · exact hplain x hx
        · rw [List.append_assoc] at hlost
          exact .inr hlost

end Lines

theorem Skips.not_finish {expected : List String} {o : Outline} (h : s.Skips expected) :
    s.finish ≠ .ok o := by
  obtain ⟨halone, ⟨st, hmode⟩, -⟩ := h
  intro hfinish
  have hnode := (names_of_finish halone hfinish).1
  exact hnode.no_text [] (by rw [hmode]; rfl)

theorem Astray.not_finish {expected : List String} {o : Outline} (h : s.Astray expected)
    (hfinish : s.finish = .ok o) : o.names ≠ expected := by
  obtain ⟨hnode, hnames⟩ := names_of_finish h.alone hfinish
  cases h with
  | spelling _ text => exact absurd text (hnode.no_text _)
  | @misread before x y _ read plain odd here =>
    rintro rfl
    rw [hnames] at here
    have hsame := (List.prefix_of_prefix_length_le read here (by simp)).eq_of_length (by simp)
    obtain rfl : y = x := by simpa using hsame
    exact plain odd

end State

end Reader

namespace Tree

open Reader Reader.State

/-- Reading the dump of a tree gives the tree back, up to locations, if and only
if all its names are clean. -/
theorem read_dump_iff (file : String) (t : Tree) :
    (∃ t', Tree.read file t.dump = .ok t' ∧ t'.strip = t.strip) ↔
      ∀ s ∈ t.sites, CleanName s.name := by
  constructor
  · rintro ⟨t', hread, hsame⟩
    rw [Tree.read, dump, String.toList_ofList, dumpChars_eq] at hread
    split at hread
    · rename_i o ho
      have hlive := not_failed_of_finish ho
      have hsane := sane_initial.run hlive
      have hnames : o.names = (lines 0 t).flatMap Line.names := by
        rw [← Outline.names_of_resolve hread, ← names_strip, hsame, names_strip, names_lines]
      have hreadable : ∀ x ∈ (lines 0 t).flatMap Line.names, Readable x := by
        rw [← hnames, (names_of_finish hsane.alone ho).2]
        exact hsane.names
      have hstart : initial.Between [] := ⟨⟨.fresh, .fresh, rfl⟩, .inl rfl, rfl⟩
      rcases hstart.lines hreadable hlive with hplain | hskips | hstray
      · intro s hs
        have hmem : s.name ∈ (lines 0 t).flatMap Line.names := by
          rw [names_lines]
          exact List.mem_map_of_mem hs
        exact cleanName_iff.mpr ⟨hreadable _ hmem, hplain _ hmem⟩
      · exact absurd ho hskips.not_finish
      · exact absurd hnames (hstray.not_finish ho)
    · cases hread
  · exact read_dump

end Tree

end TreeFlow
