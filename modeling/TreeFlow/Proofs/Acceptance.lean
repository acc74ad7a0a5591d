import TreeFlow.Proofs.Grammar
import TreeFlow.Proofs.RoundTrip

/-!
# The reader accepts its grammar

Skipped text, words and names leave the reader where its gaps say. Where nothing
is skipped, one character decides what a gap leads to. A text is accepted if and
only if it has a document, and the outline that is read is the one of the
document. Kinds are looked up in the outline, in preorder.
-/

set_option autoImplicit false

namespace TreeFlow

variable {c : Char} {o : Outline} {e : SyntaxError}

namespace Reader

open Grammar

/-! ## Classes of characters -/

theorem isNewline_iff : isNewline c = true ↔ EndsLine c := by
  simp [isNewline, EndsLine]

theorem isGap_iff : isGap c = true ↔ Blank c := by
  simp [isGap, Blank, isNewline_iff, or_assoc]

theorem isWordStart_iff : isWordStart c = true ↔ Letter c := by
  have hranges : isWordStart c = (decide ('A' ≤ c ∧ c ≤ 'Z') ||
      decide ('a' ≤ c) && decide (c ≤ 'z')) := rfl
  rw [hranges, Bool.or_eq_true, Bool.and_eq_true]
  simp only [decide_eq_true_eq]
  exact or_comm

theorem isWord_iff : isWord c = true ↔ WordChar c := by
  have hclasses : isWord c = (isWordStart c || decide ('0' ≤ c) && decide (c ≤ '9') ||
      c == '_') := rfl
  rw [hclasses, Bool.or_eq_true, Bool.or_eq_true, Bool.and_eq_true, isWordStart_iff, WordChar]
  simp only [decide_eq_true_eq, beq_iff_eq, or_assoc]

theorem isName_iff_nameChar : isName c = true ↔ NameChar c := by
  simp [isName_iff, NameChar, EndsLine]

namespace State

/-! ## Verdicts -/

def verdict (s : State) (cs : List Char) : Except SyntaxError Outline := (s.run cs).finish

theorem verdict_append (s : State) (xs ys : List Char) :
    s.verdict (xs ++ ys) = (s.run xs).verdict ys := by
  rw [verdict, run_append]
  rfl

theorem verdict_congr {s t : State} {cs : List Char} (hfinish : s.finish = t.finish)
    (hstep : ∀ c ∈ cs.head?, s.step c = t.step c) : s.verdict cs = t.verdict cs := by
  cases cs with
  | nil => exact hfinish
  | cons c cs =>
    show (s.step c).verdict cs = (t.step c).verdict cs
    rw [hstep c rfl]

theorem verdict_failed {s : State} (h : s.mode = .failed e) (cs : List Char) :
    s.verdict cs = .error e := by
  induction cs generalizing s with
  | nil => rw [verdict, run, finish, h]
  | cons c cs ih =>
    refine ih (s := s.step c) ?_
    rw [step, react, h]
    exact h

section Tokens

variable (p : Place) (fs : List Frame) (r : Option Outline) {cs rest : List Char}

theorem run_line (g : Gap) (h : ∀ c ∈ cs, ¬ EndsLine c) :
    run ⟨p, fs, r, .comment g⟩ cs = ⟨p.after cs, fs, r, .comment g⟩ := by
  have hplain : ∀ c ∈ cs, isNewline c = false := by
    intro c hc
    exact Bool.eq_false_iff.mpr (mt isNewline_iff.mp (h c hc))
  obtain ⟨p', hrun⟩ := run_comment p fs r g hplain
  have hplace := run_place ⟨p, fs, r, .comment g⟩ cs
  rw [hrun] at hplace ⊢
  rw [show p' = p.after cs from hplace]

theorem verdict_skip (g : Gap) (h : Skip cs rest) :
    verdict ⟨p, fs, r, .gap g⟩ (cs ++ rest) = verdict ⟨p.after cs, fs, r, .gap g⟩ rest := by
  induction h generalizing p with
  | done => rfl
  | @blank c s rest blank more ih =>
    have hstep : step ⟨p, fs, r, .gap g⟩ c = ⟨p.advance c, fs, r, .gap g⟩ := by
      simp [step, react, stepGap, isGap_iff.mpr blank, enter]
    show verdict (step ⟨p, fs, r, .gap g⟩ c) (s ++ rest) = _
    rw [hstep, ih]
    rfl
  | @comment line s rest longest more ih =>
    have hopen : run ⟨p, fs, r, .gap g⟩ ['/', '/'] = ⟨p.after ['/', '/'], fs, r, .comment g⟩ := rfl
    -- At the end of its line a comment is a gap again.
    have hclose : ∀ q, verdict ⟨q, fs, r, .comment g⟩ (s ++ rest) =
        verdict ⟨q, fs, r, .gap g⟩ (s ++ rest) := by
      intro q
      refine verdict_congr rfl fun c hc => ?_
      have hline : isNewline c = true :=
        isNewline_iff.mpr (Classical.not_not.mp (longest.stop c hc))
      simp [step, react, stepGap, isGap, hline, enter]
    have htext : '/' :: '/' :: (line ++ s) ++ rest = ['/', '/'] ++ (line ++ (s ++ rest)) := by simp
    rw [htext, verdict_append, hopen, verdict_append, run_line _ fs r g longest.all, hclose, ih]
    simp [Place.after, Place.after_append]

theorem verdict_word (st : Start) (h : Longest WordChar cs rest) :
    verdict ⟨p, fs, r, .word st⟩ (cs ++ rest) =
      verdict ⟨p.after cs, fs, r, .gap (.word { st with word := cs.reverse ++ st.word })⟩ rest := by
  obtain ⟨p', hrun⟩ := run_word p fs r st fun c hc => isWord_iff.mpr (h.all c hc)
  have hplace := run_place ⟨p, fs, r, .word st⟩ cs
  rw [hrun] at hplace
  obtain rfl : p' = p.after cs := hplace
  rw [verdict_append, hrun]
  refine verdict_congr rfl fun c hc => ?_
  have hword : isWord c = false := Bool.eq_false_iff.mpr (mt isWord_iff.mp (h.stop c hc))
  simp only [step, react, hword, Bool.false_eq_true, if_false, stepGap, leave]
  split_ifs <;> rfl

theorem verdict_spelling (st : Start) (text : List Char) (h : Longest NameChar cs rest) :
    verdict ⟨p, fs, r, .name st text⟩ (cs ++ rest) =
      verdict ⟨p.after cs, fs, r, .gap (.named st (cs.reverse ++ text))⟩ rest := by
  obtain ⟨p', hrun⟩ := run_name p fs r st text fun c hc => isName_iff_nameChar.mpr (h.all c hc)
  have hplace := run_place ⟨p, fs, r, .name st text⟩ cs
  rw [hrun] at hplace
  obtain rfl : p' = p.after cs := hplace
  rw [verdict_append, hrun]
  refine verdict_congr rfl fun c hc => ?_
  have hname : c = ')' ∨ isNewline c = true := by
    have hstop := h.stop c hc
    rw [NameChar, not_and_or, not_not, not_not] at hstop
    exact hstop.imp_right isNewline_iff.mpr
  rcases hname with rfl | hline
  · rfl
  · have hparen : c ≠ ')' := by
      rintro rfl
      cases hline
    simp [step, react, stepName, stepGap, isGap, hline, hparen, enter]

theorem verdict_name (st : Start) (hsolid : Solid (cs ++ rest)) (h : Longest NameChar cs rest) :
    verdict ⟨p, fs, r, .gap (.paren st)⟩ (cs ++ rest) =
      verdict ⟨p.after cs, fs, r, .gap (.named st cs.reverse)⟩ rest := by
  cases cs with
  | nil =>
    refine verdict_congr rfl fun c hc => ?_
    have hstop := h.stop c hc
    have hline : ¬ EndsLine c := fun hline => hsolid.blank c hc (.inr (.inr hline))
    rw [NameChar, not_and_or, not_not, not_not] at hstop
    obtain rfl := hstop.resolve_right hline
    rfl
  | cons c cs =>
    have hgap : isGap c = false := Bool.eq_false_iff.mpr (mt isGap_iff.mp (hsolid.blank c rfl))
    obtain ⟨hname, hcs⟩ := List.forall_mem_cons.mp h.all
    have htail : Longest NameChar cs rest := ⟨hcs, h.stop⟩
    have hspell := verdict_spelling (p.advance c) fs r st [c] htail
    rw [List.reverse_cons]
    refine Eq.trans ?_ hspell
    show verdict (step ⟨p, fs, r, .gap (.paren st)⟩ c) (cs ++ rest) = _
    by_cases hslash : c = '/'
    · -- A second solidus would open a comment. Any other character goes on with the name.
      subst hslash
      refine verdict_congr rfl fun d hd => ?_
      have hd' : d ≠ '/' := by
        rintro rfl
        obtain ⟨tail, hnext⟩ := List.head?_eq_some_iff.mp hd
        exact hsolid.comment ⟨tail, congrArg ('/' :: ·) hnext.symm⟩
      show step ⟨p.advance '/', fs, r, .slash (.paren st) p⟩ d = _
      simp [step, react, hd', stepName, enter]
    · rw [step_spell p fs r st hgap hslash hname.1]

end Tokens

/-! ## Where nothing is skipped -/

/-- The reader accepts `cs` as the rest of a text that says `o`. -/
def Accepts (s : State) (cs : List Char) (o : Outline) : Prop := s.verdict cs = .ok o

section Solid

variable {p : Place} {fs : List Frame} {r : Option Outline} {cs rest : List Char}

theorem leave_slash {s : State} {g : Gap} (hg : ∀ st, g ≠ .paren st) : s.leave g '/' = none := by
  cases g with
  | fresh => simp [leave, begin?, isWordStart]
  | leaf h => simp [leave, begin?, isWordStart]
  | word st => rfl
  | paren st => exact absurd rfl (hg st)
  | named st name => rfl

theorem verdict_leave {s u : State} {g : Gap} (hmode : s.mode = .gap g) (hsolid : Solid (c :: cs))
    (hslash : c ≠ '/') (hleave : s.leave g c = some u) :
    s.verdict (c :: cs) = verdict { u with place := s.place.advance c } cs := by
  have hgap : isGap c = false := Bool.eq_false_iff.mpr (mt isGap_iff.mp (hsolid.blank c rfl))
  show (s.step c).verdict cs = _
  rw [step_leave hmode hgap hslash hleave]

theorem verdict_stuck {s : State} {g : Gap} (hmode : s.mode = .gap g) (hg : ∀ st, g ≠ .paren st)
    (hsolid : Solid cs) (hleave : ∀ c ∈ cs.head?, s.leave g c = none)
    (hend : cs = [] → s.finishGap g = .error (s.stuck g s.place)) :
    s.verdict cs = .error (s.stuck g s.place) := by
  cases cs with
  | nil =>
    rw [verdict, run, finish, hmode]
    exact hend rfl
  | cons c cs =>
    have hgap : isGap c = false := Bool.eq_false_iff.mpr (mt isGap_iff.mp (hsolid.blank c rfl))
    show (s.step c).verdict cs = _
    by_cases hslash : c = '/'
    · -- A solidus that opens no comment is found out by the next character.
      subst hslash
      have hstep : s.step '/' = ⟨s.place.advance '/', s.frames, s.root, .slash g s.place⟩ := by
        rw [step, react, hmode]
        rfl
      rw [hstep]
      cases cs with
      | nil => rfl
      | cons d cs =>
        have hd : d ≠ '/' := by
          rintro rfl
          exact hsolid.comment ⟨cs, rfl⟩
        refine verdict_failed
          (s := step ⟨s.place.advance '/', s.frames, s.root, .slash g s.place⟩ d) ?_ cs
        cases g with
        | paren st => exact absurd rfl (hg st)
        | _ =>
          simp only [step, react, if_neg hd]
          rfl
    · refine verdict_failed ?_ cs
      have hreact : s.react c = s.enter (.failed (s.stuck g s.place)) := by
        rw [react, hmode]
        show s.stepGap g c = _
        rw [stepGap, if_neg (by rw [hgap]; exact Bool.false_ne_true), if_neg hslash, hleave c rfl]
        rfl
      rw [step, hreact]
      rfl

theorem accepts_cons {s : State} {g : Gap} (hmode : s.mode = .gap g) (hg : ∀ st, g ≠ .paren st)
    (hsolid : Solid (c :: cs)) :
    s.Accepts (c :: cs) o ↔
      ∃ u, s.leave g c = some u ∧ Accepts { u with place := s.place.advance c } cs o := by
  unfold Accepts
  cases hleave : s.leave g c with
  | none =>
    rw [verdict_stuck hmode hg hsolid (fun d hd => Option.some.inj hd ▸ hleave) nofun]
    simp
  | some u =>
    have hslash : c ≠ '/' := by
      rintro rfl
      rw [leave_slash hg] at hleave
      cases hleave
    rw [verdict_leave hmode hsolid hslash hleave]
    simp

theorem verdict_open (st : Start) : verdict ⟨p, fs, r, .gap (.word st)⟩ ('(' :: rest) =
    verdict ⟨p.advance '(', fs, r, .gap (.paren st)⟩ rest := rfl

theorem verdict_close (st : Start) (name : List Char) :
    verdict ⟨p, fs, r, .gap (.named st name)⟩ (')' :: rest) =
      verdict ⟨p.advance ')', fs, r, .gap (.leaf (st.finish name))⟩ rest := rfl

theorem verdict_heading {h : Heading} {b : Bool} {w : List Char} (hkind : h.kind = c :: w)
    (hfit : h.Fits rest) :
    verdict ⟨p.advance c, fs, r, .word ⟨[c], p, b⟩⟩ (w ++ (h.beforeParen ++ '(' :: h.inner rest)) =
      verdict ⟨p.after (h.before []), fs, r, .gap (.leaf (h.head p))⟩ rest := by
  obtain ⟨c', w', hkind', -, hword⟩ := hfit.kind
  obtain ⟨rfl, rfl⟩ := List.cons.inj (hkind.symm.trans hkind')
  have hhead : Start.finish ⟨w.reverse ++ [c], p, b⟩ h.name.reverse = h.head p := by
    simp [Start.finish, Heading.head, hkind]
  rw [verdict_word _ fs r _ hword, verdict_skip _ fs r _ hfit.paren, verdict_open, Heading.inner,
    verdict_skip _ fs r _ hfit.opening, verdict_name _ fs r _ hfit.opening.solid hfit.name,
    Heading.tail, verdict_skip _ fs r _ hfit.closing, verdict_close, hhead]
  simp [Heading.before, Heading.inner, Heading.tail, hkind, Place.after, Place.after_append]

theorem verdict_broken {b : Bool} (h : Broken (c :: cs)) :
    verdict ⟨p.advance c, fs, r, .word ⟨[c], p, b⟩⟩ cs = .error (Start.fault ⟨[c], p, b⟩) := by
  generalize htext : c :: cs = text at h
  cases h with
  | @word w g rest kind paren stop =>
    obtain ⟨c', w', rfl, -, hword⟩ := kind
    rw [List.cons_append] at htext
    obtain ⟨rfl, rfl⟩ := List.cons.inj htext
    rw [verdict_word _ fs r _ hword, verdict_skip _ fs r _ paren]
    refine Eq.trans (verdict_stuck rfl (fun _ => Gap.noConfusion) paren.solid ?_ fun _ => rfl) rfl
    exact fun d hd => if_neg (stop d hd)
  | @name w g g' name g'' rest kind paren opening longest closing stop =>
    obtain ⟨c', w', rfl, -, hword⟩ := kind
    rw [List.cons_append] at htext
    obtain ⟨rfl, rfl⟩ := List.cons.inj htext
    rw [verdict_word _ fs r _ hword, verdict_skip _ fs r _ paren, verdict_open,
      verdict_skip _ fs r _ opening, verdict_name _ fs r _ opening.solid longest,
      verdict_skip _ fs r _ closing]
    refine Eq.trans (verdict_stuck rfl (fun _ => Gap.noConfusion) closing.solid ?_ fun _ => rfl) rfl
    exact fun d hd => if_neg (stop d hd)

theorem exists_heading {b : Bool} (hc : Letter c)
    (h : Accepts ⟨p.advance c, fs, r, .word ⟨[c], p, b⟩⟩ cs o) :
    ∃ (d : Heading) (rest : List Char), c :: cs = d.before rest ∧ d.Fits rest := by
  refine (heading_or_broken hc cs).resolve_right fun hbroken => ?_
  rw [Accepts, verdict_broken hbroken] at h
  cases h

end Solid

/-! ## Nodes -/

def between (p : Place) (x : List Frame × Option Outline) : State := ⟨p, x.1, x.2, .gap .fresh⟩

/-- What may stand between two nodes, where nothing is skipped. -/
inductive Onward (p : Place) (x : List Frame × Option Outline) (o : Outline) : List Char → Prop
  | finished (complete : x.2 = some o) : Onward p x o []
  | closed {f : Frame} {fs : List Frame} {rest : List Char} (inside : x = (f :: fs, none))
      (more : Accepts (between (p.advance '}') (afterNode (.node f.head f.children.reverse) fs))
        rest o) : Onward p x o ('}' :: rest)
  | headed {h : Heading} {rest : List Char} (vacant : x.2 = none) (fits : h.Fits rest)
      (more : Accepts ⟨p.after (h.before []), x.1, none, .gap (.leaf (h.head p))⟩ rest o) :
      Onward p x o (h.before rest)

section Nodes

variable {p : Place} {fs : List Frame} {x : List Frame × Option Outline} {cs rest : List Char}

theorem Onward.ends (h : Onward p x o rest) : Ends rest := by
  cases h with
  | finished => nofun
  | closed => exact ends_brace _
  | headed _ fits =>
    obtain ⟨c, cs, hbefore, hc⟩ := fits.letter
    rw [hbefore]
    rintro d hd rfl
    cases hd
    exact hc.plain.2.2.1 rfl

theorem onward_nil : Onward p x o [] ↔ x.2 = some o := by
  refine ⟨fun h => ?_, .finished⟩
  generalize hrest : ([] : List Char) = rest at h
  cases h with
  | finished complete => exact complete
  | closed => cases hrest
  | headed _ fits =>
    obtain ⟨c, cs, hbefore, -⟩ := fits.letter
    rw [hbefore] at hrest
    cases hrest

theorem onward_brace : Onward p x o ('}' :: cs) ↔ ∃ f fs, x = (f :: fs, none) ∧
    Accepts (between (p.advance '}') (afterNode (.node f.head f.children.reverse) fs)) cs o := by
  refine ⟨fun h => ?_, fun ⟨f, fs, inside, more⟩ => .closed inside more⟩
  generalize hrest : '}' :: cs = rest at h
  cases h with
  | finished => cases hrest
  | closed inside more =>
    cases hrest
    exact ⟨_, _, inside, more⟩
  | headed _ fits =>
    obtain ⟨c, cs, hbefore, hc⟩ := fits.letter
    rw [hbefore] at hrest
    exact absurd (List.cons.inj hrest).1.symm hc.plain.2.2.2

theorem onward_letter (hc : c ≠ '}') (b : Bool) : Onward p x o (c :: cs) ↔
    x.2 = none ∧ Letter c ∧ Accepts ⟨p.advance c, x.1, none, .word ⟨[c], p, b⟩⟩ cs o := by
  constructor
  · intro h
    generalize hrest : c :: cs = rest at h
    cases h with
    | finished => cases hrest
    | closed => exact absurd (List.cons.inj hrest).1 hc
    | @headed d rest vacant fits more =>
      obtain ⟨c', w, hkind, hletter, -⟩ := fits.kind
      rw [Heading.before, hkind] at hrest
      obtain ⟨rfl, rfl⟩ := List.cons.inj hrest
      exact ⟨vacant, hletter, (verdict_heading hkind fits).trans more⟩
  · rintro ⟨vacant, hletter, more⟩
    obtain ⟨d, rest, heq, fits⟩ := exists_heading hletter more
    obtain ⟨c', w, hkind, -⟩ := fits.kind
    have htext := heq
    rw [Heading.before, hkind] at htext
    obtain ⟨rfl, rfl⟩ := List.cons.inj htext
    rw [heq]
    exact .headed vacant fits ((verdict_heading hkind fits).symm.trans more)

theorem begin?_iff {s u : State} {b : Bool} : s.begin? c b = some u ↔
    s.root = none ∧ Letter c ∧ s.enter (.word ⟨[c], s.place, b⟩) = u := by
  rw [← isWordStart_iff, begin?]
  cases s.root with
  | none => cases isWordStart c <;> simp
  | some o => simp

theorem accepts_fresh (hx : x.2 = none ∨ x.1 = []) (hsolid : Solid rest) :
    Accepts (between p x) rest o ↔ Onward p x o rest := by
  obtain ⟨fs, r⟩ := x
  cases rest with
  | nil =>
    rw [onward_nil]
    cases r with
    | none => exact ⟨nofun, nofun⟩
    | some o' => exact ⟨fun h => congrArg some (Except.ok.inj h), fun h => by cases h; rfl⟩
  | cons c cs =>
    rw [accepts_cons (g := .fresh) rfl (fun _ => Gap.noConfusion) hsolid]
    by_cases hc : c = '}'
    · subst hc
      rw [onward_brace]
      cases fs with
      | nil => simp [leave, close?, between]
      | cons f fs =>
        obtain rfl : r = none := hx.resolve_right (List.cons_ne_nil _ _)
        cases fs <;> simp [leave, close?, between, attach, afterNode, enter]
    · rw [onward_letter hc false, leave, if_neg hc]
      simp only [begin?_iff]
      constructor
      · rintro ⟨u, ⟨hroot, hletter, rfl⟩, more⟩
        obtain rfl : r = none := hroot
        exact ⟨rfl, hletter, more⟩
      · rintro ⟨hroot, hletter, more⟩
        obtain rfl : r = none := hroot
        exact ⟨_, ⟨rfl, hletter, rfl⟩, more⟩

theorem attach_vacant (p : Place) (fs : List Frame) (m : Mode) (o : Outline) :
    attach ⟨p, fs, none, m⟩ o = ⟨p, (afterNode o fs).1, (afterNode o fs).2, m⟩ := by
  cases fs <;> rfl

theorem accepts_leaf {h : Head} (hsolid : Solid rest) :
    Accepts ⟨p, fs, none, .gap (.leaf h)⟩ rest o ↔
      (∃ rest', rest = '{' :: rest' ∧
        Accepts (between (p.advance '{') (⟨h, []⟩ :: fs, none)) rest' o) ∨
      Onward p (afterNode (.node h []) fs) o rest := by
  cases rest with
  | nil =>
    rw [onward_nil]
    cases fs with
    | nil => simp [Accepts, verdict, run, finish, finishGap, afterNode]
    | cons f fs =>
      constructor
      · intro hok
        cases hok
      · rintro (⟨_, heq, -⟩ | heq) <;> cases heq
  | cons c cs =>
    rw [accepts_cons (g := .leaf h) rfl (fun _ => Gap.noConfusion) hsolid]
    by_cases hopen : c = '{'
    · subst hopen
      have hends : ¬ Onward p (afterNode (.node h []) fs) o ('{' :: cs) :=
        fun h => h.ends '{' rfl rfl
      simp [leave, between, hends]
    · by_cases hc : c = '}'
      · subst hc
        rw [onward_brace, leave, if_neg hopen, if_pos rfl]
        cases fs with
        | nil => simp [close?, attach, afterNode]
        | cons f fs => cases fs <;> simp [close?, between, attach, afterNode, enter]
      · rw [onward_letter hc true, leave, if_neg hopen, if_neg hc, attach_vacant]
        simp only [begin?_iff, List.cons.injEq, hopen, false_and, exists_false, false_or]
        constructor
        · rintro ⟨u, ⟨hroot, hletter, rfl⟩, more⟩
          refine ⟨hroot, hletter, ?_⟩
          rw [← hroot]
          exact more
        · rintro ⟨hroot, hletter, more⟩
          refine ⟨_, ⟨hroot, hletter, rfl⟩, ?_⟩
          rw [← hroot] at more
          exact more

/-- What is accepted inside braces are nodes and the closing brace. -/
def Yields (cs : List Char) : Prop :=
  ∀ p f fs o, Accepts (between p (f :: fs, none)) cs o →
    ∃ (ns : Nodes) (rest : List Char), cs = ns.before ('}' :: rest) ∧ ns.Fits ('}' :: rest) ∧
      Accepts (between (p.after (ns.before ['}']))
        (afterNode (.node f.head (f.children.reverse ++ ns.outlines p)) fs)) rest o

theorem afterNode_alone (o : Outline) (fs : List Frame) :
    (afterNode o fs).2 = none ∨ (afterNode o fs).1 = [] := by
  cases fs with
  | nil => exact .inr rfl
  | cons f fs => exact .inl rfl

theorem exists_node {h : Heading} (hfit : h.Fits rest)
    (hyields : ∀ cs, cs.length < rest.length → Solid cs → Yields cs)
    (hacc : Accepts ⟨p.after (h.before []), fs, none, .gap (.leaf (h.head p))⟩ rest o) :
    ∃ (n : Node) (gap r : List Char), h.before rest = n.before (gap ++ r) ∧ n.Fits (gap ++ r) ∧
      Skip gap r ∧ Onward (p.after (n.before gap)) (afterNode (n.outline p) fs) o r := by
  obtain ⟨gap, r, rfl, hgap⟩ := exists_skip rest
  rw [Accepts, verdict_skip _ fs none _ hgap, h.after_before, List.nil_append, ← Accepts,
    accepts_leaf hgap.solid] at hacc
  rcases hacc with ⟨r, rfl, hacc⟩ | honward
  · obtain ⟨inside, r, rfl, hinside⟩ := exists_skip r
    rw [Accepts, between, verdict_skip _ _ none _ hinside, ← between, ← Accepts] at hacc
    obtain ⟨ns, r, rfl, hns, hacc⟩ := hyields _ (by simp; omega) hinside.solid _ _ _ _ hacc
    obtain ⟨behind, r, rfl, hbehind⟩ := exists_skip r
    rw [Accepts, between, verdict_skip _ _ _ _ hbehind, ← between, ← Accepts,
      accepts_fresh (afterNode_alone _ _) hbehind.solid] at hacc
    refine ⟨.braced h gap inside ns, behind, r, rfl, ⟨hfit, hgap, hinside, hns⟩, hbehind, ?_⟩
    have hinner : ((p.after (h.before gap)).advance '{').after inside =
        p.after (h.before (gap ++ '{' :: inside)) := h.after_before p gap ('{' :: inside)
    rw [hinner, ns.after_before, h.after_before] at hacc
    rw [Node.before, Node.outline]
    simpa using hacc
  · exact ⟨.leaf h, gap, r, rfl, hfit, hgap, honward⟩

/-- The induction is on the length of the text: children and siblings stand
further behind. -/
theorem yields (cs : List Char) (hsolid : Solid cs) : Yields cs := by
  induction hn : cs.length using Nat.strongRecOn generalizing cs with
  | ind n ih =>
    subst hn
    intro p f fs o hacc
    rw [accepts_fresh (.inl rfl) hsolid] at hacc
    cases hacc with
    | finished complete => cases complete
    | @closed f' fs' rest inside more =>
      cases inside
      exact ⟨.nil, rest, rfl, trivial,
        by simpa [Nodes.outlines, Nodes.before, Place.after] using more⟩
    | @headed h rest _ fits more =>
      have hlen : rest.length < (h.before rest).length := by
        simpa [Node.before] using (Node.leaf h).length_before [] rest
      have hshort : ∀ cs, cs.length < rest.length → Solid cs → Yields cs := fun cs hcs hsolid =>
        ih cs.length (hcs.trans hlen) cs hsolid rfl
      obtain ⟨n, gap, r, heq, hn, hgap, honward⟩ := exists_node fits hshort more
      rw [heq] at ih ⊢
      have hnext := (accepts_fresh (afterNode_alone _ _) hgap.solid).mpr honward
      obtain ⟨ns, rest', rfl, hns, hacc⟩ :=
        ih r.length (n.length_before gap r) r hgap.solid rfl _ _ _ _ hnext
      refine ⟨.cons n gap ns, rest', rfl, ⟨hn, hgap, hns⟩, ?_⟩
      rw [n.after_before] at hacc
      rw [Nodes.before, Nodes.outlines]
      simpa using hacc

mutual

theorem accepts_node : ∀ {n : Node} {p : Place} {fs : List Frame} {o : Outline}
    {gap r : List Char}, Solid (n.before (gap ++ r)) → n.Fits (gap ++ r) → Skip gap r →
      Onward (p.after (n.before gap)) (afterNode (n.outline p) fs) o r →
        Accepts (between p (fs, none)) (n.before (gap ++ r)) o
  | .leaf h, p, fs, o, gap, r, hsolid, hfit, hgap, honward => by
    refine (accepts_fresh (.inl rfl) hsolid).mpr (.headed rfl hfit ?_)
    rw [Accepts, verdict_skip _ fs none _ hgap, h.after_before, List.nil_append]
    exact (accepts_leaf hgap.solid).mpr (.inr honward)
  | .braced h outside inside ns, p, fs, o, gap, r, hsolid, hfit, hgap, honward => by
    obtain ⟨hfit, houtside, hinside, hns⟩ := hfit
    refine (accepts_fresh (.inl rfl) hsolid).mpr (.headed rfl hfit ?_)
    rw [Accepts, verdict_skip _ fs none _ houtside, h.after_before, List.nil_append]
    refine (accepts_leaf houtside.solid).mpr (.inl ⟨_, rfl, ?_⟩)
    have hinner : ((p.after (h.before outside)).advance '{').after inside =
        p.after (h.before (outside ++ '{' :: inside)) := h.after_before p outside ('{' :: inside)
    rw [Accepts, between, verdict_skip _ _ none _ hinside, hinner]
    refine accepts_nodes (f := ⟨h.head p, []⟩) hinside.solid hns ?_
    rw [Accepts, between, verdict_skip _ _ _ _ hgap, ns.after_before, h.after_before]
    refine (accepts_fresh (afterNode_alone _ _) hgap.solid).mpr ?_
    rw [Node.before, Node.outline] at honward
    simpa using honward

theorem accepts_nodes : ∀ {ns : Nodes} {p : Place} {f : Frame} {fs : List Frame} {o : Outline}
    {rest : List Char}, Solid (ns.before ('}' :: rest)) → ns.Fits ('}' :: rest) →
      Accepts (between (p.after (ns.before ['}']))
        (afterNode (.node f.head (f.children.reverse ++ ns.outlines p)) fs)) rest o →
      Accepts (between p (f :: fs, none)) (ns.before ('}' :: rest)) o
  | .nil, p, f, fs, o, rest, hsolid, _, hacc => by
    refine (accepts_fresh (.inl rfl) hsolid).mpr (.closed rfl ?_)
    simpa [Nodes.outlines, Nodes.before, Place.after] using hacc
  | .cons n gap ns, p, f, fs, o, rest, hsolid, hfit, hacc => by
    obtain ⟨hn, hgap, hns⟩ := hfit
    refine accepts_node hsolid hn hgap ?_
    refine (accepts_fresh (.inl rfl) hgap.solid).mp ?_
    refine accepts_nodes (f := { f with children := n.outline p :: f.children }) hgap.solid hns ?_
    rw [Nodes.before, Nodes.outlines] at hacc
    rw [n.after_before]
    simpa using hacc

end

end Nodes

/-! ## Failures of the shape -/

theorem stuck_missing (s : State) (g : Gap) (p : Place) :
    ∃ parts, (s.stuck g p).cause = .missing parts := by
  cases g <;> exact ⟨_, rfl⟩

theorem leave_live {s u : State} {g : Gap} (h : s.leave g c = some u) (e : SyntaxError) :
    u.mode ≠ .failed e := by
  have hclose : ∀ t : State,
      t.close?.map (·.enter (.gap .fresh)) = some u → u.mode ≠ .failed e := by
    intro t ht
    obtain ⟨v, -, rfl⟩ := Option.map_eq_some_iff.mp ht
    exact Mode.noConfusion
  have hbegin : ∀ (t : State) (b : Bool), t.begin? c b = some u → u.mode ≠ .failed e := by
    intro t b ht
    obtain ⟨-, -, rfl⟩ := begin?_iff.mp ht
    exact Mode.noConfusion
  cases g with
  | fresh =>
    rw [leave] at h
    split at h
    · exact hclose s h
    · exact hbegin s false h
  | leaf l =>
    rw [leave] at h
    split at h
    · cases h
      exact Mode.noConfusion
    · split at h
      · exact hclose _ h
      · exact hbegin _ true h
  | word st | named st name =>
    rw [leave] at h
    split at h
    · cases h
      exact Mode.noConfusion
    · cases h
  | paren st =>
    rw [leave] at h
    cases h
    show (if c = ')' then _ else _) ≠ _
    split <;> exact Mode.noConfusion

theorem stepGap_failed {s : State} {g : Gap} (h : (s.stepGap g c).mode = .failed e) :
    ∃ parts, e.cause = .missing parts := by
  rw [stepGap] at h
  split at h
  · cases h
  · split at h
    · cases h
    · cases hleave : s.leave g c with
      | none =>
        rw [hleave] at h
        cases h
        exact stuck_missing s g s.place
      | some u =>
        rw [hleave] at h
        exact absurd h (leave_live hleave e)

theorem stepName_live (s : State) (st : Start) (name : List Char) (c : Char) (e : SyntaxError) :
    (s.stepName st name c).mode ≠ .failed e := by
  unfold stepName
  split
  · exact Mode.noConfusion
  · split <;> exact Mode.noConfusion

theorem react_failed {s : State} (h : (s.react c).mode = .failed e) :
    s.mode = .failed e ∨ ∃ parts, e.cause = .missing parts := by
  rw [react] at h
  cases hm : s.mode with
  | gap g =>
    rw [hm] at h
    exact .inr (stepGap_failed h)
  | slash g p =>
    rw [hm] at h
    dsimp only at h
    split at h
    · cases h
    · cases g with
      | paren st => exact absurd h (stepName_live s st ['/'] c e)
      | _ =>
        cases h
        exact .inr (stuck_missing s _ p)
  | comment g =>
    rw [hm] at h
    dsimp only at h
    split at h
    · cases h
    · rw [hm] at h
      cases h
  | word st =>
    rw [hm] at h
    dsimp only at h
    split at h
    · cases h
    · exact .inr (stepGap_failed h)
  | name st name =>
    rw [hm] at h
    exact absurd h (stepName_live s st name c e)
  | failed e' =>
    rw [hm] at h
    exact .inl (hm.symm.trans h)

theorem finish_missing {s : State}
    (hs : ∀ e, s.mode = .failed e → ∃ parts, e.cause = .missing parts) (h : s.finish = .error e) :
    ∃ parts, e.cause = .missing parts := by
  have hgap : ∀ g, s.finishGap g = .error e → ∃ parts, e.cause = .missing parts := by
    intro g hg
    unfold finishGap at hg
    split at hg
    · cases hg
    · cases hg
    · cases hg
      exact stuck_missing s _ s.place
  unfold finish at h
  split at h
  · exact hgap _ h
  · exact hgap _ h
  · cases h
    exact stuck_missing s _ _
  · cases h
    exact ⟨_, rfl⟩
  · cases h
    exact ⟨_, rfl⟩
  · rename_i hm
    cases h
    exact hs _ hm

theorem verdict_missing {s : State} {cs : List Char}
    (hs : ∀ e, s.mode = .failed e → ∃ parts, e.cause = .missing parts)
    (h : s.verdict cs = .error e) : ∃ parts, e.cause = .missing parts := by
  induction cs generalizing s with
  | nil => exact finish_missing hs h
  | cons c cs ih =>
    refine ih (s := s.step c) (fun e' he' => ?_) h
    rcases react_failed he' with hsame | hnew
    · exact hs e' hsame
    · exact hnew

end State

/-- The outlines that are read are those of documents. -/
theorem outline_iff {text : List Char} :
    outline text = .ok o ↔ ∃ d : Document, d.Derives text ∧ d.outline = o := by
  constructor
  · intro h
    obtain ⟨lead, r, rfl, hlead⟩ := exists_skip text
    have hacc : (State.between (Place.start.after lead) ([], none)).Accepts r o :=
      (State.verdict_skip .start [] none .fresh hlead).symm.trans h
    rw [State.accepts_fresh (.inl rfl) hlead.solid] at hacc
    cases hacc with
    | finished complete => cases complete
    | closed inside => cases inside
    | @headed h rest _ fits more =>
      have hshort : ∀ cs, cs.length < rest.length → Solid cs → State.Yields cs :=
        fun cs _ hsolid => State.yields cs hsolid
      obtain ⟨n, gap, r, heq, hn, hgap, honward⟩ := State.exists_node fits hshort more
      rw [heq] at hlead ⊢
      cases honward with
      | finished complete =>
        rw [List.append_nil] at hlead hn ⊢
        exact ⟨⟨lead, n, gap⟩, ⟨rfl, hlead, hn, hgap⟩, Option.some.inj complete⟩
      | closed inside => cases inside
      | headed vacant => cases vacant
  · rintro ⟨⟨lead, n, trail⟩, ⟨rfl, hlead, hn, htrail⟩, rfl⟩
    show State.verdict ⟨.start, [], none, .gap .fresh⟩ (lead ++ n.before trail) = _
    dsimp only at *
    rw [State.verdict_skip .start [] none .fresh hlead]
    rw [← List.append_nil trail] at hlead hn ⊢
    exact State.accepts_node hlead.solid hn htrail (.finished rfl)

theorem outline_missing {text : List Char} (h : outline text = .error e) :
    ∃ parts, e.cause = .missing parts :=
  State.verdict_missing (s := .initial) nofun h

end Reader

/-! ## Kinds -/

theorem Kind.ofLabel?_iff {w : String} {k : Kind} : ofLabel? w = some k ↔ k.label = w := by
  constructor
  · intro h
    have hlabel := List.find?_some (p := fun k : Kind => k.label == w) h
    exact beq_iff_eq.mp hlabel
  · rintro rfl
    exact ofLabel?_label k

def Head.Known (h : Head) : Prop := ∃ k : Kind, k.label = h.word

namespace Outline

mutual

def heads : Outline → List Head
  | .node h os => h :: headsAll os

def headsAll : List Outline → List Head
  | [] => []
  | o :: os => o.heads ++ headsAll os

end

mutual

/-- The tree has the kinds, names and places of the outline. -/
def Denotes (file : String) : Outline → Tree → Prop
  | .node h os, .node s ts =>
    s.kind.label = h.word ∧ s.name = h.name ∧ s.location = some ⟨file, h.place⟩ ∧
      DenotesAll file os ts

def DenotesAll (file : String) : List Outline → List Tree → Prop
  | [], [] => True
  | o :: os, t :: ts => Denotes file o t ∧ DenotesAll file os ts
  | [], _ :: _ => False
  | _ :: _, [] => False

end

variable {file : String}

mutual

theorem denotes_of_resolve : ∀ {o : Outline} {t : Tree}, o.resolve file = .ok t → o.Denotes file t
  | .node h os, t, ht => by
    rw [resolve] at ht
    split at ht
    · cases ht
    · rename_i k hk
      split at ht
      · rename_i ts hts
        cases ht
        exact ⟨Kind.ofLabel?_iff.mp hk, rfl, rfl, denotesAll_of_resolveAll hts⟩
      · cases ht

theorem denotesAll_of_resolveAll : ∀ {os : List Outline} {ts : List Tree},
    resolveAll file os = .ok ts → DenotesAll file os ts
  | [], ts, hts => by
    rw [resolveAll] at hts
    cases hts
    trivial
  | o :: os, ts, hts => by
    rw [resolveAll] at hts
    split at hts
    · rename_i t ht
      split at hts
      · rename_i ts' hts'
        cases hts
        exact ⟨denotes_of_resolve ht, denotesAll_of_resolveAll hts'⟩
      · cases hts
    · cases hts

end

mutual

theorem resolve_of_known : ∀ {o : Outline}, (∀ h ∈ o.heads, h.Known) → ∃ t, o.resolve file = .ok t
  | .node h os, hknown => by
    rw [heads, List.forall_mem_cons] at hknown
    obtain ⟨k, hk⟩ := hknown.1
    obtain ⟨ts, hts⟩ := resolveAll_of_known hknown.2
    exact ⟨_, by rw [resolve, Kind.ofLabel?_iff.mpr hk, hts]⟩

theorem resolveAll_of_known : ∀ {os : List Outline}, (∀ h ∈ headsAll os, h.Known) →
    ∃ ts, resolveAll file os = .ok ts
  | [], _ => ⟨[], rfl⟩
  | o :: os, hknown => by
    rw [headsAll, List.forall_mem_append] at hknown
    obtain ⟨t, ht⟩ := resolve_of_known hknown.1
    obtain ⟨ts, hts⟩ := resolveAll_of_known hknown.2
    exact ⟨t :: ts, by rw [resolveAll, ht, hts]⟩

end

mutual

theorem known_of_denotes : ∀ {o : Outline} {t : Tree}, o.Denotes file t → ∀ h ∈ o.heads, h.Known
  | .node _ _, .node s _, ht =>
    List.forall_mem_cons.mpr ⟨⟨s.kind, ht.1⟩, known_of_denotesAll ht.2.2.2⟩

theorem known_of_denotesAll : ∀ {os : List Outline} {ts : List Tree}, DenotesAll file os ts →
    ∀ h ∈ headsAll os, h.Known
  | [], _, _ => nofun
  | _ :: _, _ :: _, hts =>
    List.forall_mem_append.mpr ⟨known_of_denotes hts.1, known_of_denotesAll hts.2⟩

end

mutual

theorem resolve_of_unknown : ∀ {o : Outline} {before after : List Head} {h : Head},
    o.heads = before ++ h :: after → (∀ b ∈ before, b.Known) → ¬ h.Known →
      o.resolve file = .error ⟨.unknownKind h.word, h.place⟩
  | .node d os, [], after, h, heads, _, unknown => by
    obtain ⟨rfl, -⟩ := List.cons.inj heads
    have hnone : Kind.ofLabel? d.word = none := by
      refine Option.eq_none_iff_forall_ne_some.mpr fun k hk => ?_
      exact unknown ⟨k, Kind.ofLabel?_iff.mp hk⟩
    rw [resolve, hnone]
  | .node d os, b :: before, after, h, heads, known, unknown => by
    obtain ⟨rfl, htail⟩ := List.cons.inj heads
    obtain ⟨⟨k, hk⟩, hknown⟩ := List.forall_mem_cons.mp known
    rw [resolve, Kind.ofLabel?_iff.mpr hk, resolveAll_of_unknown htail hknown unknown]

theorem resolveAll_of_unknown : ∀ {os : List Outline} {before after : List Head} {h : Head},
    headsAll os = before ++ h :: after → (∀ b ∈ before, b.Known) → ¬ h.Known →
      resolveAll file os = .error ⟨.unknownKind h.word, h.place⟩
  | [], before, after, h, heads, _, _ => by
    cases before <;> cases heads
  | o :: os, before, after, h, heads, known, unknown => by
    rw [headsAll] at heads
    rcases List.append_eq_append_iff.mp heads with ⟨more, rfl, htail⟩ | ⟨more, hhead, htail⟩
    · -- All heads of the first outline are known.
      rw [List.forall_mem_append] at known
      have hfirst : ∃ t, o.resolve file = .ok t := resolve_of_known known.1
      obtain ⟨t, ht⟩ := hfirst
      rw [resolveAll, ht, resolveAll_of_unknown htail known.2 unknown]
    · cases more with
      | nil =>
        rw [List.append_nil] at hhead
        have hfirst : ∃ t, o.resolve file = .ok t := resolve_of_known (hhead ▸ known)
        have hnext : headsAll os = [] ++ h :: after := htail.symm
        obtain ⟨t, ht⟩ := hfirst
        rw [resolveAll, ht, resolveAll_of_unknown hnext nofun unknown]
      | cons d more =>
        obtain ⟨rfl, -⟩ := List.cons.inj htail
        rw [resolveAll, resolve_of_unknown hhead known unknown]

end

end Outline

/-! ## Reading -/

theorem Tree.read_of_outline {file text : String} (h : Reader.outline text.toList = .ok o) :
    Tree.read file text = o.resolve file := by
  rw [Tree.read, h]

/-- A text is read if and only if it has a document whose kinds are all known.
The document is the only one of the text, and the tree has its kinds, trimmed
names and places. If the document has an unknown kind, the first one in preorder
is refused where it stands. If there is no document, the shape is refused. -/
theorem Tree.read_iff_document (file text : String) :
    ((∃ t, Tree.read file text = .ok t) ↔
      ∃ d : Grammar.Document, d.Derives text.toList ∧ ∀ h ∈ d.outline.heads, h.Known) ∧
    (∀ (t : Tree) (d : Grammar.Document), Tree.read file text = .ok t → d.Derives text.toList →
      d.outline.Denotes file t) ∧
    (∀ d d' : Grammar.Document, d.Derives text.toList → d'.Derives text.toList → d = d') ∧
    (∀ (d : Grammar.Document) (before after : List Head) (h : Head), d.Derives text.toList →
      d.outline.heads = before ++ h :: after → (∀ b ∈ before, b.Known) → ¬ h.Known →
        ∃ e, Tree.read file text = .error e ∧ e.diagnostic file =
          ⟨.error, "fuc.ast.rules.build_node", "unknown node kind '" ++ h.word ++ "'",
            some ⟨file, h.place⟩⟩) ∧
    ((¬ ∃ d : Grammar.Document, d.Derives text.toList) →
      ∃ e, Tree.read file text = .error e ∧
        (e.diagnostic file).issuer = "fuc.ast.rules.parse_tree") := by
  have hread : ∀ d : Grammar.Document, d.Derives text.toList →
      Tree.read file text = d.outline.resolve file := fun d hd =>
    Tree.read_of_outline (Reader.outline_iff.mpr ⟨d, hd, rfl⟩)
  refine ⟨⟨?_, ?_⟩, ?_, fun d d' hd hd' => hd.unique hd', ?_, ?_⟩
  · rintro ⟨t, ht⟩
    cases ho : Reader.outline text.toList with
    | error e =>
      rw [Tree.read, ho] at ht
      cases ht
    | ok o =>
      obtain ⟨d, hd, rfl⟩ := Reader.outline_iff.mp ho
      rw [hread d hd] at ht
      exact ⟨d, hd, Outline.known_of_denotes (Outline.denotes_of_resolve ht)⟩
  · rintro ⟨d, hd, hknown⟩
    rw [hread d hd]
    exact Outline.resolve_of_known hknown
  · intro t d ht hd
    rw [hread d hd] at ht
    exact Outline.denotes_of_resolve ht
  · intro d before after h hd hheads hknown hunknown
    refine ⟨⟨.unknownKind h.word, h.place⟩, ?_, rfl⟩
    rw [hread d hd]
    exact Outline.resolve_of_unknown hheads hknown hunknown
  · intro hnone
    cases ho : Reader.outline text.toList with
    | ok o =>
      obtain ⟨d, hd, -⟩ := Reader.outline_iff.mp ho
      exact absurd ⟨d, hd⟩ hnone
    | error e =>
      obtain ⟨parts, hparts⟩ := Reader.outline_missing ho
      refine ⟨e, by rw [Tree.read, ho], ?_⟩
      rw [SyntaxError.diagnostic, hparts]
      rfl

theorem Tree.read_iff_document_block : ∃ d : Grammar.Document,
    d.Derives "Block( // one\n a / b ) \x7bLiteral(//\n)\x7d".toList ∧
      ∀ h ∈ d.outline.heads, h.Known :=
  (Tree.read_iff_document "in.ast" "Block( // one\n a / b ) \x7bLiteral(//\n)\x7d").1.mp
    (Lower.except_of_isOk (by decide +kernel))

end TreeFlow
