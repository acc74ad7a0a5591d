import TreeFlow.Proofs.Acceptance
import TreeFlow.Proofs.ParsingExpressions

/-!
# The rules of a dump

A dump is a node between the start and the end of a text. A node has a kind, a name in
parentheses and maybe children, which stand in braces. Kinds and names are atomic. Their
characters, and what is skipped around them, are the longest stretches of the classes in
`Grammar`.
-/

set_option autoImplicit false

namespace TreeFlow.Reader

open Grammar Peg

inductive Rule where
  | whitespace
  | comment
  | tree
  | node
  | kind
  | name
  | children
  | endOfInput
  deriving DecidableEq, Repr

namespace Rule

def newline : Expr Rule := .alt (.text ['\n']) (.alt (.text ['\r', '\n']) (.text ['\r']))

def asciiAlpha : Expr Rule := .alt (.range 'a' 'z') (.range 'A' 'Z')

def asciiAlphanumeric : Expr Rule := .alt asciiAlpha (.range '0' '9')

def body : Rule → Expr Rule
  | whitespace => .alt (.text [' ']) (.alt (.text ['\t']) newline)
  | comment => .seq (.text ['/', '/']) (.star (.seq (.not newline) .any))
  | tree => .seq .start (.seq (.call node) (.call endOfInput))
  | node => .seq (.call kind) (.seq (.text ['(']) (.seq (.call name) (.seq (.text [')'])
      (.opt (.call children)))))
  | kind => .seq asciiAlpha (.star (.alt asciiAlphanumeric (.text ['_'])))
  | name => .star (.seq (.not (.alt (.text [')']) newline)) .any)
  | children => .seq (.text ['{']) (.seq (.star (.call node)) (.text ['}']))
  | endOfInput => .finish

def modifier : Rule → Modifier
  | whitespace | comment => .silent
  | kind | name => .atomic
  | tree | node | children | endOfInput => .normal

end Rule

def dumps : Peg.Grammar Rule := ⟨Rule.modifier, Rule.body, .whitespace, .comment⟩

/-! ## Tokens -/

section Tokens

variable {e e' : Expr Rule} {xs ys cs rest : List Char} {P Q : Char → Prop}

def Eats (e : Expr Rule) (xs rest : List Char) : Prop :=
  ∀ read τ, Runs dumps true e ⟨read, xs ++ rest⟩ τ (.ok [] ⟨read ++ xs, rest⟩ τ)

def Misses (e : Expr Rule) (cs : List Char) : Prop :=
  ∀ read τ, Runs dumps true e ⟨read, cs⟩ τ (.fail τ)

theorem runs_tight (c : Position) (τ : Tries Rule) :
    Runs dumps true (dumps.gap true) c τ (.ok [] c τ) := by
  have h : Runs dumps true (.text []) c τ (.ok [] ⟨c.read ++ [], c.rest⟩ τ) := .text rfl
  rwa [List.append_nil] at h

theorem Eats.seq (h : Eats e xs (ys ++ rest)) (h' : Eats e' ys rest) :
    Eats (.seq e e') (xs ++ ys) rest := by
  intro read τ
  rw [List.append_assoc, ← List.append_assoc read]
  exact .seq (h read τ) (runs_tight _ τ) (h' (read ++ xs) τ)

theorem Eats.call (r : Rule) (h : Eats r.body xs rest) : Eats (.call r) xs rest :=
  fun read τ => .quiet rfl (h read τ)

theorem Misses.call (r : Rule) (h : Misses r.body cs) : Misses (.call r) cs :=
  fun read τ => .quiet rfl (h read τ)

theorem Misses.seq (h : Misses e cs) : Misses (.seq e e') cs := fun read τ => .noFirst (h read τ)

/-- The expression matches if and only if there is a character of a class, and then it
matches this one and maybe more of them. -/
structure Takes (P : Char → Prop) (e : Expr Rule) : Prop where
  hit : ∀ {c} cs, P c → ∃ xs rest, cs = xs ++ rest ∧ (∀ x ∈ xs, P x) ∧ Eats e (c :: xs) rest
  miss : ∀ {cs}, (∀ c ∈ cs.head?, ¬ P c) → Misses e cs

theorem takes_text (c : Char) : Takes (· = c) (.text [c]) where
  hit := by
    rintro _ cs rfl
    exact ⟨[], cs, rfl, by simp, fun read τ => .text rfl⟩
  miss h read τ := by
    refine .noText fun hpre => ?_
    obtain ⟨rest, rfl⟩ := hpre
    exact h c rfl rfl

theorem takes_range (low high : Char) : Takes (fun c => low ≤ c ∧ c ≤ high) (.range low high) where
  hit {c} cs hc := ⟨[], cs, rfl, by simp, fun read τ => .range rfl hc⟩
  miss h read τ := .noRange h

theorem Takes.alt (h : Takes P e) (h' : Takes Q e') : Takes (fun c => P c ∨ Q c) (.alt e e') where
  hit {c} cs hc := by
    by_cases hP : P c
    · obtain ⟨xs, rest, rfl, hxs, heats⟩ := h.hit cs hP
      exact ⟨xs, rest, rfl, fun x hx => .inl (hxs x hx), fun read τ => .left (heats read τ)⟩
    · obtain ⟨xs, rest, rfl, hxs, heats⟩ := h'.hit cs (hc.resolve_left hP)
      have hmiss : Misses e (c :: xs ++ rest) := h.miss fun d hd => Option.some.inj hd ▸ hP
      exact ⟨xs, rest, rfl, fun x hx => .inr (hxs x hx),
        fun read τ => .right (hmiss read τ) (heats read τ)⟩
  miss hcs read τ :=
    .right (h.miss (fun c hc hP => hcs c hc (.inl hP)) read τ)
      (h'.miss (fun c hc hQ => hcs c hc (.inr hQ)) read τ)

theorem Takes.congr (h : Takes P e) (hPQ : ∀ c, P c ↔ Q c) : Takes Q e := by
  obtain rfl : P = Q := funext fun c => propext (hPQ c)
  exact h

theorem Takes.but (h : Takes P e) : Takes (fun c => ¬ P c) (.seq (.not e) .any) where
  hit {c} cs hc := by
    refine ⟨[], cs, rfl, by simp, fun read τ => ?_⟩
    have hmiss : Misses e (c :: cs) := h.miss fun d hd => Option.some.inj hd ▸ hc
    exact .seq (.not (hmiss read τ)) (runs_tight _ τ) (.any rfl)
  miss {cs} hcs read τ := by
    cases cs with
    | nil =>
      have hmiss : Misses e [] := h.miss fun _ hd => absurd hd (Option.not_mem_none _)
      exact .noSecond (.not (hmiss read τ)) (runs_tight _ τ) (.noAny rfl)
    | cons c cs =>
      obtain ⟨xs, rest, rfl, -, heats⟩ := h.hit cs (Classical.not_not.mp (hcs c rfl))
      exact .noFirst (.noNot (heats read τ))

theorem Takes.more (h : Takes P e) (hcs : Longest P cs rest) : Eats (.more e) cs rest := by
  induction hn : cs.length using Nat.strongRecOn generalizing cs with
  | ind n ih =>
    subst hn
    intro read τ
    cases cs with
    | nil =>
      have hmiss : Misses e rest := h.miss hcs.stop
      rw [List.append_nil]
      exact .noMore (runs_tight _ τ) (hmiss read τ)
    | cons c cs =>
      obtain ⟨xs, r, heq, hxs, heats⟩ := h.hit (cs ++ rest) (hcs.all c (by simp))
      have hall : ∀ x ∈ c :: xs, P x := List.forall_mem_cons.mpr ⟨hcs.all c (by simp), hxs⟩
      have htext : c :: cs ++ rest = c :: xs ++ r := congrArg (c :: ·) heq
      obtain ⟨ys, hys, rfl, hlong⟩ := hcs.split htext hall
      have hlt : ys.length < (c :: cs).length := by
        rw [hys, List.length_append, List.length_cons]
        omega
      have hmore := ih ys.length hlt hlong rfl (read ++ (c :: xs)) τ
      rw [hys, List.append_assoc, ← List.append_assoc read]
      exact .more (runs_tight _ τ) (heats read τ) hmore

theorem Takes.star (h : Takes P e) (hcs : Longest P cs rest) : Eats (.star e) cs rest :=
  fun read τ => (h.more hcs read τ).star_of_more (runs_tight _ τ)

theorem takes_newline : Takes EndsLine Rule.newline where
  hit {c} cs hc := by
    rcases hc with rfl | rfl
    · exact ⟨[], cs, rfl, by simp, fun read τ => .left (.text rfl)⟩
    · have hline : ∀ rest, Misses (.text ['\n']) ('\r' :: rest) := fun rest =>
        (takes_text '\n').miss (by simp)
      by_cases hpair : ['\r', '\n'] <+: '\r' :: cs
      · obtain ⟨rest, hrest⟩ := hpair
        obtain rfl : '\n' :: rest = cs := (List.cons.inj hrest).2
        exact ⟨['\n'], rest, rfl, by simp [EndsLine],
          fun read τ => .right (hline _ read τ) (.left (.text rfl))⟩
      · exact ⟨[], cs, rfl, by simp,
          fun read τ => .right (hline _ read τ) (.right (.noText hpair) (.text rfl))⟩
  miss {cs} hcs read τ := by
    have hpair : ¬ ['\r', '\n'] <+: cs := by
      rintro ⟨rest, rfl⟩
      exact hcs '\r' rfl (.inr rfl)
    have hline : Misses (.text ['\n']) cs := (takes_text '\n').miss fun c hc h => hcs c hc (.inl h)
    have hreturn : Misses (.text ['\r']) cs :=
      (takes_text '\r').miss fun c hc h => hcs c hc (.inr h)
    exact .right (hline read τ) (.right (.noText hpair) (hreturn read τ))

theorem takes_whitespace : Takes Blank (.call .whitespace) := by
  have h : Takes Blank Rule.whitespace.body :=
    (takes_text ' ').alt ((takes_text '\t').alt takes_newline)
  refine ⟨fun cs hc => ?_, fun hcs => .call _ (h.miss hcs)⟩
  obtain ⟨xs, rest, hcs, hxs, heats⟩ := h.hit cs hc
  exact ⟨xs, rest, hcs, hxs, .call _ heats⟩

theorem eats_comment {line : List Char} (h : Longest (¬ EndsLine ·) line rest) :
    Eats (.call .comment) ('/' :: '/' :: line) rest := by
  have hopen : Eats (.text ['/', '/']) ['/', '/'] (line ++ rest) := fun _ _ => .text rfl
  exact .call _ (hopen.seq (takes_newline.but.star h))

theorem misses_comment (h : ¬ ['/', '/'] <+: cs) : Misses (.call .comment) cs :=
  .call _ (.seq fun _ _ => .noText h)

theorem takes_letter : Takes Letter Rule.asciiAlpha :=
  (takes_range 'a' 'z').alt (takes_range 'A' 'Z')

theorem eats_kind (h : Word xs rest) : Eats Rule.kind.body xs rest := by
  obtain ⟨c, cs, rfl, hc, hcs⟩ := h
  have hword : Takes WordChar (.alt Rule.asciiAlphanumeric (.text ['_'])) :=
    ((takes_letter.alt (takes_range '0' '9')).alt (takes_text '_')).congr fun _ => or_assoc
  obtain ⟨xs, r, heq, hxs, hletter⟩ := takes_letter.hit (cs ++ rest) hc
  obtain ⟨ys, rfl, rfl, hys⟩ := hcs.split heq fun x hx => .inl (hxs x hx)
  exact hletter.seq (hword.star hys)

theorem misses_kind (h : ∀ c ∈ cs.head?, ¬ Letter c) : Misses Rule.kind.body cs :=
  .seq (takes_letter.miss h)

theorem eats_name (h : Longest NameChar xs rest) : Eats Rule.name.body xs rest := by
  have hname : Takes NameChar (.seq (.not (.alt (.text [')']) Rule.newline)) .any) :=
    ((takes_text ')').alt takes_newline).but.congr fun _ => not_or
  exact hname.star h

/-! ## Skipped text -/

theorem eats_comments {s : List Char} (h : Skip s rest) :
    ∃ xs ys, s = xs ++ ys ∧ Longest Blank xs (ys ++ rest) ∧
      Eats (.more (.seq (.call .comment) (.star (.call .whitespace)))) ys rest := by
  induction hn : s.length using Nat.strongRecOn generalizing s with
  | ind n ih =>
    subst hn
    obtain ⟨xs, ys, rfl, hxs, ⟨rfl, hsolid⟩ | ⟨line, s', rfl, hline, hs'⟩⟩ := h.blanks
    · refine ⟨xs, [], rfl, hxs, fun read τ => ?_⟩
      have hmiss : Misses (.seq (.call .comment) (.star (.call .whitespace))) rest :=
        .seq (misses_comment hsolid.comment)
      rw [List.append_nil]
      exact .noMore (runs_tight _ τ) (hmiss read τ)
    · obtain ⟨zs, ws, rfl, hzs, hmore⟩ := ih s'.length (by simp; omega) hs' rfl
      refine ⟨xs, _, rfl, hxs, fun read τ => ?_⟩
      rw [List.append_assoc] at hline
      have hcomment := (eats_comment hline).seq (takes_whitespace.star hzs)
      have hrest := hmore (read ++ (('/' :: '/' :: line) ++ zs)) τ
      have hrun := Runs.more (runs_tight _ τ) (hcomment read τ) hrest
      simpa using hrun

theorem eats_skip {s : List Char} (h : Skip s rest) : Eats dumps.skip s rest := by
  obtain ⟨xs, ys, rfl, hxs, hys⟩ := eats_comments h
  exact (takes_whitespace.star hxs).seq fun read τ => (hys read τ).star_of_more (runs_tight _ τ)

end Tokens

end TreeFlow.Reader
