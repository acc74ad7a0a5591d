import TreeFlow.Proofs.DumpGrammar

/-!
# The reader follows the rules

The rules of a dump say for each text whether it is a dump, what it says, and otherwise
which parts were missing, and where. The reader says the same. A node is matched or fails
at its start, or something fails inside its braces: then the rules leave the braces aside,
and nothing that is tried later gets as far as the failure.
-/

set_option autoImplicit false

namespace TreeFlow.Reader

open Grammar Peg State

/-! ## What an answer says -/

def placeAt (read : List Char) : Place := Place.start.after read

theorem placeAt_append (xs ys : List Char) : placeAt (xs ++ ys) = (placeAt xs).after ys :=
  Place.after_append ..

def Rule.listed : List Rule := [.endOfInput, .tree, .node, .kind, .name, .children]

def Rule.part? : Rule → Option Part
  | .endOfInput => some .endOfText
  | .node => some .node
  | .kind => some .kind
  | .children => some .children
  | .whitespace | .comment | .tree | .name => none

def fault? (τ : Tries Rule) : Option SyntaxError :=
  ((Rule.listed.filter (· ∈ τ.rules)).mapM Rule.part?).map fun parts =>
    ⟨.missing parts, placeAt τ.read⟩

def token : Pair Rule → List Char
  | .node _ start stop _ => start.rest.take (start.rest.length - stop.rest.length)

mutual

def outline? : Pair Rule → Option Outline
  | .node _ start _ [kind, name] =>
    some (.node ⟨.ofList (token kind), .ofList (Text.trim (token name)), placeAt start.read⟩ [])
  | .node _ start _ (kind :: name :: .node _ _ _ inner :: _) =>
    (outlines? inner).map (.node
      ⟨.ofList (token kind), .ofList (Text.trim (token name)), placeAt start.read⟩)
  | _ => none

def outlines? : List (Pair Rule) → Option (List Outline)
  | [] => some []
  | p :: ps => do
    let o ← outline? p
    let os ← outlines? ps
    return o :: os

end

def isNode : Pair Rule → Bool
  | .node rule _ _ _ => rule = .node

/-- What a run of the grammar says about a text. -/
def verdict? : Answer Rule → Option (Except SyntaxError Outline)
  | .ok [.node _ _ _ inner] _ _ => ((inner.find? isNode).bind outline?).map .ok
  | .ok _ _ _ => none
  | .fail τ => (fault? τ).map .error

/-! ## Rules that have failed -/

section Tries

variable {τ τ' : Tries Rule} {b : Bool} {read xs : List Char}

/-- The rules that have been tried where a node may start. -/
def tried (behindLeaf : Bool) : List Rule := if behindLeaf then [.children] else []

def Ready (behindLeaf : Bool) (τ : Tries Rule) (read : List Char) : Prop :=
  τ.read.length ≤ read.length ∧ τ.here read = tried behindLeaf

theorem Ready.missed (h : Ready b τ read) (r : Rule) :
    τ.missed τ r read = ⟨read, tried b ++ [r]⟩ := by
  obtain ⟨hle, hhere⟩ := h
  unfold Tries.missed
  rw [if_neg (by omega)]
  by_cases hlt : τ.read.length < read.length
  · have hnone : tried b = [] := by
      rw [← hhere, Tries.here, if_neg (by omega)]
    rw [if_pos hlt, hnone]
    rfl
  · have heq : τ.read.length = read.length := by omega
    rw [if_neg hlt, if_pos heq]
    have hrules : τ.here read = τ.rules := if_pos heq
    rw [hrules, List.take_length, ← hrules, hhere]

theorem Ready.missed_again (h : Ready b τ read) (r r' : Rule) :
    τ.missed ⟨read, tried b ++ [r']⟩ r read = ⟨read, tried b ++ [r']⟩ := by
  unfold Tries.missed
  rw [if_pos]
  rw [h.2, Tries.here, if_pos rfl, List.length_append]
  rfl

theorem missed_further (h : read.length < τ'.read.length) (r : Rule) : τ.missed τ' r read = τ' := by
  unfold Tries.missed
  have hnone : τ'.here read = [] := if_neg (by omega)
  rw [hnone, if_neg (by simp), if_neg (by omega), if_neg (by omega)]

theorem ready_behind (h : τ.read.length < read.length) : Ready false τ read :=
  ⟨Nat.le_of_lt h, if_neg (by omega)⟩

theorem Ready.further (h : Ready b τ read) (hxs : xs ≠ []) : Ready false τ (read ++ xs) := by
  have hpos : 0 < xs.length := List.length_pos_iff.mpr hxs
  have hle := h.1
  exact ready_behind (by rw [List.length_append]; omega)

theorem Ready.skip (h : Ready false τ read) (xs : List Char) : Ready false τ (read ++ xs) := by
  cases xs with
  | nil => rwa [List.append_nil]
  | cons x xs => exact h.further (List.cons_ne_nil x xs)

theorem ready_leaf (read : List Char) : Ready true ⟨read, [.children]⟩ read :=
  ⟨Nat.le_refl _, if_pos rfl⟩

theorem fault?_kind (b : Bool) (read : List Char) :
    fault? ⟨read, tried b ++ [.kind]⟩ =
      some ⟨.missing (if b then [.kind, .children] else [.kind]), placeAt read⟩ := by
  cases b <;> rfl

theorem fault?_node (b : Bool) (read : List Char) :
    fault? ⟨read, tried b ++ [.node]⟩ =
      some ⟨.missing (if b then [.node, .children] else [.node]), placeAt read⟩ := by
  cases b <;> rfl

end Tries

/-! ## Headings -/

section Headings

variable {read cs rest : List Char} {τ : Tries Rule} {b : Bool} {c : Char}

theorem runs_skip {g : List Char} (h : Skip g rest) (read : List Char) (τ : Tries Rule) :
    Runs dumps true (dumps.gap false) ⟨read, g ++ rest⟩ τ (.ok [] ⟨read ++ g, rest⟩ τ) :=
  eats_skip h read τ

theorem runs_solid (h : Solid rest) (read : List Char) (τ : Tries Rule) :
    Runs dumps true (dumps.gap false) ⟨read, rest⟩ τ (.ok [] ⟨read, rest⟩ τ) := by
  have hskip := runs_skip (.done h) read τ
  rwa [List.append_nil] at hskip

theorem runs_kind {w : List Char} (h : Word w rest) (read : List Char) (τ : Tries Rule) :
    Runs dumps false (.call .kind) ⟨read, w ++ rest⟩ τ
      (.ok [.node .kind ⟨read, w ++ rest⟩ ⟨read ++ w, rest⟩ []] ⟨read ++ w, rest⟩ τ) :=
  .matched rfl (eats_kind h read τ)

theorem runs_name {name : List Char} (h : Longest NameChar name rest) (read : List Char)
    (τ : Tries Rule) :
    Runs dumps false (.call .name) ⟨read, name ++ rest⟩ τ
      (.ok [.node .name ⟨read, name ++ rest⟩ ⟨read ++ name, rest⟩ []] ⟨read ++ name, rest⟩ τ) :=
  .matched rfl (eats_name h read τ)

theorem runs_char (c : Char) (rest read : List Char) (τ : Tries Rule) :
    Runs dumps false (.text [c]) ⟨read, c :: rest⟩ τ (.ok [] ⟨read ++ [c], rest⟩ τ) := .text rfl

theorem runs_noChar (h : ∀ d ∈ rest.head?, d ≠ c) (read : List Char) (τ : Tries Rule) :
    Runs dumps false (.text [c]) ⟨read, rest⟩ τ (.fail τ) := by
  refine .noText ?_
  rintro ⟨tail, rfl⟩
  exact h c rfl rfl

theorem runs_noKind (h : ∀ c ∈ cs.head?, ¬ Letter c) (read : List Char) (τ : Tries Rule) :
    Runs dumps false (.call .node) ⟨read, cs⟩ τ
      (.fail (τ.missed (τ.missed τ .kind read) .node read)) :=
  .missed rfl (.noFirst (.missed rfl (misses_kind h read τ)))

theorem runs_noNode (hready : Ready b τ read) (h : ∀ c ∈ cs.head?, ¬ Letter c) :
    Runs dumps false (.call .node) ⟨read, cs⟩ τ (.fail ⟨read, tried b ++ [.kind]⟩) := by
  have hnode := runs_noKind h read τ
  rwa [hready.missed, hready.missed_again] at hnode

theorem runs_noNode_further (hτ : read.length < τ.read.length) (h : ∀ c ∈ cs.head?, ¬ Letter c) :
    Runs dumps false (.call .node) ⟨read, cs⟩ τ (.fail τ) := by
  have hnode := runs_noKind h read τ
  rwa [missed_further hτ, missed_further hτ] at hnode

theorem runs_broken (h : Broken cs) (hready : Ready b τ read) :
    Runs dumps false (.call .node) ⟨read, cs⟩ τ (.fail ⟨read, tried b ++ [.node]⟩) := by
  have hbody : Runs dumps false Rule.node.body ⟨read, cs⟩ τ (.fail τ) := by
    cases h with
    | @word w g rest kind paren stop =>
      refine .noSecond (runs_kind kind read τ) (runs_skip paren _ τ) ?_
      exact .noFirst (runs_noChar stop _ τ)
    | @name w g g' name g'' rest kind paren opening longest closing stop =>
      refine .noSecond (runs_kind kind read τ) (runs_skip paren _ τ) ?_
      refine .noSecond (runs_char '(' _ _ τ) (runs_skip opening _ τ) ?_
      refine .noSecond (runs_name longest _ τ) (runs_skip closing _ τ) ?_
      exact .noFirst (runs_noChar stop _ τ)
  have hnode : Runs dumps false (.call .node) ⟨read, cs⟩ τ _ := .missed rfl hbody
  rwa [hready.missed] at hnode

def headingPairs (h : Heading) (read rest : List Char) : List (Pair Rule) :=
  let named := read ++ (h.kind ++ (h.beforeParen ++ '(' :: h.beforeName))
  [.node .kind ⟨read, h.before rest⟩ ⟨read ++ h.kind, h.beforeParen ++ '(' :: h.inner rest⟩ [],
    .node .name ⟨named, h.name ++ h.tail rest⟩ ⟨named ++ h.name, h.tail rest⟩ []]

theorem runs_heading {h : Heading} {gap r : List Char} {ps : List (Pair Rule)} {c : Position}
    {τ' : Tries Rule} (hfit : h.Fits (gap ++ r)) (hgap : Skip gap r)
    (hchildren : Runs dumps false (.opt (.call .children)) ⟨read ++ h.before gap, r⟩ τ
      (.ok ps c τ')) :
    Runs dumps false (.call .node) ⟨read, h.before (gap ++ r)⟩ τ
      (.ok [.node .node ⟨read, h.before (gap ++ r)⟩ c (headingPairs h read (gap ++ r) ++ ps)] c
        τ') := by
  have hend : read ++ h.before gap = read ++ h.kind ++ h.beforeParen ++ ['('] ++ h.beforeName ++
      h.name ++ h.behindName ++ [')'] ++ gap := by
    simp [Heading.before, Heading.inner, Heading.tail]
  have hnamed : read ++ (h.kind ++ (h.beforeParen ++ '(' :: h.beforeName)) =
      read ++ h.kind ++ h.beforeParen ++ ['('] ++ h.beforeName := by simp
  rw [hend] at hchildren
  rw [headingPairs, hnamed]
  have hclose := Runs.seq (runs_char ')' (gap ++ r) _ τ) (runs_skip hgap _ τ) hchildren
  have hname := Runs.seq (runs_name hfit.name _ τ) (runs_skip hfit.closing _ τ) hclose
  have hopen := Runs.seq (runs_char '(' _ _ τ) (runs_skip hfit.opening _ τ) hname
  have hbody := Runs.seq (runs_kind hfit.kind read τ) (runs_skip hfit.paren _ τ) hopen
  exact .matched rfl hbody

theorem token_eq (r : Rule) (xs ys read read' : List Char) (inner : List (Pair Rule)) :
    token (.node r ⟨read, xs ++ ys⟩ ⟨read', ys⟩ inner) = xs := by
  simp [token]

theorem outline?_leaf (h : Heading) (read rest : List Char) (stop : Position) :
    outline? (.node .node ⟨read, h.before rest⟩ stop (headingPairs h read rest)) =
      some (.node (h.head (placeAt read)) []) := by
  rw [headingPairs, outline?, Heading.before, token_eq, token_eq]
  rfl

theorem outline?_braced (h : Heading) (read rest : List Char) (stop start' stop' : Position)
    (inner : List (Pair Rule)) :
    outline? (.node .node ⟨read, h.before rest⟩ stop
      (headingPairs h read rest ++ [.node .children start' stop' inner])) =
        (outlines? inner).map (.node (h.head (placeAt read))) := by
  rw [headingPairs, List.cons_append, List.cons_append, List.nil_append, outline?, Heading.before,
    token_eq, token_eq]
  rfl

end Headings

/-! ## Nodes -/

/-- The reader where a node may start: behind a leaf with the given head, or not behind
one. -/
def spot (p : Place) (fs : List Frame) : Option Head → State
  | none => ⟨p, fs, none, .gap .fresh⟩
  | some h => ⟨p, fs, none, .gap (.leaf h)⟩

def settled (f : Frame) : Option Head → List Outline
  | none => f.children
  | some h => .node h [] :: f.children

/-- What the grammar makes of a node, and what the reader makes of it within some frames. -/
inductive NodeRuns (read cs : List Char) (b : Bool) (τ : Tries Rule)
    (verdict : List Frame → Except SyntaxError Outline) : Prop
  | missed {e : SyntaxError}
      (run : Runs dumps false (.call .node) ⟨read, cs⟩ τ (.fail ⟨read, tried b ++ [.node]⟩))
      (fault : fault? ⟨read, tried b ++ [.node]⟩ = some e) (failed : ∀ fs, verdict fs = .error e)
  | leaf {xs r : List Char} {pair : Pair Rule} {h : Head} {τ' : Tries Rule} (text : cs = xs ++ r)
      (nonempty : xs ≠ [])
      (run : Runs dumps false (.call .node) ⟨read, cs⟩ τ (.ok [pair] ⟨read ++ xs, r⟩ τ'))
      (outline : outline? pair = some (.node h [])) (ready : Ready true τ' (read ++ xs))
      (solid : Solid r) (ends : Ends r)
      (goes : ∀ fs, verdict fs = (spot (placeAt (read ++ xs)) fs (some h)).verdict r)
  | braced {xs r : List Char} {pair : Pair Rule} {o : Outline} {τ' : Tries Rule}
      (text : cs = xs ++ r) (nonempty : xs ≠ [])
      (run : Runs dumps false (.call .node) ⟨read, cs⟩ τ (.ok [pair] ⟨read ++ xs, r⟩ τ'))
      (outline : outline? pair = some o) (ready : Ready false τ' (read ++ xs))
      (goes : ∀ fs, verdict fs = (between (placeAt (read ++ xs)) (afterNode o fs)).verdict r)
  /-- Something fails inside the braces, so that they are left aside and the node ends in
  front of them. -/
  | doomed {xs r : List Char} {pair : Pair Rule} {τ' : Tries Rule} {e : SyntaxError}
      (run : Runs dumps false (.call .node) ⟨read, cs⟩ τ (.ok [pair] ⟨read ++ xs, '{' :: r⟩ τ'))
      (fault : fault? τ' = some e) (further : (read ++ xs).length < τ'.read.length)
      (failed : ∀ fs, verdict fs = .error e)

/-- What the grammar and the reader make of the rest of a row of nodes in braces. -/
inductive RowRuns (read cs : List Char) (last : Option Head) (τ : Tries Rule) : Prop
  | closed {xs r : List Char} {ps : List (Pair Rule)} {os : List Outline} {τ' : Tries Rule}
      (text : cs = xs ++ '}' :: r)
      (run : Runs dumps false (.seq (.more (.call .node)) (.text ['}'])) ⟨read, cs⟩ τ
        (.ok ps ⟨read ++ xs ++ ['}'], r⟩ τ'))
      (outlines : outlines? ps = some os) (behind : τ'.read.length ≤ (read ++ xs).length)
      (verdict : ∀ f fs, (spot (placeAt read) (f :: fs) last).verdict cs =
        (between (placeAt (read ++ xs ++ ['}']))
          (afterNode (.node f.head ((settled f last).reverse ++ os)) fs)).verdict r)
  | stuck {τ' : Tries Rule} {e : SyntaxError}
      (run : Runs dumps false (.seq (.more (.call .node)) (.text ['}'])) ⟨read, cs⟩ τ (.fail τ'))
      (fault : fault? τ' = some e) (further : read.length ≤ τ'.read.length)
      (verdict : ∀ f fs, (spot (placeAt read) (f :: fs) last).verdict cs = .error e)

section Nodes

variable {read cs : List Char} {τ : Tries Rule} {b : Bool} {c : Char}

theorem placeAt_cons (read : List Char) (c : Char) (cs : List Char) :
    ((placeAt read).advance c).after cs = placeAt (read ++ c :: cs) :=
  (placeAt_append read (c :: cs)).symm

theorem spot_open {g r : List Char} {fs : List Frame} (hgap : Skip g r) (h : Head) :
    (spot (placeAt read) fs (some h)).verdict ('{' :: (g ++ r)) =
      (spot (placeAt (read ++ ['{'] ++ g)) (⟨h, []⟩ :: fs) none).verdict r := by
  have hskip := verdict_skip ((placeAt read).advance '{') (⟨h, []⟩ :: fs) none .fresh hgap
  rw [placeAt_cons, List.append_cons] at hskip
  exact hskip

def RowsBelow (n : Nat) : Prop :=
  ∀ read cs τ, cs.length < n → Ready false τ read → RowRuns read cs none τ

theorem heading_runs {h : Heading} {gap r : List Char} (hfit : h.Fits (gap ++ r))
    (hgap : Skip gap r) (hready : Ready false τ (read ++ h.before gap))
    (hrows : RowsBelow r.length) :
    NodeRuns read (h.before (gap ++ r)) b τ fun fs =>
      (spot (placeAt (read ++ h.before gap)) fs (some (h.head (placeAt read)))).verdict r := by
  have hnonempty : h.before gap ≠ [] := by
    rw [Heading.before]
    simp
  rcases head?_cases (· = '{') r with ⟨_, inner, rfl, rfl⟩ | hends
  · obtain ⟨g, inside, rfl, hinside⟩ := exists_skip inner
    have hbrace := runs_char '{' (g ++ inside) (read ++ h.before gap) τ
    have hskip := runs_skip hinside (read ++ h.before gap ++ ['{']) τ
    have hsolid := runs_solid hinside.solid (read ++ h.before gap ++ ['{'] ++ g) τ
    have hready' : Ready false τ (read ++ h.before gap ++ ['{'] ++ g) :=
      (hready.skip ['{']).skip g
    cases hrows _ inside τ (by rw [List.length_cons, List.length_append]; omega) hready' with
    | @closed xs r ps os τ' text run outlines behind goes =>
      subst text
      have hchildren : Runs dumps false (.call .children) _ τ _ :=
        .matched rfl (.seq hbrace hskip (run.seq_star hsolid))
      have hnode := runs_heading hfit hgap (.opt hchildren)
      have hend : read ++ h.before gap ++ ['{'] ++ g ++ xs ++ ['}'] =
          read ++ (h.before gap ++ '{' :: (g ++ (xs ++ ['}']))) := by simp
      have hready'' : Ready false τ' (read ++ (h.before gap ++ '{' :: (g ++ (xs ++ ['}'])))) := by
        refine ready_behind (Nat.lt_of_le_of_lt behind ?_)
        rw [← hend]
        simp
      rw [hend] at hnode goes
      refine .braced ?_ (by simp) hnode ?_ hready'' fun fs =>
        (spot_open hinside _).trans (goes _ fs)
      · rw [h.before_append]
        simp
      · exact (outline?_braced ..).trans (congrArg (Option.map _) outlines)
    | @stuck τ' e run fault further failed =>
      have hfurther : (read ++ h.before gap).length < τ'.read.length := by
        refine Nat.lt_of_lt_of_le ?_ further
        simp
      have hchildren : Runs dumps false (.call .children) _ τ _ :=
        .missed rfl (.noSecond hbrace hskip (run.seq_star hsolid))
      rw [missed_further hfurther] at hchildren
      have hnode := runs_heading hfit hgap (.noOpt hchildren)
      exact .doomed hnode fault hfurther fun fs =>
        (spot_open hinside _).trans (failed _ fs)
  · have hchildren : Runs dumps false (.call .children) ⟨read ++ h.before gap, r⟩ τ _ :=
      .missed rfl (.noFirst (runs_noChar hends _ τ))
    rw [hready.missed] at hchildren
    have hnode := runs_heading hfit hgap (.noOpt hchildren)
    rw [List.append_nil] at hnode
    exact .leaf (h.before_append gap r) hnonempty hnode (outline?_leaf ..) (ready_leaf _)
      hgap.solid hends fun _ => rfl

theorem node_runs (hc : Letter c) (hready : Ready b τ read) (hrows : RowsBelow cs.length) :
    NodeRuns read (c :: cs) b τ fun fs =>
      verdict ⟨(placeAt read).advance c, fs, none, .word ⟨[c], placeAt read, b⟩⟩ cs := by
  rcases heading_or_broken hc cs with ⟨h, rest, htext, hfit⟩ | hbroken
  · obtain ⟨gap, r, rfl, hgap⟩ := exists_skip rest
    obtain ⟨c', w, hkind, -⟩ := hfit.kind
    have hcs := htext
    rw [Heading.before, hkind, List.cons_append] at hcs
    obtain ⟨rfl, rfl⟩ := List.cons.inj hcs
    have hgoes : ∀ fs, verdict ⟨(placeAt read).advance c, fs, none, .word ⟨[c], placeAt read, b⟩⟩
        (w ++ (h.beforeParen ++ '(' :: h.inner (gap ++ r))) =
          (spot (placeAt (read ++ h.before gap)) fs (some (h.head (placeAt read)))).verdict r := by
      intro fs
      rw [verdict_heading hkind hfit, verdict_skip _ fs none _ hgap, h.after_before,
        List.nil_append, ← placeAt_append]
      rfl
    have hlength : r.length ≤ (w ++ (h.beforeParen ++ '(' :: h.inner (gap ++ r))).length := by
      simp [Heading.inner, Heading.tail]
      omega
    simp only [hgoes]
    rw [htext]
    refine heading_runs hfit hgap (hready.further ?_) fun read' cs' τ' hlt => ?_
    · rw [Heading.before]
      simp
    · exact hrows read' cs' τ' (Nat.lt_of_lt_of_le hlt hlength)
  · exact .missed (runs_broken hbroken hready) (fault?_node b read) fun fs =>
      verdict_broken hbroken

/-! ## Rows -/

variable {p : Place} {last : Option Head} {f : Frame} {fs : List Frame} {r : List Char}

theorem spot_skip {g : List Char} (h : Skip g r) (last : Option Head) :
    (spot (placeAt read) fs last).verdict (g ++ r) =
      (spot (placeAt (read ++ g)) fs last).verdict r := by
  rw [placeAt_append]
  cases last with
  | none => exact verdict_skip _ fs none _ h
  | some h' => exact verdict_skip _ fs none _ h

theorem spot_close (p : Place) (f : Frame) (fs : List Frame) (last : Option Head) (r : List Char) :
    (spot p (f :: fs) last).verdict ('}' :: r) =
      (between (p.advance '}')
        (afterNode (.node f.head (settled f last).reverse) fs)).verdict r := by
  cases last <;> cases fs <;> rfl

theorem spot_letter (hc : Letter c) (hsolid : Solid (c :: r)) :
    (spot p (f :: fs) last).verdict (c :: r) =
      verdict
        ⟨p.advance c, ⟨f.head, settled f last⟩ :: fs, none, .word ⟨[c], p, last.isSome⟩⟩ r := by
  obtain ⟨-, hslash, hopen, hclose⟩ := hc.plain
  have hstart := isWordStart_iff.mpr hc
  cases last with
  | none =>
    have hleave : leave ⟨p, f :: fs, none, .gap .fresh⟩ .fresh c =
        some ⟨p, f :: fs, none, .word ⟨[c], p, false⟩⟩ := by
      simp [leave, begin?, hclose, hstart, enter]
    exact verdict_leave rfl hsolid hslash hleave
  | some h =>
    have hleave : leave ⟨p, f :: fs, none, .gap (.leaf h)⟩ (.leaf h) c =
        some ⟨p, ⟨f.head, .node h [] :: f.children⟩ :: fs, none, .word ⟨[c], p, true⟩⟩ := by
      simp [leave, begin?, hopen, hclose, hstart, enter, attach]
    exact verdict_leave rfl hsolid hslash hleave

theorem spot_stuck (hsolid : Solid r) (hletter : ∀ c ∈ r.head?, ¬ Letter c)
    (hclose : ∀ c ∈ r.head?, c ≠ '}') (hopen : last.isSome → Ends r) :
    (spot p (f :: fs) last).verdict r =
      .error ⟨.missing (if last.isSome then [.kind, .children] else [.kind]), p⟩ := by
  have hstart : ∀ c ∈ r.head?, isWordStart c = false := fun c hc =>
    Bool.eq_false_iff.mpr (mt isWordStart_iff.mp (hletter c hc))
  cases last with
  | none =>
    refine Eq.trans (verdict_stuck rfl (fun _ => Gap.noConfusion) hsolid (fun c hc => ?_) ?_) rfl
    · simp [spot, leave, begin?, hclose c hc, hstart c hc]
    · exact fun _ => rfl
  | some h =>
    refine Eq.trans (verdict_stuck rfl (fun _ => Gap.noConfusion) hsolid (fun c hc => ?_) ?_) rfl
    · simp [spot, leave, begin?, hopen rfl c hc, hclose c hc, hstart c hc]
    · exact fun _ => rfl

theorem RowRuns.cons {g xs r' : List Char} {last' : Option Head} {pair : Pair Rule} {o : Outline}
    {τ' : Tries Rule} (hgap : Skip g r) (text : r = xs ++ r')
    (run : Runs dumps false (.call .node) ⟨read ++ g, r⟩ τ (.ok [pair] ⟨read ++ g ++ xs, r'⟩ τ'))
    (outline : outline? pair = some o)
    (goes : ∀ f fs, ∃ f', f'.head = f.head ∧ settled f' last' = o :: settled f last ∧
      (spot (placeAt (read ++ g)) (f :: fs) last).verdict r =
        (spot (placeAt (read ++ g ++ xs)) (f' :: fs) last').verdict r')
    (rest : RowRuns (read ++ g ++ xs) r' last' τ') : RowRuns read (g ++ r) last τ := by
  have hgap' := runs_skip hgap read τ
  cases rest with
  | @closed ys r'' ps os τ'' text' run' outlines behind goes' =>
    have hrun := Runs.seq_more hgap' run run'
    subst text text'
    have hend : read ++ g ++ xs ++ ys = read ++ (g ++ (xs ++ ys)) := by simp
    rw [hend] at hrun behind goes'
    have houtlines : outlines? (pair :: ps) = some (o :: os) := by
      rw [outlines?, outline, outlines]
      rfl
    refine .closed (by simp) hrun houtlines behind fun f fs => ?_
    obtain ⟨f', hhead, hsettled, hverdict⟩ := goes f fs
    rw [spot_skip hgap, hverdict, goes', hhead, hsettled]
    simp
  | @stuck τ'' e run' fault further failed =>
    refine .stuck (Runs.seq_more hgap' run run') fault (Nat.le_trans ?_ further) fun f fs => ?_
    · simp
    · obtain ⟨f', -, -, hverdict⟩ := goes f fs
      rw [spot_skip hgap, hverdict, failed]

theorem solid_brace (r : List Char) : Solid ('{' :: r) where
  blank := by simp [Blank, EndsLine]
  comment := by simp

/-- The induction is on the length of the text: children and siblings stand further
behind. -/
theorem row_runs (hready : Ready last.isSome τ read) (hleaf : last.isSome → Solid cs ∧ Ends cs) :
    RowRuns read cs last τ := by
  induction hn : cs.length using Nat.strongRecOn generalizing read cs last τ with
  | ind n ih =>
    subst hn
    obtain ⟨g, r, rfl, hg⟩ := exists_skip cs
    have hready' : Ready last.isSome τ (read ++ g) := by
      cases last with
      | none => exact hready.skip g
      | some h =>
        obtain ⟨hsolid, -⟩ := hleaf rfl
        obtain ⟨rfl, -⟩ := hg.unique (.done hsolid) rfl
        rwa [List.append_nil]
    have hopen : last.isSome → Ends r := by
      intro hlast
      obtain ⟨hsolid, hends⟩ := hleaf hlast
      obtain ⟨rfl, -⟩ := hg.unique (.done hsolid) rfl
      exact hends
    -- Where no node starts, the row ends or fails for the kind of one.
    have hlone : (∀ c ∈ r.head?, ¬ Letter c) →
        Runs dumps false (.more (.call .node)) ⟨read, g ++ r⟩ τ
          (.ok [] ⟨read, g ++ r⟩ ⟨read ++ g, tried last.isSome ++ [.kind]⟩) := fun hletter =>
      .noMore (runs_skip hg read τ) (runs_noNode hready' hletter)
    rcases head?_cases (· = '}') r with ⟨_, r, rfl, rfl⟩ | hclose
    · have hmore := hlone fun c hc hletter => hletter.plain.2.2.2 (Option.some.inj hc).symm
      have hrun := Runs.seq hmore (runs_skip hg read _) (runs_char '}' r _ _)
      refine .closed rfl hrun rfl (Nat.le_refl _) fun f fs => ?_
      rw [spot_skip hg, spot_close, List.append_nil, placeAt_append _ ['}']]
      rfl
    rcases head?_cases Letter r with ⟨c, r, rfl, hc⟩ | hletter
    · have hrows : RowsBelow r.length := fun read' cs' τ' hlt hready =>
        ih cs'.length (by simp; omega) hready nofun rfl
      have hshorter : ∀ {xs r'}, c :: r = xs ++ r' → xs ≠ [] →
          r'.length < (g ++ c :: r).length := by
        intro xs r' htext hxs
        have hpos := List.length_pos_iff.mpr hxs
        rw [htext, List.length_append, List.length_append]
        omega
      cases node_runs hc hready' hrows with
      | missed run fault failed =>
        refine .stuck (.noSecond (.noMore (runs_skip hg read τ) run) (runs_skip hg read _)
          (runs_noChar hclose _ _)) fault (by simp) fun f fs => ?_
        rw [spot_skip hg, spot_letter hc hg.solid, failed]
      | @leaf xs r' pair h τ' text nonempty run outline ready solid ends goes =>
        have hrest : RowRuns (read ++ g ++ xs) r' (some h) τ' :=
          ih r'.length (hshorter text nonempty) ready (fun _ => ⟨solid, ends⟩) rfl
        refine .cons hg text run outline (fun f fs => ?_) hrest
        exact ⟨⟨f.head, settled f last⟩, rfl, rfl, (spot_letter hc hg.solid).trans (goes _)⟩
      | @braced xs r' pair o τ' text nonempty run outline ready goes =>
        have hrest : RowRuns (read ++ g ++ xs) r' none τ' :=
          ih r'.length (hshorter text nonempty) ready nofun rfl
        refine .cons hg text run outline (fun f fs => ?_) hrest
        exact ⟨⟨f.head, o :: settled f last⟩, rfl, rfl, (spot_letter hc hg.solid).trans (goes _)⟩
      | @doomed xs r' pair τ' e run fault further failed =>
        -- In front of the braces no node starts, and the row is not closed either.
        have hgap := runs_solid (solid_brace r') (read ++ g ++ xs) τ'
        have hnone : Runs dumps false (.call .node) ⟨read ++ g ++ xs, '{' :: r'⟩ τ' (.fail τ') :=
          runs_noNode_further further
            fun d hd hletter => hletter.plain.2.2.1 (Option.some.inj hd).symm
        have hstop : ∀ d ∈ ('{' :: r').head?, d ≠ '}' := by simp
        have hrest := Runs.noSecond (.noMore hgap hnone) hgap (runs_noChar hstop _ τ')
        refine .stuck (Runs.seq_more (runs_skip hg read τ) run hrest) fault
          (Nat.le_trans (by simp) (Nat.le_of_lt further)) fun f fs => ?_
        rw [spot_skip hg, spot_letter hc hg.solid, failed]
    · refine .stuck (.noSecond (hlone hletter) (runs_skip hg read _) (runs_noChar hclose _ _))
        (fault?_kind ..) (by simp) fun f fs => ?_
      rw [spot_skip hg, spot_stuck hg.solid hletter hclose hopen]

end Nodes

/-! ## Texts -/

section Texts

variable {c : Char} {lead r : List Char} {τ : Tries Rule} {p : Place}

theorem ready_initial (read : List Char) : Ready false (.initial : Tries Rule) read :=
  Ready.skip ⟨Nat.le_refl _, rfl⟩ read

theorem missed_tree {τ : Tries Rule} (h : τ.read ≠ []) : Tries.missed .initial τ .tree [] = τ := by
  have hlt : ([] : List Char).length < τ.read.length := List.length_pos_iff.mpr h
  exact missed_further hlt .tree

theorem missed_tree_once (lead : List Char) (r : Rule) :
    Tries.missed .initial ⟨lead, tried false ++ [r]⟩ .tree [] = ⟨lead, tried false ++ [r]⟩ := by
  cases lead with
  | nil => exact (ready_initial []).missed_again .tree r
  | cons c lead => exact missed_tree (List.cons_ne_nil c lead)

theorem isNode_of_runs {c c' : Position} {τ τ' : Tries Rule} {pair : Pair Rule}
    (h : Runs dumps false (.call .node) c τ (.ok [pair] c' τ')) : isNode pair = true := by
  cases h with
  | quiet h => cases h
  | matched => rfl

theorem runs_tree (hlead : Skip lead r) {o : Answer Rule}
    (h : Runs dumps false (.seq (.call .node) (.call .endOfInput)) ⟨lead, r⟩ .initial o) :
    Runs dumps false Rule.tree.body ⟨[], lead ++ r⟩ .initial o := by
  have hgap := runs_skip hlead [] .initial
  cases o with
  | ok ps c τ => exact .seq (.start rfl) hgap h
  | fail τ => exact .noSecond (.start rfl) hgap h

theorem root_letter (hc : Letter c) (hsolid : Solid (c :: r)) :
    (spot p [] none).verdict (c :: r) =
      verdict ⟨p.advance c, [], none, .word ⟨[c], p, false⟩⟩ r := by
  obtain ⟨-, hslash, -, hclose⟩ := hc.plain
  have hleave : leave ⟨p, [], none, .gap .fresh⟩ .fresh c =
      some ⟨p, [], none, .word ⟨[c], p, false⟩⟩ := by
    simp [leave, begin?, hclose, isWordStart_iff.mpr hc, enter]
  exact verdict_leave rfl hsolid hslash hleave

theorem root_stuck (hsolid : Solid r) (hletter : ∀ c ∈ r.head?, ¬ Letter c) :
    (spot p [] none).verdict r = .error ⟨.missing [.kind], p⟩ := by
  refine Eq.trans (verdict_stuck rfl (fun _ => Gap.noConfusion) hsolid (fun c hc => ?_) ?_) rfl
  · simp [spot, leave, begin?, close?, Bool.eq_false_iff.mpr (mt isWordStart_iff.mp (hletter c hc))]
  · exact fun _ => rfl

theorem end_stuck {o : Outline} (hsolid : Solid r) (hr : r ≠ []) :
    (between p (afterNode o [])).verdict r = .error ⟨.missing [.endOfText], p⟩ := by
  refine Eq.trans (verdict_stuck rfl (fun _ => Gap.noConfusion) hsolid (fun c hc => ?_) ?_) rfl
  · simp [between, afterNode, leave, begin?, close?]
  · exact fun h => absurd h hr

theorem leaf_stuck {h : Head} (hsolid : Solid r) (hends : Ends r) (hr : r ≠ []) :
    (spot p [] (some h)).verdict r = .error ⟨.missing [.endOfText, .children], p⟩ := by
  refine Eq.trans (verdict_stuck rfl (fun _ => Gap.noConfusion) hsolid (fun c hc => ?_) ?_) rfl
  · simp [spot, leave, begin?, close?, attach, hends c hc]
  · exact fun h => absurd h hr

theorem runs_end {b : Bool} {read : List Char} (hready : Ready b τ read) (hr : r ≠ []) :
    Runs dumps false (.call .endOfInput) ⟨read, r⟩ τ (.fail ⟨read, tried b ++ [.endOfInput]⟩) := by
  have hend : Runs dumps false (.call .endOfInput) ⟨read, r⟩ τ _ := .missed rfl (.noFinish hr)
  rwa [hready.missed] at hend

theorem tree_ok {xs gap : List Char} {pair : Pair Rule} {o : Outline} (hlead : Skip lead r)
    (hgap : Skip gap [])
    (run : Runs dumps false (.call .node) ⟨lead, r⟩ .initial (.ok [pair] ⟨lead ++ xs, gap⟩ τ))
    (outline : outline? pair = some o) :
    ∃ a, Runs dumps false (.call .tree) ⟨[], lead ++ r⟩ .initial a ∧ verdict? a = some (.ok o) := by
  have hskip := runs_skip hgap (lead ++ xs) τ
  rw [List.append_nil] at hskip
  have hend : Runs dumps false (.call .endOfInput) ⟨lead ++ xs ++ gap, []⟩ τ _ :=
    .matched rfl (.finish rfl)
  refine ⟨_, .matched rfl (runs_tree hlead (.seq run hskip hend)), ?_⟩
  rw [verdict?, List.singleton_append, List.find?_cons_of_pos (isNode_of_runs run)]
  simp [outline]

theorem tree_fails {τ' : Tries Rule} {e : SyntaxError} (hlead : Skip lead r)
    (run : Runs dumps false (.seq (.call .node) (.call .endOfInput)) ⟨lead, r⟩ .initial (.fail τ'))
    (hmissed : Tries.missed .initial τ' .tree [] = τ') (fault : fault? τ' = some e) :
    ∃ a, Runs dumps false (.call .tree) ⟨[], lead ++ r⟩ .initial a ∧
      verdict? a = some (.error e) := by
  have htree : Runs dumps false (.call .tree) ⟨[], lead ++ r⟩ .initial _ :=
    .missed rfl (runs_tree hlead run)
  rw [hmissed] at htree
  exact ⟨_, htree, by rw [verdict?, fault]; rfl⟩

theorem outline_runs (text : List Char) :
    ∃ a, Runs dumps false (.call .tree) ⟨[], text⟩ .initial a ∧
      verdict? a = some (outline text) := by
  obtain ⟨lead, r, rfl, hlead⟩ := exists_skip text
  have hstart : outline (lead ++ r) = (spot (placeAt lead) [] none).verdict r :=
    verdict_skip .start [] none .fresh hlead
  rw [hstart]
  rcases head?_cases Letter r with ⟨c, r, rfl, hc⟩ | hletter
  · rw [root_letter hc hlead.solid]
    have hrows : RowsBelow r.length := fun _ _ _ _ hready => row_runs hready nofun
    cases node_runs hc (ready_initial lead) hrows with
    | missed run fault failed =>
      rw [failed]
      exact tree_fails hlead (.noFirst run) (missed_tree_once ..) fault
    | @leaf xs r' pair h τ' text nonempty run outline ready solid ends goes =>
      rw [goes]
      by_cases hr : r' = []
      · subst hr
        exact tree_ok hlead (.done solid) run outline
      · rw [leaf_stuck solid ends hr]
        refine tree_fails hlead (.noSecond run (runs_solid solid _ τ') (runs_end ready hr)) ?_ rfl
        exact missed_tree (by simp [nonempty])
    | @braced xs r' pair o τ' text nonempty run outline ready goes =>
      obtain ⟨gap, r', rfl, hgap⟩ := exists_skip r'
      have hskip : (between (placeAt (lead ++ xs)) (afterNode o [])).verdict (gap ++ r') =
          (between (placeAt (lead ++ xs ++ gap)) (afterNode o [])).verdict r' := by
        rw [placeAt_append _ gap]
        exact verdict_skip _ [] (some o) .fresh hgap
      rw [goes, hskip]
      by_cases hr : r' = []
      · subst hr
        rw [List.append_nil] at run
        exact tree_ok hlead hgap run outline
      · rw [end_stuck hgap.solid hr]
        refine tree_fails hlead (.noSecond run (runs_skip hgap _ τ') (runs_end (ready.skip gap) hr))
          ?_ rfl
        exact missed_tree (by simp [nonempty])
    | @doomed xs r' pair τ' e run fault further failed =>
      have hgap := runs_solid (solid_brace r') (lead ++ xs) τ'
      have hend : Runs dumps false (.call .endOfInput) ⟨lead ++ xs, '{' :: r'⟩ τ' _ :=
        .missed rfl (.noFinish (List.cons_ne_nil _ _))
      rw [missed_further further] at hend
      rw [failed]
      refine tree_fails hlead (.noSecond run hgap hend) (missed_tree ?_) fault
      exact List.length_pos_iff.mp (Nat.lt_of_le_of_lt (Nat.zero_le _) further)
  · rw [root_stuck hlead.solid hletter]
    exact tree_fails hlead (.noFirst (runs_noNode (ready_initial lead) hletter))
      (missed_tree_once ..) rfl

/-- The reader says about a text what the rules say. -/
theorem outline_eq_iff {text : List Char} {v : Except SyntaxError Outline} :
    outline text = v ↔
      ∃ a, Runs dumps false (.call .tree) ⟨[], text⟩ .initial a ∧ verdict? a = some v := by
  obtain ⟨a, hruns, hverdict⟩ := outline_runs text
  refine ⟨fun h => ⟨a, hruns, h ▸ hverdict⟩, fun ⟨a', hruns', hverdict'⟩ => ?_⟩
  obtain rfl := hruns.unique hruns'
  exact Option.some.inj (hverdict.symm.trans hverdict')

theorem verdict?_ok {ps : List (Pair Rule)} {c : Position} {v : Except SyntaxError Outline}
    (h : verdict? (.ok ps c τ) = some v) : ∃ o, v = .ok o := by
  unfold verdict? at h
  split at h
  · obtain ⟨o, -, ho⟩ := Option.map_eq_some_iff.mp h
    exact ⟨o, ho.symm⟩
  · cases h
  · rename_i heq
    cases heq

/-- The texts that have a document are those that the rules match. -/
theorem derives_iff_matches {text : List Char} :
    (∃ d : Document, d.Derives text) ↔
      ∃ ps c τ, Runs dumps false (.call .tree) ⟨[], text⟩ .initial (.ok ps c τ) := by
  obtain ⟨a, hruns, hverdict⟩ := outline_runs text
  constructor
  · rintro ⟨d, hd⟩
    rw [outline_iff.mpr ⟨d, hd, rfl⟩] at hverdict
    cases a with
    | ok ps c τ => exact ⟨ps, c, τ, hruns⟩
    | fail τ =>
      obtain ⟨e, -, he⟩ := Option.map_eq_some_iff.mp hverdict
      cases he
  · rintro ⟨ps, c, τ, hmatch⟩
    obtain rfl := hruns.unique hmatch
    obtain ⟨o, ho⟩ := verdict?_ok hverdict
    obtain ⟨d, hd, -⟩ := outline_iff.mp ho
    exact ⟨d, hd⟩

end Texts

end TreeFlow.Reader
