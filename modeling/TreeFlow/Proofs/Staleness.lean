import TreeFlow.Proofs.Drawing
import TreeFlow.Proofs.Entry
import TreeFlow.Proofs.Filling

/-!
# Stale reads of a parameter

The value that came in for a parameter is read stale in a function if and only
if the skeleton of its body says so. A path through the blocks that a skeleton
was drawn into is followed in both directions: what the skeleton reaches is met
by a path, and what a path meets the skeleton reaches. The second is by
induction on the jumps of the path, since a loop comes back to its test.
-/

set_option autoImplicit false

namespace TreeFlow

/-! ## Reads met from a mark -/

section Marks

variable {g : Function} {v p : Value} {n : Nat} {μ μ' : Mark} {c : List Instr} {x : Terminator}
  {q : Point}

theorem Mark.Ahead.meets (h : μ.Ahead n μ') {j : Nat} :
    g.Meets v j μ'.block μ'.offset ↔ g.Meets v j μ.block (μ.offset + n) := by
  rw [h.block, h.offset]

theorem Function.Holds.meets_iff (h : g.Holds μ c) :
    g.Meets v n μ.block μ.offset ↔
      n = 0 ∧ Mentioned v c ∨ g.Meets v n μ.block (μ.offset + c.length) := by
  obtain ⟨k, hk, rest, hrest⟩ := h
  cases n with
  | succ n => exact ⟨.inr, fun h => h.resolve_left fun h => Nat.succ_ne_zero n h.1⟩
  | zero =>
    have hdrop : k.instrs.drop (μ.offset + c.length) = rest := by
      rw [← List.drop_drop, ← hrest, List.drop_left]
    simp only [Meets, hk, Option.some.injEq, exists_eq_left', hdrop, ← hrest, true_and]
    simp only [List.mem_append, or_and_right, exists_or, Mentioned, or_assoc]

theorem Function.Ends.meets_iff (h : g.Ends μ x) :
    g.Meets v n μ.block μ.offset ↔
      n = 0 ∧ v ∈ x.operands ∨ ∃ j ∈ x.successors, ∃ i, n = i + 1 ∧ g.Meets v i j 0 := by
  obtain ⟨k, hk, hlen, hx⟩ := h
  cases n with
  | zero =>
    simp [Meets, hk, ← hlen, hx]
  | succ n =>
    simp [Meets, hk, hx]

theorem Function.Ends.meets_br {j : Nat} (h : g.Ends μ (.br j)) :
    g.Meets v n μ.block μ.offset ↔ ∃ i, n = i + 1 ∧ g.Meets v i j 0 := by
  rw [h.meets_iff]
  simp [Terminator.operands, Terminator.successors]

theorem Function.Holds.meets_end {r : Nat} (h : g.Holds μ c)
    (hend : g.Ends (μ.after c.length r) x) :
    g.Meets v n μ.block μ.offset ↔
      n = 0 ∧ (Mentioned v c ∨ v ∈ x.operands) ∨
        ∃ j ∈ x.successors, ∃ i, n = i + 1 ∧ g.Meets v i j 0 := by
  have hafter := hend.meets_iff (v := v) (n := n)
  simp only [Mark.after_block, Mark.after_offset] at hafter
  rw [h.meets_iff, hafter, and_or_left, or_assoc]

theorem Function.Holds.meets_test {w : Value} {r y z : Nat} {reads : Bool} (h : g.Holds μ c)
    (hend : g.Ends (μ.after c.length r) (.condBr w y z)) (hw : w ≠ v)
    (hread : Mentioned v c ↔ reads = true) :
    g.Meets v n μ.block μ.offset ↔
      n = 0 ∧ reads = true ∨ ∃ i, n = i + 1 ∧ (g.Meets v i y 0 ∨ g.Meets v i z 0) := by
  rw [h.meets_end hend, hread]
  simp [Terminator.operands, Terminator.successors, hw.symm, and_or_left, exists_or]

theorem Function.Holds.meets_ret {w : Option Value} {r : Nat} (h : g.Holds μ c)
    (hend : g.Ends (μ.after c.length r) (.ret w)) :
    g.Meets v n μ.block μ.offset ↔
      n = 0 ∧ (Mentioned v c ∨ v ∈ (Terminator.ret w).operands) := by
  rw [h.meets_end hend]
  simp [Terminator.successors]

theorem Function.Holds.not_writes (h : g.Holds μ c) (hc : Quiet p c) (hb : q.block = μ.block)
    (hle : μ.offset ≤ q.offset) (hlt : q.offset < μ.offset + c.length) :
    ¬ g.Writes p q.block q.offset := by
  obtain ⟨k, hk, rest, hrest⟩ := h
  rintro ⟨k', w, hk', hw⟩
  obtain rfl : k = k' := by simpa [← hb, hk'] using hk.symm
  refine hc (.store w p) ?_ w rfl
  have hat : (k.instrs.drop μ.offset)[q.offset - μ.offset]? = some (.store w p) := by
    rw [List.getElem?_drop, Nat.add_sub_cancel' hle, hw]
  rw [← hrest, List.getElem?_append_left (by omega)] at hat
  exact List.mem_of_getElem? hat

theorem Function.Ends.not_writes (h : g.Ends μ x) (hb : q.block = μ.block)
    (hle : μ.offset ≤ q.offset) : ¬ g.Writes p q.block q.offset := by
  obtain ⟨k, hk, hlen, -⟩ := h
  rintro ⟨k', w, hk', hw⟩
  obtain rfl : k = k' := by simpa [← hb, hk'] using hk.symm
  have := (List.getElem?_eq_some_iff.mp hw).1
  omega

theorem Function.Holds.not_writes_end {r : Nat} (h : g.Holds μ c) (hc : Quiet p c)
    (hend : g.Ends (μ.after c.length r) x) (hb : q.block = μ.block) (hle : μ.offset ≤ q.offset) :
    ¬ g.Writes p q.block q.offset := by
  by_cases hlt : q.offset < μ.offset + c.length
  · exact h.not_writes hc hb hle hlt
  · exact hend.not_writes hb (Nat.not_lt.mp hlt)

end Marks

/-! ## Reads met and reads reached -/

/-- What is met behind a statement within some jumps, its exits reach. -/
structure Exits.Bounds (g : Function) (v : Value) (N : Nat) (ls : List LoopTargets) (μ : Mark)
    (k : Exits) : Prop where
  next : μ.ended = false → ∀ n ≤ N, g.Meets v n μ.block μ.offset → k.next = true
  onBreak : ∀ l ∈ ls.head?, ∀ n ≤ N, g.Meets v n l.onBreak 0 → k.onBreak = true
  onContinue : ∀ l ∈ ls.head?, ∀ n ≤ N, g.Meets v n l.onContinue 0 → k.onContinue = true

/-- What the exits of a statement reach is met behind it. -/
structure Exits.Realised (g : Function) (v : Value) (ls : List LoopTargets) (μ : Mark)
    (k : Exits) : Prop where
  next : k.next = true → μ.ended = false → ∃ n, g.Meets v n μ.block μ.offset
  onBreak : ∀ l ∈ ls.head?, k.onBreak = true → ∃ n, g.Meets v n l.onBreak 0
  onContinue : ∀ l ∈ ls.head?, k.onContinue = true → ∃ n, g.Meets v n l.onContinue 0

section Reaching

variable {g : Function} {v p : Value} {s body : Skeleton} {ls : List LoopTargets} {μ μ' μ₁ : Mark}
  {k : Exits} {N n : Nat}

theorem Exits.Bounds.le (h : k.Bounds g v N ls μ) (hn : n ≤ N) : k.Bounds g v n ls μ where
  next he j hj := h.next he j (Nat.le_trans hj hn)
  onBreak l hl j hj := h.onBreak l hl j (Nat.le_trans hj hn)
  onContinue l hl j hj := h.onContinue l hl j (Nat.le_trans hj hn)

theorem Exits.Bounds.first {next : Bool} (h : k.Bounds g v N ls μ')
    (hnext : ∀ n ≤ N, g.Meets v n μ.block μ.offset → next = true) :
    Exits.Bounds g v N ls μ { k with next } :=
  ⟨fun _ => hnext, h.onBreak, h.onContinue⟩

theorem Exits.Realised.first {next : Bool} (h : k.Realised g v ls μ')
    (hnext : next = true → ∃ n, g.Meets v n μ.block μ.offset) :
    Exits.Realised g v ls μ { k with next } :=
  ⟨fun hs _ => hnext hs, h.onBreak, h.onContinue⟩

theorem Exits.Bounds.arm {e : Nat} (h : k.Bounds g v N ls (μ.head e)) (hf : g.Falls μ' e) :
    k.Bounds g v N ls μ' where
  next he n hn hm := by
    obtain ⟨i, rfl, hi⟩ := (hf he).meets_br.mp hm
    exact h.next rfl i (Nat.le_of_succ_le hn) hi
  onBreak := h.onBreak
  onContinue := h.onContinue

theorem Exits.Realised.arm {e : Nat} (h : k.Realised g v ls (μ.head e)) (hf : g.Falls μ' e) :
    k.Realised g v ls μ' where
  next hk he := by
    obtain ⟨i, hi⟩ := h.next hk rfl
    exact ⟨i + 1, (hf he).meets_br.mpr ⟨i, rfl, hi⟩⟩
  onBreak := h.onBreak
  onContinue := h.onContinue

theorem Exits.Bounds.round {test : Bool} {b e : Nat} (h : k.Bounds g v N ls (μ.head e))
    (hf : g.Falls μ' b) (htest : ∀ n ≤ N, g.Meets v n b 0 → test = true) :
    Exits.Bounds g v N (⟨b, e⟩ :: ls) μ' ⟨test, k.next, test⟩ where
  next he n hn hm := by
    obtain ⟨i, rfl, hi⟩ := (hf he).meets_br.mp hm
    exact htest i (Nat.le_of_succ_le hn) hi
  onBreak l hl n hn hm := by
    cases hl
    exact h.next rfl n hn hm
  onContinue l hl n hn hm := by
    cases hl
    exact htest n hn hm

theorem Exits.Realised.round {test : Bool} {b e : Nat} (h : k.Realised g v ls (μ.head e))
    (hf : g.Falls μ' b) (htest : test = true → ∃ n, g.Meets v n b 0) :
    Exits.Realised g v (⟨b, e⟩ :: ls) μ' ⟨test, k.next, test⟩ where
  next hk he := by
    obtain ⟨i, hi⟩ := htest hk
    exact ⟨i + 1, (hf he).meets_br.mpr ⟨i, rfl, hi⟩⟩
  onBreak l hl hk := by
    cases hl
    exact h.next hk rfl
  onContinue l hl hk := by
    cases hl
    exact htest hk

/-- What is met from the test of a loop, the loop reaches, if the same holds of
its body. The induction is on the jumps. -/
theorem Exits.Bounds.test {reads : Bool} {b e y : Nat} (h : k.Bounds g v N ls (μ.head e))
    (hf : g.Falls μ' b)
    (htest : ∀ n, g.Meets v n b 0 ↔
      n = 0 ∧ reads = true ∨ ∃ i, n = i + 1 ∧ (g.Meets v i y 0 ∨ g.Meets v i e 0))
    (hbody : ∀ i k', Exits.Bounds g v i (⟨b, e⟩ :: ls) μ' k' → g.Meets v i y 0 →
      body.reaches k' = true) (hn : n ≤ N) (hm : g.Meets v n b 0) :
    (Skeleton.loop reads body).reaches k = true := by
  induction n using Nat.strongRecOn with
  | ind n ih =>
    rcases (htest n).mp hm with ⟨-, hreads⟩ | ⟨i, rfl, hm | hm⟩
    · simp [Skeleton.reaches, hreads]
    · have hi := Nat.le_of_succ_le hn
      refine Skeleton.reaches_round rfl (hbody i _ ?_ hm)
      refine (h.le hi).round hf fun j hj hmet => ?_
      exact ih j (Nat.lt_succ_of_le hj) (Nat.le_trans hj hi) hmet
    · simp [Skeleton.reaches, h.next rfl i (Nat.le_of_succ_le hn) hm]

theorem Exits.Realised.test {reads : Bool} {b e y : Nat} (h : k.Realised g v ls (μ.head e))
    (hf : g.Falls μ' b)
    (htest : ∀ n, g.Meets v n b 0 ↔
      n = 0 ∧ reads = true ∨ ∃ i, n = i + 1 ∧ (g.Meets v i y 0 ∨ g.Meets v i e 0))
    (hbody : ∀ k', Exits.Realised g v (⟨b, e⟩ :: ls) μ' k' → body.reaches k' = true →
      ∃ n, g.Meets v n y 0) (hs : (Skeleton.loop reads body).reaches k = true) :
    ∃ n, g.Meets v n b 0 := by
  simp only [Skeleton.reaches, Bool.or_eq_true] at hs
  rcases hs with (hreads | hs) | hs
  · exact ⟨0, (htest 0).mpr (.inl ⟨rfl, hreads⟩)⟩
  · obtain ⟨n, hn⟩ := h.next hs rfl
    exact ⟨n + 1, (htest _).mpr (.inr ⟨n, rfl, .inr hn⟩)⟩
  · obtain ⟨n, hn⟩ := hbody _ (h.round hf fun h => absurd h Bool.false_ne_true) hs
    exact ⟨n + 1, (htest _).mpr (.inr ⟨n, rfl, .inl hn⟩)⟩

/-- What is met from the start of a drawn skeleton, the skeleton reaches. -/
theorem Drawn.reaches_of_meets (h : Drawn g v p s ls μ μ') (hμ : μ.ended = false)
    (hk : k.Bounds g v N ls μ') (hn : n ≤ N) (hm : g.Meets v n μ.block μ.offset) :
    s.reaches k = true := by
  induction h generalizing k N n with
  | idle ahead =>
    exact hk.next (ahead.ended.trans hμ) n hn (ahead.meets.mpr hm)
  | code holds _ read ahead =>
    rcases holds.meets_iff.mp hm with ⟨-, hc⟩ | hm
    · simp [Skeleton.reaches, read.mp hc]
    · simp [Skeleton.reaches, hk.next (ahead.ended.trans hμ) n hn (ahead.meets.mpr hm)]
  | store holds _ unread ahead =>
    rcases holds.meets_iff.mp hm with ⟨-, hc⟩ | hm
    · exact absurd hc unread
    · rw [List.length_append, List.length_singleton] at hm
      exact hk.next (ahead.ended.trans hμ) n hn (ahead.meets.mpr hm)
  | stop holds _ ends read => exact read.mp ((holds.meets_ret ends).mp hm).2
  | leave ends =>
    obtain ⟨i, rfl, hi⟩ := ends.meets_br.mp hm
    exact hk.onBreak _ rfl i (Nat.le_of_succ_le hn) hi
  | again ends =>
    obtain ⟨i, rfl, hi⟩ := ends.meets_br.mp hm
    exact hk.onContinue _ rfl i (Nat.le_of_succ_le hn) hi
  | seq _ unended _ ih₁ ih₂ =>
    exact ih₁ hμ (hk.first fun _ hj hmet => ih₂ unended hk hj hmet) hn hm
  | loop enters holds _ read other branches _ back ih =>
    obtain ⟨i, rfl, hi⟩ := enters.meets_br.mp hm
    exact hk.test back (fun _ => holds.meets_test branches other read)
      (fun j k' hk' hmet => ih rfl hk' (Nat.le_refl j) hmet) (Nat.le_of_succ_le hn) hi
  | ifThen holds _ read other branches _ joins ih =>
    rcases (holds.meets_test branches other read).mp hm with ⟨-, hreads⟩ | ⟨i, rfl, hi | hi⟩
    · simp [Skeleton.reaches, hreads]
    · simp [Skeleton.reaches, ih rfl (hk.arm joins) (Nat.le_of_succ_le hn) hi]
    · simp [Skeleton.reaches, hk.next rfl i (Nat.le_of_succ_le hn) hi]
  | ifElse holds _ read other branches _ joins _ joins' ih₁ ih₂ =>
    rcases (holds.meets_test branches other read).mp hm with ⟨-, hreads⟩ | ⟨i, rfl, hi | hi⟩
    · simp [Skeleton.reaches, hreads]
    · simp [Skeleton.reaches, ih₁ rfl (hk.arm joins) (Nat.le_of_succ_le hn) hi]
    · simp [Skeleton.reaches, ih₂ rfl (hk.arm joins') (Nat.le_of_succ_le hn) hi]

/-- What a drawn skeleton reaches is met from its start. -/
theorem Drawn.meets_of_reaches (h : Drawn g v p s ls μ μ') (hμ : μ.ended = false)
    (hk : k.Realised g v ls μ') (hs : s.reaches k = true) :
    ∃ n, g.Meets v n μ.block μ.offset := by
  induction h generalizing k with
  | idle ahead =>
    obtain ⟨n, hn⟩ := hk.next hs (ahead.ended.trans hμ)
    exact ⟨n, ahead.meets.mp hn⟩
  | code holds _ read ahead =>
    rcases Bool.or_eq_true_iff.mp hs with hc | hs
    · exact ⟨0, holds.meets_iff.mpr (.inl ⟨rfl, read.mpr hc⟩)⟩
    · obtain ⟨n, hn⟩ := hk.next hs (ahead.ended.trans hμ)
      exact ⟨n, holds.meets_iff.mpr (.inr (ahead.meets.mp hn))⟩
  | store holds _ _ ahead =>
    obtain ⟨n, hn⟩ := hk.next hs (ahead.ended.trans hμ)
    refine ⟨n, holds.meets_iff.mpr (.inr ?_)⟩
    rw [List.length_append, List.length_singleton]
    exact ahead.meets.mp hn
  | stop holds _ ends read => exact ⟨0, (holds.meets_ret ends).mpr ⟨rfl, read.mpr hs⟩⟩
  | leave ends =>
    obtain ⟨n, hn⟩ := hk.onBreak _ rfl hs
    exact ⟨n + 1, ends.meets_br.mpr ⟨n, rfl, hn⟩⟩
  | again ends =>
    obtain ⟨n, hn⟩ := hk.onContinue _ rfl hs
    exact ⟨n + 1, ends.meets_br.mpr ⟨n, rfl, hn⟩⟩
  | seq _ unended _ ih₁ ih₂ =>
    exact ih₁ hμ (hk.first (ih₂ unended hk)) hs
  | loop enters holds _ read other branches _ back ih =>
    obtain ⟨n, hn⟩ := hk.test back (fun _ => holds.meets_test branches other read)
      (fun k' hk' hbody => ih rfl hk' hbody) hs
    exact ⟨n + 1, enters.meets_br.mpr ⟨n, rfl, hn⟩⟩
  | ifThen holds _ read other branches _ joins ih =>
    simp only [Skeleton.reaches, Bool.or_eq_true, Bool.false_or] at hs
    rcases hs with (hreads | hs) | hs
    · exact ⟨0, (holds.meets_test branches other read).mpr (.inl ⟨rfl, hreads⟩)⟩
    · obtain ⟨n, hn⟩ := ih rfl (hk.arm joins) hs
      exact ⟨n + 1, (holds.meets_test branches other read).mpr (.inr ⟨n, rfl, .inl hn⟩)⟩
    · obtain ⟨n, hn⟩ := hk.next hs rfl
      exact ⟨n + 1, (holds.meets_test branches other read).mpr (.inr ⟨n, rfl, .inr hn⟩)⟩
  | ifElse holds _ read other branches _ joins _ joins' ih₁ ih₂ =>
    simp only [Skeleton.reaches, Bool.or_eq_true] at hs
    rcases hs with (hreads | hs) | hs
    · exact ⟨0, (holds.meets_test branches other read).mpr (.inl ⟨rfl, hreads⟩)⟩
    · obtain ⟨n, hn⟩ := ih₁ rfl (hk.arm joins) hs
      exact ⟨n + 1, (holds.meets_test branches other read).mpr (.inr ⟨n, rfl, .inl hn⟩)⟩
    · obtain ⟨n, hn⟩ := ih₂ rfl (hk.arm joins') hs
      exact ⟨n + 1, (holds.meets_test branches other read).mpr (.inr ⟨n, rfl, .inr hn⟩)⟩

end Reaching

/-! ## Stores that go stale -/

def Function.StaleAt (g : Function) (v p : Value) (q : Point) : Prop :=
  g.Writes p q.block q.offset ∧ ∃ n, g.Meets v n q.block (q.offset + 1)

section Storing

variable {g : Function} {v p : Value} {s : Skeleton} {ls : List LoopTargets} {μ μ' : Mark}
  {k : Exits} {q : Point}

theorem Drawn.staleAt_of_stale (h : Drawn g v p s ls μ μ') (hμ : μ.ended = false)
    (hk : k.Realised g v ls μ') (hs : s.stale k = true) : ∃ q, g.StaleAt v p q := by
  induction h generalizing k with
  | idle => cases hs
  | code => cases hs
  | stop => cases hs
  | leave => cases hs
  | again => cases hs
  | @store ls μ μ' c w holds _ _ ahead =>
    obtain ⟨n, hn⟩ := hk.next hs (ahead.ended.trans hμ)
    refine ⟨⟨μ.block, μ.offset + c.length⟩, ?_, n, ahead.meets.mp hn⟩
    obtain ⟨l, hl, rest, hrest⟩ := holds
    refine ⟨l, w, hl, ?_⟩
    rw [← List.getElem?_drop, ← hrest]
    simp
  | seq _ unended rest ih₁ ih₂ =>
    rcases Bool.or_eq_true_iff.mp hs with hs | hs
    · exact ih₁ hμ (hk.first (rest.meets_of_reaches unended hk)) hs
    · exact ih₂ unended hk hs
  | loop _ holds _ read other branches inside back ih =>
    refine ih rfl (hk.round back ?_) hs
    exact hk.test back (fun _ => holds.meets_test branches other read)
      fun k' hk' hbody => inside.meets_of_reaches rfl hk' hbody
  | ifThen _ _ _ _ _ _ joins ih =>
    rcases Bool.or_eq_true_iff.mp hs with hs | hs
    · exact ih rfl (hk.arm joins) hs
    · cases hs
  | ifElse _ _ _ _ _ _ joins _ joins' ih₁ ih₂ =>
    rcases Bool.or_eq_true_iff.mp hs with hs | hs
    · exact ih₁ rfl (hk.arm joins) hs
    · exact ih₂ rfl (hk.arm joins') hs

theorem Mark.Awaits.ahead {n : Nat} (ha : μ.Awaits q) (h : μ.Ahead n μ') :
    q.block = μ.block ∧ μ.offset ≤ q.offset ∧ q.offset < μ.offset + n ∨ μ'.Awaits q := by
  rcases ha with ⟨hb, hle, he⟩ | ha
  · by_cases hlt : q.offset < μ.offset + n
    · exact .inl ⟨hb, hle, hlt⟩
    · exact .inr (.inl ⟨hb.trans h.block.symm, h.offset ▸ Nat.not_lt.mp hlt, h.ended.trans he⟩)
  · exact .inr (.inr (h.blocks ▸ ha))

theorem Mark.awaits_head {b : Nat} (h : q.block = b ∨ μ.blocks ≤ q.block) : (μ.head b).Awaits q :=
  h.imp_left fun hb => ⟨hb, Nat.zero_le _, rfl⟩

theorem Mark.Awaits.stop (ha : μ.Awaits q) (hq : g.StaleAt v p q) (hblocks : μ'.blocks = μ.blocks)
    (hend : q.block = μ.block → μ.offset ≤ q.offset → ¬ g.Writes p q.block q.offset) :
    μ'.Awaits q := by
  rcases ha with ⟨hb, hle, -⟩ | ha
  · exact absurd hq.1 (hend hb hle)
  · exact .inr (hblocks ▸ ha)

theorem Function.Falls.awaits {e : Nat} (h : g.Falls μ e) (hq : g.StaleAt v p q)
    (ha : μ.Awaits q) : μ.blocks ≤ q.block := by
  rcases ha with ⟨hb, hle, he⟩ | ha
  · exact absurd hq.1 ((h he).not_writes hb hle)
  · exact ha

theorem Drawn.stale_of_staleAt (h : Drawn g v p s ls μ μ') (hμ : μ.ended = false)
    (hk : ∀ N, k.Bounds g v N ls μ') (hq : g.StaleAt v p q) (ha : μ.Awaits q) :
    μ'.Awaits q ∨ s.stale k = true := by
  induction h generalizing k with
  | idle ahead =>
    rcases ha.ahead ahead with ⟨-, hle, hlt⟩ | ha
    · exact absurd hlt (Nat.not_lt.mpr hle)
    · exact .inl ha
  | code holds quiet _ ahead =>
    rcases ha.ahead ahead with ⟨hb, hle, hlt⟩ | ha
    · exact absurd hq.1 (holds.not_writes quiet hb hle hlt)
    · exact .inl ha
  | @store ls μ μ' c w holds quiet _ ahead =>
    rcases ha.ahead ahead with ⟨hb, hle, hlt⟩ | ha
    · -- The point is the store itself, since nothing before it stores to the slot.
      obtain ⟨l, hl, hcode⟩ := holds
      have hc : g.Holds μ c := ⟨l, hl, (List.prefix_append _ _).trans hcode⟩
      have hat : q.offset = μ.offset + c.length := by
        by_cases hlt' : q.offset < μ.offset + c.length
        · exact absurd hq.1 (hc.not_writes quiet hb hle hlt')
        · omega
      obtain ⟨-, n, hn⟩ := hq
      rw [hb, hat] at hn
      exact .inr ((hk n).next (ahead.ended.trans hμ) n (Nat.le_refl n) (ahead.meets.mpr hn))
    · exact .inl ha
  | stop holds quiet ends => exact .inl (ha.stop hq rfl (holds.not_writes_end quiet ends))
  | leave ends => exact .inl (ha.stop hq rfl ends.not_writes)
  | again ends => exact .inl (ha.stop hq rfl ends.not_writes)
  | seq _ unended rest ih₁ ih₂ =>
    have hfirst := fun N => (hk N).first fun _ hn => rest.reaches_of_meets unended (hk N) hn
    rcases ih₁ hμ hfirst ha with ha | hs
    · refine (ih₂ unended hk ha).imp_right fun hs => ?_
      rw [Skeleton.stale, hs, Bool.or_true]
    · refine .inr ?_
      rw [Skeleton.stale, hs, Bool.true_or]
  | @loop _ _ _ μ μ₁ _ _ _ enters holds quiet read other branches inside back ih =>
    rcases ha with ⟨hb, hle, -⟩ | ha
    · exact absurd hq.1 (enters.not_writes hb hle)
    · -- The test does not store, and the block behind the loop is left for later.
      by_cases htest : q.block = μ.blocks
      · exact absurd hq.1 (holds.not_writes_end quiet branches htest (Nat.zero_le _))
      · by_cases hend : q.block = μ.blocks + 2
        · exact .inl (Mark.awaits_head (.inl hend))
        · have hround := fun N => (hk N).round back fun _ hn =>
            (hk N).test back (fun _ => holds.meets_test branches other read)
              (fun _ _ hk' hmet => inside.reaches_of_meets rfl hk' (Nat.le_refl _) hmet) hn
          rcases ih rfl hround (Mark.awaits_head (by simp; omega)) with ha | hs
          · exact .inl (Mark.awaits_head (.inr (back.awaits hq ha)))
          · exact .inr hs
  | @ifThen _ _ _ μ _ _ _ _ holds quiet _ _ branches _ joins ih =>
    rcases ha with ⟨hb, hle, -⟩ | ha
    · exact absurd hq.1 (holds.not_writes_end quiet branches hb hle)
    · by_cases hend : q.block = μ.blocks + 1
      · exact .inl (Mark.awaits_head (.inl hend))
      · rcases ih rfl (fun N => (hk N).arm joins) (Mark.awaits_head (by simp; omega)) with ha | hs
        · exact .inl (Mark.awaits_head (.inr (joins.awaits hq ha)))
        · refine .inr ?_
          rw [Skeleton.stale, hs, Bool.true_or]
  | @ifElse reads yes no _ μ μ₁ μ₂ _ _ _ holds quiet _ _ branches inside joins _ joins' ih₁ ih₂ =>
    rcases ha with ⟨hb, hle, -⟩ | ha
    · exact absurd hq.1 (holds.not_writes_end quiet branches hb hle)
    · by_cases hend : q.block = μ.blocks + 1
      · exact .inl (Mark.awaits_head (.inl hend))
      · have hno : q.block = μ.blocks + 2 ∨ μ₁.blocks ≤ q.block →
            (μ₂.head (μ.blocks + 1)).Awaits q ∨ (Skeleton.branch reads yes no).stale k = true := by
          intro ha
          rcases ih₂ rfl (fun N => (hk N).arm joins') (Mark.awaits_head ha) with ha | hs
          · exact .inl (Mark.awaits_head (.inr (joins'.awaits hq ha)))
          · refine .inr ?_
            rw [Skeleton.stale, hs, Bool.or_true]
        by_cases hsecond : q.block = μ.blocks + 2
        · exact hno (.inl hsecond)
        · have hyes := fun N => (hk N).arm joins
          rcases ih₁ rfl hyes (Mark.awaits_head (by simp; omega)) with ha | hs
          · exact hno (.inr (joins.awaits hq ha))
          · refine .inr ?_
            rw [Skeleton.stale, hs, Bool.true_or]

end Storing

/-! ## Compiled functions -/

section Compiled

variable {m : Module} {constants : List (String × Int)} {t : Tree} {id : Nat} {g : Function}
  {x : String} {v p : Value} {q : Piece} {ls : List LoopTargets} {μ μ' : Mark}

theorem Lays.seed_bound {entry : Scope} (h : Lays m g q ls μ μ') (hb : μ.Placed entry g) {j : Nat}
    {sd : Seed} (hle : μ.seeds ≤ j) (hlt : j < μ'.seeds) (hsd : g.seeds[j]? = some sd) :
    ∃ x, entry.local? x = some (.register sd.value) := by
  induction h with
  | assign _ _ _ target =>
    cases target with
    | slot => exact absurd hlt (Nat.not_lt.mpr hle)
    | promote bound _ seed =>
      obtain rfl := Nat.le_antisymm hle (Nat.le_of_lt_succ hlt)
      obtain rfl := Option.some.inj (seed.symm.trans hsd)
      exact ⟨_, hb.registers _ _ (Scope.local?_of_lookup bound)⟩
  | loop _ _ _ code _ _ _ _ ih => exact ih (hb.mono (fun _ => rfl) code.registers_le) hle hlt
  | ifThen _ _ _ code _ _ _ _ ih => exact ih (hb.mono (fun _ => rfl) code.registers_le) hle hlt
  | @ifElse _ _ _ _ _ μ μ₁ _ c _ r _ _ _ _ code _ _ inside _ _ _ ih₁ ih₂ =>
    have hyes : (((μ.after c.length r).grow 3).head μ.blocks).Placed entry g :=
      hb.mono (fun _ => rfl) code.registers_le
    by_cases hj : j < μ₁.seeds
    · exact ih₁ hyes hle hj
    · exact ih₂ ((inside.placed hyes).mono (fun _ => rfl) (Nat.le_refl _)) (Nat.not_lt.mp hj) hlt
  | block _ _ ih => exact ih hb hle hlt
  | @cons _ _ _ _ μ₁ _ _ first _ ih₁ ih₂ =>
    by_cases hj : j < μ₁.seeds
    · exact ih₁ hb hle hj
    · exact ih₂ (first.placed hb) (Nat.not_lt.mp hj) hlt
  | _ => exact absurd hlt (Nat.not_lt.mpr hle)

theorem Mark.entry_binds
    (hx : (Mark.entry constants g.toSignature).scope.local? x = some (.register v)) :
    (Mark.entry constants g.toSignature).Binds g x v .entry := by
  have hparam : ∀ {y}, (Mark.entry constants g.toSignature).scope.local? y = some (.register v) →
      ∃ i p, g.params[i]? = some p ∧ p.name = y ∧ v = .param i p.ty := by
    intro y hy
    obtain ⟨w, hw, he⟩ := Lower.mem_of_parameterScope hy
    cases he
    exact Function.mem_arguments.mp hw
  refine ⟨fun y => ⟨fun hy => ⟨?_, rfl⟩, fun h => h.1 ▸ hx⟩, ?_, nofun, nofun, fun y w ty hy => ?_,
    nofun⟩
  · obtain ⟨i, p, hp, rfl, rfl⟩ := hparam hy
    obtain ⟨i', p', hp', rfl, he⟩ := hparam hx
    obtain rfl := (Value.param.inj he).1
    rw [Option.some.inj (hp.symm.trans hp')]
  · refine ⟨fun h => absurd h Bool.false_ne_true, ?_⟩
    rintro ⟨j, w, hj, -⟩
    exact absurd hj (Nat.not_lt_zero j)
  · obtain ⟨w', he⟩ := Mark.entry_register hy
    cases he

theorem Module.Compiles.seed_once (h : m.Compiles constants t id g) {j j' : Nat} {sd sd' : Seed}
    (hj : g.seeds[j]? = some sd) (hj' : g.seeds[j']? = some sd') (hv : sd'.value = sd.value) :
    j' = j := by
  obtain ⟨_, _, _, -, μ, hlays, -, -, -, -, hseeds⟩ := h.body
  have hall : ∀ {j sd}, g.seeds[j]? = some sd → j < μ.seeds := fun hsd =>
    hseeds ▸ (List.getElem?_eq_some_iff.mp hsd).1
  obtain ⟨x, hx⟩ := hlays.seed_bound (Mark.entry_backed g).toPlaced (Nat.zero_le j) (hall hj) hj
  have hbinds := (hlays.traced rfl (Mark.entry_binds hx)).1
  refine hbinds.once j' j sd'.pointer sd.pointer (hall hj') (hall hj) ?_ hj
  rw [hj', ← hv]

/-- The body of a function has the skeleton of its declaration, for the name of
each parameter that is seeded into a slot. -/
theorem Module.Compiles.drawn (h : m.Compiles constants t id g) (hseed : ⟨v, p⟩ ∈ g.seeds) :
    ∃ i x μ, v = .param i .i32 ∧ t.parameterNames[i]? = some x ∧ g.SeedsOnly v p ∧
      Drawn g v p ((Piece.many t.statements).trace x .entry).1 []
        (.entry constants g.toSignature) μ ∧
      (μ.ended = false → g.Ends μ (.ret (Lower.defaultReturn g.ret))) ∧
      g.bodies.length = μ.blocks := by
  obtain ⟨result, params, body, hts, μ, hlays, hend, hblocks, -, -, hseeds⟩ := h.body
  obtain ⟨_, _, _, hts', -, -, hparams, -⟩ := Lower.signature_ok h.signature
  obtain ⟨rfl, rfl, rfl⟩ : result = _ ∧ params = _ ∧ body = _ := by simpa [hts] using hts'
  obtain ⟨hnames, hints⟩ := Lower.parameters_ok hparams
  -- The seed comes from a name that is bound at the start, to the parameter.
  obtain ⟨j, hj⟩ := List.getElem?_of_mem hseed
  have hall : ∀ {j sd}, g.seeds[j]? = some sd → j < μ.seeds := fun hsd =>
    hseeds ▸ (List.getElem?_eq_some_iff.mp hsd).1
  obtain ⟨x, hx⟩ := hlays.seed_bound (Mark.entry_backed g).toPlaced (Nat.zero_le j) (hall hj) hj
  obtain ⟨w, hw, he⟩ := Lower.mem_of_parameterScope hx
  cases he
  obtain ⟨i, param, hparam, rfl, hv⟩ := Function.mem_arguments.mp hw
  obtain rfl : v = .param i .i32 := by
    rw [← hints param (List.mem_of_getElem? hparam)]
    exact hv
  have hb := Mark.entry_binds (g := g) hx
  have hbinds := (hlays.traced rfl hb).1
  have honly : ∀ s ∈ g.seeds, s.value = .param i .i32 → s.pointer = p := by
    rintro ⟨w, p'⟩ hs rfl
    obtain ⟨j', hj'⟩ := List.getElem?_of_mem hs
    obtain rfl := h.seed_once hj hj' rfl
    exact congrArg Seed.pointer (Option.some.inj (hj'.symm.trans hj))
  refine ⟨i, param.name, μ, rfl, ?_, fun s hs => ⟨honly s hs, ?_⟩, ?_, hend, hblocks⟩
  · have hname : t.parameterNames = g.params.map Param.name := by
      simp [Tree.parameterNames, hts, hnames]
    rw [hname, List.getElem?_map, show g.params[i]? = some param from hparam]
    rfl
  · obtain ⟨j', hj'⟩ := List.getElem?_of_mem hs
    obtain ⟨d, ty, hd, -⟩ := hbinds.seeds j' s (hall hj') hj'
    rw [hd]
    exact Value.noConfusion
  · have hstatements : t.statements = body.children := by simp [Tree.statements, hts]
    rw [hstatements]
    refine hlays.drawn ⟨⟨i, rfl⟩, hseed, honly⟩ rfl hb fun j' sd hle hsd => ?_
    exact absurd (hall hsd) (Nat.not_lt.mpr hle)

theorem Exits.none_bounds {i N : Nat} {ty ret : Ty}
    (hend : μ.ended = false → g.Ends μ (.ret (Lower.defaultReturn ret))) :
    Exits.none.Bounds g (.param i ty) N [] μ where
  next he n _ hm := by
    rw [(hend he).meets_iff] at hm
    rcases hm with ⟨-, hv⟩ | ⟨j, hj, -⟩
    · unfold Lower.defaultReturn at hv
      split at hv
      · cases hv
      · cases List.mem_singleton.mp hv
    · cases hj
  onBreak l hl := absurd hl (Option.not_mem_none l)
  onContinue l hl := absurd hl (Option.not_mem_none l)

theorem Exits.none_realised : Exits.none.Realised g v [] μ where
  next h := absurd h Bool.false_ne_true
  onBreak l hl := absurd hl (Option.not_mem_none l)
  onContinue l hl := absurd hl (Option.not_mem_none l)

theorem Module.Compiles.readsStale_iff (h : m.Compiles constants t id g)
    (hseed : ⟨v, p⟩ ∈ g.seeds) :
    ∃ i x, v = .param i .i32 ∧ t.parameterNames[i]? = some x ∧
      (g.ReadsStale v p ↔ t.readsStale x = true) := by
  obtain ⟨i, x, μ, rfl, hx, honly, hdrawn, hend, hblocks⟩ := h.drawn hseed
  refine ⟨i, x, rfl, hx, ?_⟩
  rw [Function.readsStale_iff honly]
  constructor
  · rintro ⟨b, k, n, hwrites, hmeets⟩
    have hstale : g.StaleAt (.param i .i32) p ⟨b, k⟩ := ⟨hwrites, n, hmeets⟩
    have hawaits : (Mark.entry constants g.toSignature).Awaits ⟨b, k⟩ := by
      by_cases hb : b = 0
      · exact .inl ⟨hb, Nat.zero_le _, rfl⟩
      · exact .inr (Nat.pos_of_ne_zero hb)
    have hsource := hdrawn.stale_of_staleAt rfl (fun _ => Exits.none_bounds hend) hstale hawaits
    rcases hsource with (⟨hb, hle, he⟩ | hb) | hs
    · exact absurd hwrites ((hend he).not_writes hb hle)
    · -- No block has been left out.
      obtain ⟨l, w, hl, -⟩ := hwrites
      have hlt := (List.getElem?_eq_some_iff.mp hl).1
      exact absurd hb (Nat.not_le.mpr (hblocks ▸ hlt))
    · exact hs
  · intro hs
    obtain ⟨⟨b, k⟩, hwrites, n, hmeets⟩ := hdrawn.staleAt_of_stale rfl Exits.none_realised hs
    exact ⟨b, k, n, hwrites, hmeets⟩

end Compiled

/-! ## Lowered programs -/

theorem Function.mem_seeds_of_prologue {g : Function} {v p : Value}
    (h : .store v p ∈ g.prologue) : ⟨v, p⟩ ∈ g.seeds := by
  simp only [Function.prologue, List.mem_append, List.mem_map] at h
  rcases h with ⟨s, -, hs⟩ | ⟨s, hs, he⟩
  · cases hs
  · cases he
    exact hs

/-- If the prologue of a lowered function stores a parameter to a slot, then the
parameter is read stale if and only if this can be told from the declaration:
some store of its skeleton reaches a read. It is never read stale if no loop
assigns its name. -/
theorem Tree.lower_readsStale_iff {singlePass : Bool} {t : Tree} {m : Module}
    (h : (t.lower singlePass).result = .ok m) {id : Nat} {g : Function}
    (hg : m.function? id = some g) {i : Nat} {ty : Ty} {p : Value}
    (hp : .store (.param i ty) p ∈ g.prologue) :
    ∃ constants f x, (constants, f) ∈ t.declarations ∧ f.name = g.name ∧
      f.parameterNames[i]? = some x ∧
      (g.ReadsStale (.param i ty) p ↔ f.readsStale x = true) ∧
      (x ∉ (Piece.many f.statements).looped → ¬ g.ReadsStale (.param i ty) p) := by
  have hseed := Function.mem_seeds_of_prologue hp
  rcases Tree.lower_compiles h hg with ⟨constants, f, hf, hcomp⟩ | rfl
  · obtain ⟨i', x, hv, hx, hiff⟩ := hcomp.readsStale_iff hseed
    obtain rfl := (Value.param.inj hv).1
    obtain ⟨_, _, _, -, -, -, -, hname, -⟩ := Lower.signature_ok hcomp.signature
    refine ⟨constants, f, x, hf, hname.symm, hx, hiff, fun hloop hstale => hloop ?_⟩
    exact Tree.looped_of_readsStale (hiff.mp hstale)
  · cases hseed

/-- `int f(int n, int k) { while (n) { n = n - k; } k = n; return k; }` -/
def Tree.drain : Tree :=
  bare .program ""
    [bare .functionDeclaration "f"
      [bare .identifier "int" [],
        bare .parameters ""
          [bare .variableDeclaration "n" [bare .identifier "int" []],
            bare .variableDeclaration "k" [bare .identifier "int" []]],
        bare .block ""
          [bare .whileStatement ""
              [bare .identifier "n" [],
                bare .block ""
                  [bare .assignment "n"
                    [bare .identifier "=" [], bare .binaryExpression "-"
                      [bare .identifier "n" [], bare .identifier "k" []]]]],
            bare .assignment "k" [bare .identifier "=" [], bare .identifier "n" []],
            bare .returnStatement "" [bare .identifier "k" []]]]]

theorem Tree.drain_readsStale_iff :
    ∃ m g p q, (Tree.drain.lower false).result = .ok m ∧ m.function? 0 = some g ∧
      .store (.param 0 .i32) p ∈ g.prologue ∧ .store (.param 1 .i32) q ∈ g.prologue ∧
      g.ReadsStale (.param 0 .i32) p ∧ ¬ g.ReadsStale (.param 1 .i32) q := by
  obtain ⟨m, hm⟩ : ∃ m, (Tree.drain.lower false).result = .ok m :=
    Lower.except_of_isOk (by decide +kernel)
  have hprologue : ((Tree.drain.lower false).result.toOption.bind (·.function? 0)).map
      (·.prologue.drop 2) = some [.store (.param 0 .i32) (.reg 1 (.ptr .i32)),
        .store (.param 1 .i32) (.reg 5 (.ptr .i32))] := by decide +kernel
  have hdeclared : ∀ d ∈ Tree.drain.declarations, d.2.parameterNames = ["n", "k"] ∧
      d.2.readsStale "n" = true ∧ d.2.readsStale "k" = false := by decide +kernel
  rw [hm] at hprologue
  obtain ⟨g, hg, hstores⟩ := Option.map_eq_some_iff.mp hprologue
  have hn : .store (.param 0 .i32) (.reg 1 (.ptr .i32)) ∈ g.prologue :=
    List.mem_of_mem_drop (by rw [hstores]; simp)
  have hk : .store (.param 1 .i32) (.reg 5 (.ptr .i32)) ∈ g.prologue :=
    List.mem_of_mem_drop (by rw [hstores]; simp)
  refine ⟨m, g, _, _, hm, hg, hn, hk, ?_, ?_⟩
  · obtain ⟨_, f, x, hf, -, hx, hiff, -⟩ := Tree.lower_readsStale_iff hm hg hn
    obtain ⟨hnames, hstale, -⟩ := hdeclared _ hf
    rw [hnames] at hx
    cases hx
    exact hiff.mpr hstale
  · obtain ⟨_, f, x, hf, -, hx, hiff, -⟩ := Tree.lower_readsStale_iff hm hg hk
    obtain ⟨hnames, -, hfresh⟩ := hdeclared _ hf
    rw [hnames] at hx
    cases hx
    rw [hiff, hfresh]
    exact Bool.false_ne_true

/-- A parameter with a slot can be read stale: from the store in the body the
loop goes back to its test, which still has the value that came in. -/
theorem Tree.drain_test_stale :
    ∃ m g p, (Tree.drain.lower false).result = .ok m ∧ m.function? 0 = some g ∧
      .store (.param 0 .i32) p ∈ g.prologue ∧ g.ReadsStale (.param 0 .i32) p := by
  obtain ⟨m, hm⟩ : ∃ m, (Tree.drain.lower false).result = .ok m :=
    Lower.except_of_isOk (by decide +kernel)
  have hparts : ((Tree.drain.lower false).result.toOption.bind (·.function? 0)).map
      (fun g => (g.prologue[2]?, g.block? 1, g.block? 2)) =
      some (some (.store (.param 0 .i32) (.reg 1 (.ptr .i32))),
        some ⟨1, "while.cond.1", [.icmp 0 .ne (.param 0 .i32) (.int 0)],
          some (.condBr (.reg 0 .i1) 2 3)⟩,
        some ⟨2, "while.body.2", [.load 2 .i32 (.reg 1 (.ptr .i32)),
          .load 3 .i32 (.reg 1 (.ptr .i32)), .binary 4 .sub (.reg 3 .i32) (.param 1 .i32),
          .store (.reg 4 .i32) (.reg 1 (.ptr .i32))], some (.br 1)⟩) := by decide +kernel
  rw [hm] at hparts
  obtain ⟨g, hg, hparts⟩ := Option.map_eq_some_iff.mp hparts
  obtain ⟨hseed, htest, hbody⟩ : _ ∧ _ ∧ _ := by simpa only [Prod.mk.injEq] using hparts
  have hback : Relation.TransGen g.Moves ⟨2, 3⟩ ⟨1, 0⟩ :=
    (Relation.TransGen.single (.next hbody (by decide))).tail
      (.jump hbody rfl (List.mem_singleton.mpr rfl))
  exact ⟨m, g, .reg 1 (.ptr .i32), hm, hg, List.mem_of_getElem? hseed, ⟨2, 3⟩, ⟨1, 0⟩,
    ⟨_, _, hbody, rfl⟩, fun h => absurd h.1 (by decide), hback,
    ⟨_, htest, .inl ⟨_, rfl, List.mem_cons_self ..⟩⟩, fun h => absurd h.1 (by decide)⟩

end TreeFlow
