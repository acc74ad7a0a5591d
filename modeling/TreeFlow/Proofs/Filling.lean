import TreeFlow.Proofs.Operands

/-!
# How a layout fills a function

At a mark of lowering some points of the function are still to be filled: the
rest of the block under the cursor and the blocks that do not exist yet. Laying
out a piece fills every such point that is not left for later, and what it puts
there may stand there. A body starts with all points to be filled and leaves
none, so all code of a compiled function follows what stands before it. In the
same way every seed and every register of the function is accounted for.
-/

set_option autoImplicit false

namespace TreeFlow

/-- The point is still to be filled. -/
def Mark.Awaits (μ : Mark) (q : Point) : Prop :=
  q.block = μ.block ∧ μ.offset ≤ q.offset ∧ μ.ended = false ∨ μ.blocks ≤ q.block

/-- Whatever stands at the point of the bodies may stand there. -/
def Function.FitsAt (g : Function) (m : Module) (q : Point) : Prop :=
  ∀ k, g.bodies[q.block]? = some k →
    (∀ i, k.instrs[q.offset]? = some i → i.Follows m g (k.instrs.take q.offset)) ∧
      (q.offset = k.instrs.length → ∀ x, k.terminator = some x → x.Follows m g k.instrs)

def Function.Filled (g : Function) (m : Module) (μ μ' : Mark) : Prop :=
  ∀ q, μ.Awaits q → μ'.Awaits q ∨ g.FitsAt m q

section Filling

variable {m : Module} {g : Function} {p : Piece} {ls : List LoopTargets} {μ μ' μ₁ : Mark}
  {q : Point} {code : List Instr} {x : Terminator}

theorem Function.Filled.refl : g.Filled m μ μ := fun _ hq => .inl hq

theorem Function.Filled.trans (h : g.Filled m μ μ₁) (h' : g.Filled m μ₁ μ') : g.Filled m μ μ' := by
  intro q hq
  rcases h q hq with hq | hq
  · exact h' q hq
  · exact .inr hq

theorem Function.Holds.fits (h : g.Holds μ code) (hcode : ∀ before, Follow m g before code)
    (hb : q.block = μ.block) (hle : μ.offset ≤ q.offset) (hlt : q.offset < μ.offset + code.length) :
    g.FitsAt m q := by
  obtain ⟨k, hk, rest, hrest⟩ := h
  intro k' hk'
  obtain rfl : k = k' := by simpa [← hb, hk'] using hk.symm
  have hinstrs : k.instrs = k.instrs.take μ.offset ++ code ++ rest := by
    rw [List.append_assoc, hrest, List.take_append_drop]
  have hlen : μ.offset + code.length ≤ k.instrs.length := by
    have := congrArg List.length hrest
    simp only [List.length_append, List.length_drop] at this
    omega
  have htake : (k.instrs.take μ.offset).length = μ.offset := by simp; omega
  refine ⟨fun i hi => ?_, fun hend => by omega⟩
  have hat : code[q.offset - μ.offset]? = some i := by
    rw [hinstrs, List.append_assoc, List.getElem?_append_right (by omega), htake,
      List.getElem?_append_left (by omega)] at hi
    exact hi
  have hbefore : k.instrs.take q.offset =
      k.instrs.take μ.offset ++ code.take (q.offset - μ.offset) := by
    conv_lhs => rw [hinstrs]
    rw [List.append_assoc, List.take_append, htake, List.take_of_length_le (by omega),
      List.take_append_of_le_length (by omega)]
  rw [hbefore]
  exact (hcode _).get hat

theorem Function.Ends.fits (h : g.Ends μ x)
    (hx : ∀ k, g.bodies[μ.block]? = some k → x.Follows m g k.instrs) (hb : q.block = μ.block)
    (hle : μ.offset ≤ q.offset) : g.FitsAt m q := by
  obtain ⟨k, hk, hlen, hterm⟩ := h
  intro k' hk'
  obtain rfl : k = k' := by simpa [← hb, hk'] using hk.symm
  refine ⟨fun i hi => ?_, fun _ y hy => ?_⟩
  · have := (List.getElem?_eq_some_iff.mp hi).1
    omega
  · obtain rfl : x = y := by simpa [hterm] using hy
    exact hx k hk

theorem Function.Ends.fits_br {j : Nat} (h : g.Ends μ (.br j)) (hj : 0 < j)
    (hb : q.block = μ.block) (hle : μ.offset ≤ q.offset) : g.FitsAt m q :=
  h.fits (fun _ _ => Nat.ne_of_gt hj) hb hle

theorem Function.Holds.fits_end {r : Nat} (h : g.Holds μ code)
    (hcode : ∀ before, Follow m g before code) (hend : g.Ends (μ.after code.length r) x)
    (hx : ∀ before, x.Follows m g (before ++ code)) (hb : q.block = μ.block)
    (hle : μ.offset ≤ q.offset) : g.FitsAt m q := by
  by_cases hlt : q.offset < μ.offset + code.length
  · exact h.fits hcode hb hle hlt
  · refine hend.fits (fun k hk => ?_) hb (Nat.not_lt.mp hlt)
    obtain ⟨k', hk', hlen, -⟩ := hend
    obtain ⟨k'', hk'', hpre⟩ := h
    obtain rfl : k = k' := Option.some.inj (hk.symm.trans hk')
    obtain rfl : k = k'' := Option.some.inj (hk.symm.trans hk'')
    have hrest : code = k.instrs.drop μ.offset := by
      refine hpre.eq_of_length ?_
      simp only [Mark.after_offset] at hlen
      simp only [List.length_drop]
      omega
    have hall := hx (k.instrs.take μ.offset)
    rwa [hrest, List.take_append_drop] at hall

theorem Function.Holds.filled (h : g.Holds μ code) (hcode : ∀ before, Follow m g before code)
    (hblock : μ'.block = μ.block) (hoffset : μ'.offset = μ.offset + code.length)
    (hended : μ'.ended = μ.ended) (hblocks : μ'.blocks = μ.blocks) : g.Filled m μ μ' := by
  rintro q (⟨hb, hle, he⟩ | hq)
  · by_cases hlt : q.offset < μ.offset + code.length
    · exact .inr (h.fits hcode hb hle hlt)
    · exact .inl (.inl ⟨hb.trans hblock.symm, by omega, hended.trans he⟩)
  · exact .inl (.inr (by omega))

theorem filled_stop (h : ∀ q : Point, q.block = μ.block → μ.offset ≤ q.offset → g.FitsAt m q)
    (hblocks : μ'.blocks = μ.blocks) : g.Filled m μ μ' := by
  rintro q (⟨hb, hle, -⟩ | hq)
  · exact .inr (h q hb hle)
  · exact .inl (.inr (by omega))

theorem Function.Filled.falls {target : Nat} (h : g.Filled m μ μ') (hf : g.Falls μ' target)
    (ht : 0 < target) (hq : μ.Awaits q) : μ'.blocks ≤ q.block ∨ g.FitsAt m q := by
  rcases h q hq with (⟨hb, hle, he⟩ | hq) | hfit
  · exact .inr ((hf he).fits_br ht hb hle)
  · exact .inl hq
  · exact .inr hfit

/-! ## Statements -/

theorem Function.HasSlot.addresses {ty : Ty} (h : g.HasSlot μ ty) : g.Addresses (μ.pointer ty) ty :=
  ⟨_, List.mem_of_getElem? h, rfl, rfl⟩

theorem Assigns.sound {name : String} {v : Value} {ty : Ty} (h : Assigns g name μ v ty μ₁)
    (hs : μ.scope.Sound g) : ty = .i32 ∧ g.Addresses v ty ∧ μ₁.scope.Sound g := by
  cases h with
  | slot bound =>
    obtain ⟨hty, haddr⟩ := hs.lookup_slot bound
    exact ⟨hty, haddr, hs⟩
  | promote bound slot =>
    obtain ⟨i, p, hp, -, rfl⟩ := hs.lookup_register bound
    exact ⟨rfl, slot.addresses, hs.bind rfl slot.addresses⟩

theorem Lays.sound (h : Lays m g p ls μ μ') (hs : μ.scope.Sound g) : μ'.scope.Sound g := by
  induction h with
  | declare _ _ typed sized slot => exact hs.bind (Ty.ofSite_sized typed sized) slot.addresses
  | initialise _ _ typed sized slot => exact hs.bind (Ty.ofSite_sized typed sized) slot.addresses
  | assign _ _ _ target =>
    obtain ⟨hty, haddr, hs'⟩ := target.sound hs
    exact hs'.bind hty haddr
  | ifElse _ _ _ _ _ _ _ _ _ _ _ ih₁ ih₂ => exact ih₂ (ih₁ hs)
  | loop _ _ _ _ _ _ _ _ ih => exact ih hs
  | ifThen _ _ _ _ _ _ _ _ ih => exact ih hs
  | block _ _ ih => exact ih hs
  | cons _ _ _ ih₁ ih₂ => exact ih₂ (ih₁ hs)
  | _ => exact hs

theorem Update.follow_code {u : Update} {before : List Instr} {old new p : Value} {r : Nat}
    (hold : old.Known m g.toSignature before) (hnew : new.Known m g.toSignature before)
    (hty : old.ty = new.ty) (hscalar : new.ty.Scalar) (hp : g.Addresses p new.ty) :
    Follow m g before (u.code old new p r) := by
  cases u with
  | replace => exact follow_one.mpr ⟨hnew, hp⟩
  | combine op =>
    refine ⟨⟨hold, hnew, hty, hty ▸ hscalar⟩, ⟨?_, hty ▸ hp⟩, trivial⟩
    exact Value.known_last (i := .binary r op old new) before [] rfl rfl

theorem Emits.follow_assign {scope : Scope} {t : Tree} {d r : Nat} {c : List Instr} {v w : Value}
    {ty : Ty} (h : Emits m scope (.one t) (d + 1) c [v] r) (hs : scope.Sound g) (hm : m.AllInt)
    (hreg : m.Regular) (hfits : v.ty = ty) (hw : g.Addresses w ty) (u : Update)
    (before : List Instr) :
    Follow m g before (.load d ty w :: c ++ u.code (.reg d ty) v w r) := by
  obtain ⟨hcode, hv⟩ := h.follow hs hm hreg (before ++ [.load d ty w])
  obtain ⟨hv, hscalar⟩ := hv v (by simp)
  subst hfits
  refine ⟨hw, follow_append.mpr ⟨hcode, Update.follow_code ?_ hv rfl hscalar hw⟩⟩
  exact .inr ⟨d, _, rfl, .load d v.ty w, by simp, rfl, rfl⟩

def LoopsInside (ls : List LoopTargets) : Prop := ∀ l ∈ ls, 0 < l.onContinue ∧ 0 < l.onBreak

theorem Tests.fits {t : Tree} {r r' yes no : Nat} {v : Value}
    (h : Tests m μ.scope t r code v r') (hs : μ.scope.Sound g) (hm : m.AllInt) (hreg : m.Regular)
    (hh : g.Holds μ₁ code) (he : g.Ends (μ₁.after code.length r') (.condBr v yes no))
    (hyes : 0 < yes) (hno : 0 < no) (hb : q.block = μ₁.block) (hle : μ₁.offset ≤ q.offset) :
    g.FitsAt m q := by
  refine hh.fits_end (fun before => (h.follow hs hm hreg before).1) he (fun before => ?_) hb hle
  obtain ⟨-, hv, hty⟩ := h.follow hs hm hreg before
  exact ⟨hv, hty, Nat.ne_of_gt hyes, Nat.ne_of_gt hno⟩

/-- Laying out a piece fills what it does not leave for later, with code that
may stand there. -/
theorem Lays.filled (h : Lays m g p ls μ μ') (hs : μ.scope.Sound g) (hm : m.AllInt)
    (hreg : m.Regular) (hμ : 0 < μ.blocks) (hls : LoopsInside ls) : g.Filled m μ μ' := by
  induction h with
  | declare => exact .refl
  | @initialise site _ _ _ μ ty _ _ _ _ _ typed sized slot code fits holds =>
    have hs' : (μ.slot site.name ty).scope.Sound g :=
      hs.bind (Ty.ofSite_sized typed sized) slot.addresses
    refine holds.filled (fun before => ?_) rfl (by simp) rfl rfl
    obtain ⟨hcode, hv⟩ := code.follow hs' hm hreg before
    refine follow_append.mpr ⟨hcode, follow_one.mpr ⟨(hv _ (by simp)).1, ?_⟩⟩
    exact fits ▸ slot.addresses
  | assign _ _ _ target code fits holds =>
    obtain ⟨-, haddr, hs'⟩ := target.sound hs
    obtain ⟨hblocks, hblock, hended, hoffset⟩ := target.blocks
    refine holds.filled (code.follow_assign hs' hm hreg fits haddr _) hblock ?_ hended hblocks
    simp only [Mark.rebind_offset, Mark.after_offset, hoffset]
  | returnNone _ ends =>
    exact filled_stop (fun _ hb hle => ends.fits (fun _ _ => nofun) hb hle) rfl
  | returnValue _ code holds ends =>
    refine filled_stop (fun _ hb hle => ?_) rfl
    refine holds.fits_end (fun before => (code.follow hs hm hreg before).1) ends ?_ hb hle
    intro before w hw
    cases hw
    exact ((code.follow hs hm hreg before).2 _ (by simp)).1
  | @loop site test body ls μ μ₁ c v r _ _ enters code holds branches inside back ih =>
    rintro q (⟨hb, hle, -⟩ | hq)
    · exact .inr (enters.fits_br hμ hb hle)
    · by_cases htest : q.block = μ.blocks
      · exact .inr (code.fits hs hm hreg holds branches (Nat.succ_pos _) (Nat.succ_pos _) htest
          (Nat.zero_le _))
      · by_cases hend : q.block = μ.blocks + 2
        · exact .inl (.inl ⟨hend, Nat.zero_le _, rfl⟩)
        · have hbody := ih hs (by simp) (List.forall_mem_cons.mpr ⟨⟨hμ, Nat.succ_pos _⟩, hls⟩)
          refine (hbody.falls back hμ ?_).imp_left .inr
          by_cases hbody : q.block = μ.blocks + 1
          · exact .inl ⟨hbody, Nat.zero_le _, rfl⟩
          · refine .inr ?_
            simp only [Mark.head_blocks, Mark.after_blocks, Mark.grow_blocks]
            omega
  | @ifThen site test yes ls μ μ₁ c v r _ _ _ code holds branches inside joins ih =>
    rintro q (⟨hb, hle, -⟩ | hq)
    · exact .inr (code.fits hs hm hreg holds branches hμ (Nat.succ_pos _) hb hle)
    · by_cases hend : q.block = μ.blocks + 1
      · exact .inl (.inl ⟨hend, Nat.zero_le _, rfl⟩)
      · refine ((ih hs (by simp) hls).falls joins (Nat.succ_pos _) ?_).imp_left .inr
        by_cases hyes : q.block = μ.blocks
        · exact .inl ⟨hyes, Nat.zero_le _, rfl⟩
        · refine .inr ?_
          simp only [Mark.head_blocks, Mark.after_blocks, Mark.grow_blocks]
          omega
  | @ifElse site test yes no ls μ μ₁ μ₂ c v r _ _ _ _ code holds branches inside joins otherwise
      joins' ih₁ ih₂ =>
    rintro q (⟨hb, hle, -⟩ | hq)
    · exact .inr (code.fits hs hm hreg holds branches hμ (Nat.succ_pos _) hb hle)
    · by_cases hend : q.block = μ.blocks + 1
      · exact .inl (.inl ⟨hend, Nat.zero_le _, rfl⟩)
      · have hgrown := inside.blocks_le
        simp only [Mark.head_blocks, Mark.after_blocks, Mark.grow_blocks] at hgrown
        have hno : (μ₁.head (μ.blocks + 2)).Awaits q → (μ₂.head (μ.blocks + 1)).Awaits q ∨
            g.FitsAt m q := fun hq =>
          ((ih₂ (inside.sound hs) (by simp; omega) hls).falls joins' (Nat.succ_pos _) hq).imp_left
            .inr
        by_cases hsecond : q.block = μ.blocks + 2
        · exact hno (.inl ⟨hsecond, Nat.zero_le _, rfl⟩)
        · have hyes : (((μ.after c.length r).grow 3).head μ.blocks).Awaits q := by
            by_cases hfirst : q.block = μ.blocks
            · exact .inl ⟨hfirst, Nat.zero_le _, rfl⟩
            · refine .inr ?_
              simp only [Mark.head_blocks, Mark.after_blocks, Mark.grow_blocks]
              omega
          rcases (ih₁ hs (by simp) hls).falls joins (Nat.succ_pos _) hyes with hlater | hfit
          · exact hno (.inr hlater)
          · exact .inr hfit
  | leave _ _ ends =>
    exact filled_stop (fun _ hb hle => ends.fits_br (hls _ (by simp)).2 hb hle) rfl
  | again _ _ ends =>
    exact filled_stop (fun _ hb hle => ends.fits_br (hls _ (by simp)).1 hb hle) rfl
  | call _ code holds =>
    exact holds.filled (fun before => (code.follow hs hm hreg before).1) rfl rfl rfl rfl
  | block _ _ ih => exact ih hs hμ hls
  | nil => exact .refl
  | skip => exact .refl
  | cons _ first _ ih₁ ih₂ =>
    exact (ih₁ hs hμ hls).trans (ih₂ (first.sound hs) (Nat.lt_of_lt_of_le hμ first.blocks_le) hls)

end Filling

/-! ## Registers and seeds -/

def Function.Defines (g : Function) (d : Nat) : Prop :=
  (∃ s ∈ g.slots, s.register = d) ∨ ∃ k ∈ g.bodies, ∃ i ∈ k.instrs, i.dest? = some d

def Function.Seeds (g : Function) (s : Seed) : Prop :=
  (∃ i p, g.params[i]? = some p ∧ s.value = .param i p.ty) ∧ g.Addresses s.pointer s.value.ty

/-- The registers and the seeds that come up between two marks are accounted
for. -/
structure Function.Accounts (g : Function) (μ μ' : Mark) : Prop where
  registers : ∀ d, μ.registers ≤ d → d < μ'.registers → g.Defines d
  seeds : ∀ j s, μ.seeds ≤ j → j < μ'.seeds → g.seeds[j]? = some s → g.Seeds s

section Accounts

variable {m : Module} {g : Function} {p : Piece} {ls : List LoopTargets} {μ μ' μ₁ : Mark}
  {scope : Scope} {r r' : Nat} {c : List Instr}

theorem Function.Accounts.same (hr : μ'.registers = μ.registers) (hs : μ'.seeds = μ.seeds) :
    g.Accounts μ μ' :=
  ⟨fun _ hle hlt => absurd hle (by omega), fun _ _ hle hlt => absurd hle (by omega)⟩

theorem Function.Accounts.relabel {ν ν' : Mark} (h : g.Accounts μ μ')
    (hr : ν.registers = μ.registers) (hs : ν.seeds = μ.seeds) (hr' : ν'.registers = μ'.registers)
    (hs' : ν'.seeds = μ'.seeds) : g.Accounts ν ν' := by
  refine ⟨?_, ?_⟩
  · rw [hr, hr']
    exact h.registers
  · rw [hs, hs']
    exact h.seeds

theorem Function.Accounts.trans (h : g.Accounts μ μ₁) (h' : g.Accounts μ₁ μ') :
    g.Accounts μ μ' := by
  refine ⟨fun d hle hlt => ?_, fun j s hle hlt => ?_⟩
  · by_cases hd : d < μ₁.registers
    · exact h.registers d hle hd
    · exact h'.registers d (Nat.not_lt.mp hd) hlt
  · by_cases hj : j < μ₁.seeds
    · exact h.seeds j s hle hj
    · exact h'.seeds j s (Nat.not_lt.mp hj) hlt

theorem Emits.defines {vs : List Value} (h : Emits m scope p r c vs r') {d : Nat} (hle : r ≤ d)
    (hlt : d < r') : ∃ i ∈ c, i.dest? = some d := by
  induction h with
  | slot _ _ r =>
    obtain rfl : r = d := by omega
    exact ⟨_, List.mem_singleton.mpr rfl, rfl⟩
  | @binary _ _ _ op r r₁ r₂ c₁ c₂ u v _ _ _ _ _ ihl ihr =>
    by_cases h₁ : d < r₁
    · obtain ⟨i, hi, hd⟩ := ihl hle h₁
      exact ⟨i, by simp [hi], hd⟩
    · by_cases h₂ : d < r₂
      · obtain ⟨i, hi, hd⟩ := ihr (Nat.not_lt.mp h₁) h₂
        exact ⟨i, by simp [hi], hd⟩
      · obtain rfl : r₂ = d := by omega
        exact ⟨op.instr r₂ u v, by simp, op.dest_instr _ _ _⟩
  | @call _ _ id r r₁ _ lead args c _ _ _ _ _ ih =>
    by_cases h₁ : d < r₁
    · obtain ⟨i, hi, hd⟩ := ih hle h₁
      exact ⟨i, by simp [hi], hd⟩
    · obtain rfl : r₁ = d := by omega
      exact ⟨.call (some r₁) id (lead ++ args), by simp, rfl⟩
  | command _ _ _ _ _ ih =>
    obtain ⟨i, hi, hd⟩ := ih hle hlt
    exact ⟨i, by simp [hi], hd⟩
  | @cons _ _ r r₁ r₂ _ _ _ _ _ _ ihh iht =>
    by_cases h₁ : d < r₁
    · obtain ⟨i, hi, hd⟩ := ihh hle h₁
      exact ⟨i, by simp [hi], hd⟩
    · obtain ⟨i, hi, hd⟩ := iht (Nat.not_lt.mp h₁) hlt
      exact ⟨i, by simp [hi], hd⟩
  | _ => omega

theorem Tests.defines {t : Tree} {v : Value} (h : Tests m scope t r c v r') {d : Nat} (hle : r ≤ d)
    (hlt : d < r') : ∃ i ∈ c, i.dest? = some d := by
  cases h with
  | truth code => exact code.defines hle hlt
  | @nonzero r₁ c v code =>
    by_cases h₁ : d < r₁
    · obtain ⟨i, hi, hd⟩ := code.defines hle h₁
      exact ⟨i, by simp [hi], hd⟩
    · obtain rfl : r₁ = d := by omega
      exact ⟨.icmp r₁ .ne v (.int 0), by simp, rfl⟩

theorem Function.Holds.defines (h : g.Holds μ c) {d : Nat} (hd : ∃ i ∈ c, i.dest? = some d) :
    g.Defines d := by
  obtain ⟨k, hk, hc⟩ := h
  obtain ⟨i, hi, hd⟩ := hd
  exact .inr ⟨k, List.mem_of_getElem? hk, i, List.mem_of_mem_drop (hc.subset hi), hd⟩

theorem Function.Holds.accounts (h : g.Holds μ₁ c)
    (hc : ∀ d, μ.registers ≤ d → d < μ'.registers → ∃ i ∈ c, i.dest? = some d)
    (hs : μ'.seeds = μ.seeds) : g.Accounts μ μ' :=
  ⟨fun d hle hlt => h.defines (hc d hle hlt), fun _ _ hle hlt => absurd hle (by omega)⟩

theorem Function.HasSlot.accounts {ty : Ty} (h : g.HasSlot μ ty)
    (hr : μ'.registers = μ.registers + 1) (hs : μ'.seeds = μ.seeds) : g.Accounts μ μ' := by
  refine ⟨fun d hle hlt => .inl ⟨_, List.mem_of_getElem? h, ?_⟩,
    fun _ _ hle hlt => absurd hle (by omega)⟩
  show μ.registers = d
  omega

theorem Assigns.accounts {name : String} {v : Value} {ty : Ty} (h : Assigns g name μ v ty μ₁)
    (hsound : μ.scope.Sound g) : g.Accounts μ μ₁ := by
  cases h with
  | slot => exact .same rfl rfl
  | promote bound slot seed =>
    obtain ⟨i, p, hp, hty, rfl⟩ := hsound.lookup_register bound
    have hslot : g.Accounts μ (μ.slot name .i32) := slot.accounts rfl rfl
    refine ⟨hslot.registers, fun j s hle hlt hs => ?_⟩
    obtain rfl : μ.seeds = j := by
      simp only [Mark.promote_seeds] at hlt
      omega
    obtain rfl := Option.some.inj (seed.symm.trans hs)
    exact ⟨⟨i, p, hp, by rw [hty]⟩, slot.addresses⟩

theorem Update.defines {u : Update} {old new w : Value} {d : Nat} (hle : r ≤ d)
    (hlt : d < u.next r) : ∃ i ∈ u.code old new w r, i.dest? = some d := by
  cases u with
  | replace => exact absurd hle (Nat.not_le.mpr hlt)
  | combine op =>
    obtain rfl : r = d := by
      simp only [Update.next] at hlt
      omega
    exact ⟨.binary r op old new, List.mem_cons_self .., rfl⟩

theorem Lays.accounts (h : Lays m g p ls μ μ') (hs : μ.scope.Sound g) : g.Accounts μ μ' := by
  induction h with
  | declare _ _ _ _ slot => exact slot.accounts rfl rfl
  | @initialise site _ _ _ μ ty _ _ _ _ _ _ _ slot code _ holds =>
    have hslot : g.Accounts μ (μ.slot site.name ty) := slot.accounts rfl rfl
    refine hslot.trans (holds.accounts (fun d hle hlt => ?_) rfl)
    obtain ⟨i, hi, hd⟩ := code.defines hle hlt
    exact ⟨i, by simp [hi], hd⟩
  | @assign site _ _ _ μ μ₁ update v ty c w r _ _ _ target code _ holds =>
    refine (target.accounts hs).trans (holds.accounts (fun d hle hlt => ?_) rfl)
    by_cases hload : d = μ₁.registers
    · exact ⟨.load μ₁.registers ty v, by simp, by rw [hload]; rfl⟩
    · by_cases hc : d < r
      · obtain ⟨i, hi, hd⟩ := code.defines (by omega) hc
        exact ⟨i, by simp [hi], hd⟩
      · obtain ⟨i, hi, hd⟩ := Update.defines (u := update) (Nat.not_lt.mp hc) hlt
        exact ⟨i, List.mem_append_right _ hi, hd⟩
  | returnNone => exact .same rfl rfl
  | returnValue _ code holds => exact holds.accounts (fun _ => code.defines) rfl
  | @loop _ _ _ _ μ _ c _ r _ _ _ code holds _ _ _ ih =>
    have htest : g.Accounts μ (μ.after c.length r) := holds.accounts (fun _ => code.defines) rfl
    exact htest.trans ((ih hs).relabel rfl rfl rfl rfl)
  | @ifThen _ _ _ _ μ _ c _ r _ _ _ code holds _ _ _ ih =>
    have htest : g.Accounts μ (μ.after c.length r) := holds.accounts (fun _ => code.defines) rfl
    exact htest.trans ((ih hs).relabel rfl rfl rfl rfl)
  | @ifElse _ _ _ _ _ μ μ₁ _ c _ r _ _ _ _ code holds _ inside _ _ _ ih₁ ih₂ =>
    have htest : g.Accounts μ (μ.after c.length r) := holds.accounts (fun _ => code.defines) rfl
    have hyes : g.Accounts (μ.after c.length r) (μ₁.head (μ.blocks + 2)) :=
      (ih₁ hs).relabel rfl rfl rfl rfl
    exact htest.trans (hyes.trans ((ih₂ (inside.sound hs)).relabel rfl rfl rfl rfl))
  | leave => exact .same rfl rfl
  | again => exact .same rfl rfl
  | call _ code holds => exact holds.accounts (fun _ => code.defines) rfl
  | block _ _ ih => exact ih hs
  | nil => exact .same rfl rfl
  | skip => exact .same rfl rfl
  | cons _ first _ ih₁ ih₂ => exact (ih₁ hs).trans (ih₂ (first.sound hs))

end Accounts

/-! ## Compiled functions -/

section Compiled

variable {m : Module} {constants : List (String × Int)} {t : Tree} {id : Nat} {g : Function}

theorem Tree.constant?_fits {x : String} {n : Int} (h : t.constant? = some (x, n)) :
    -2147483648 ≤ n ∧ n < 2147483648 := by
  unfold Tree.constant? at h
  split at h
  · split at h
    · rename_i name value _
      obtain ⟨k, hk, he⟩ := Option.map_eq_some_iff.mp h
      cases he
      cases hv : value.site.literal with
      | error e =>
        rw [hv] at hk
        cases hk
      | ok k' =>
        rw [hv] at hk
        cases hk
        exact Site.literal_fits hv
    · cases h
  · cases h

theorem Tree.constants_fit {ts : List Tree} {cs : List (String × Int)}
    (h : (constants, t) ∈ Tree.declarationsFrom cs ts)
    (hcs : ∀ c ∈ cs, -2147483648 ≤ c.2 ∧ c.2 < 2147483648) :
    ∀ c ∈ constants, -2147483648 ≤ c.2 ∧ c.2 < 2147483648 := by
  induction ts generalizing cs with
  | nil => cases h
  | cons u ts ih =>
    rw [Tree.declarationsFrom] at h
    split at h
    · rcases List.mem_cons.mp h with h | h
      · cases h
        exact hcs
      · exact ih h hcs
    · refine ih h fun c hc => ?_
      rcases List.mem_append.mp hc with hc | hc
      · exact Tree.constant?_fits (Option.mem_toList.mp hc)
      · exact hcs c hc

theorem Mark.entry_sound (hint : ∀ p ∈ g.params, p.ty = .i32)
    (hcs : ∀ c ∈ constants, -2147483648 ≤ c.2 ∧ c.2 < 2147483648) :
    (Mark.entry constants g.toSignature).scope.Sound g where
  register x v hx := by
    obtain ⟨w, hw, hv⟩ := Lower.mem_of_parameterScope hx
    cases hv
    obtain ⟨i, p, hp, -, rfl⟩ := Function.mem_arguments.mp hw
    have hty := hint p (List.mem_of_getElem? hp)
    exact ⟨i, p, hp, hty, by rw [hty]⟩
  slot x p ty hx := by
    obtain ⟨v, hv⟩ := Mark.entry_register hx
    cases hv
  constant x n hx := by
    rw [Scope.constant?, Mark.entry, Lower.parameterScope_constants] at hx
    obtain ⟨l, l', hl, -⟩ := List.lookup_eq_some_iff.mp hx
    obtain rfl : constants = l ++ (x, n) :: l' := hl
    exact hcs (x, n) (by simp)

theorem Function.Ends.fits_default {μ : Mark} {q : Point} (hm : m.AllInt)
    (hg : m.function? id = some g) (h : g.Ends μ (.ret (Lower.defaultReturn g.ret)))
    (hb : q.block = μ.block) (hle : μ.offset ≤ q.offset) : g.FitsAt m q := by
  refine h.fits (fun k _ w hw => ?_) hb hle
  unfold Lower.defaultReturn at hw
  split at hw
  · cases hw
  · cases hw
    rcases hm id g hg with hret | hret
    · exact .inl ⟨hret, by decide⟩
    · exact absurd (by rw [hret]; rfl) ‹¬ g.ret.isVoid = true›

theorem Module.Compiles.fits (h : m.Compiles constants t id g) (hm : m.AllInt) (hreg : m.Regular)
    (hcs : ∀ c ∈ constants, -2147483648 ≤ c.2 ∧ c.2 < 2147483648) :
    (∀ q, g.FitsAt m q) ∧ (∀ d, d < g.registers → g.Defines d) ∧ ∀ s ∈ g.seeds, g.Seeds s := by
  obtain ⟨_, _, _, -, -, -, hparams, -⟩ := Lower.signature_ok h.signature
  have hs := Mark.entry_sound (g := g) (Lower.parameters_ok hparams).2 hcs
  obtain ⟨_, _, _, -, μ, hlays, hend, hblocks, hregs, -, hseeds⟩ := h.body
  have hacc := hlays.accounts hs
  refine ⟨fun q => ?_, fun d hd => hacc.registers d (Nat.zero_le _) (hregs ▸ hd), fun s hs => ?_⟩
  · have hawaits : (Mark.entry constants g.toSignature).Awaits q := by
      by_cases hb : q.block = 0
      · exact .inl ⟨hb, Nat.zero_le _, rfl⟩
      · exact .inr (Nat.pos_of_ne_zero hb)
    rcases hlays.filled hs hm hreg Nat.one_pos nofun q hawaits with (⟨hb, hle, he⟩ | hq) | hfit
    · exact (hend he).fits_default hm h.function hb hle
    · -- No block has been left out.
      intro k hk
      have := (List.getElem?_eq_some_iff.mp hk).1
      omega
    · exact hfit
  · obtain ⟨j, hj⟩ := List.getElem?_of_mem hs
    exact hacc.seeds j s (Nat.zero_le _) (hseeds ▸ (List.getElem?_eq_some_iff.mp hj).1) hj

theorem Tree.lower_regular {singlePass : Bool} (h : (t.lower singlePass).result = .ok m) :
    m.Regular := by
  intro j f hf hvar
  rcases Tree.lower_compiles h hf with ⟨cs, c, -, hcomp⟩ | rfl
  · obtain ⟨_, _, _, -, -, -, -, -, hnot⟩ := Lower.signature_ok hcomp.signature
    rw [hnot] at hvar
    cases hvar
  · rfl

/-- All code of a lowered module may stand where it stands. -/
theorem Tree.lower_fits {singlePass : Bool} (h : (t.lower singlePass).result = .ok m)
    (hg : m.function? id = some g) :
    (∀ q, g.FitsAt m q) ∧ (∀ d, d < g.registers → g.Defines d) ∧ ∀ s ∈ g.seeds, g.Seeds s := by
  rcases Tree.lower_compiles h hg with ⟨cs, c, hc, hcomp⟩ | rfl
  · exact hcomp.fits (Tree.lower_allInt h) (Tree.lower_regular h) (Tree.constants_fit hc nofun)
  · exact ⟨nofun, nofun, nofun⟩

end Compiled

end TreeFlow
