import TreeFlow.Proofs.Structure

/-!
# Names along a layout

A function whose declarations all have different names binds each name once.
Then a slot, once a name has it, stays with the name, and a parameter keeps its
register until the first assignment moves it to a slot. Every slot is behind one
name only, and the seeds are the slots of moved parameters.
-/

set_option autoImplicit false

namespace TreeFlow

variable {v : Value} {ty : Ty}

/-! ## Fresh names -/

/-- What a piece declares has names of its own, none of which is bound yet. -/
structure Piece.Fresh (p : Piece) (s : Scope) : Prop where
  nodup : p.declared.Nodup
  unbound : ∀ x ∈ p.declared, s.local? x = none

section Layout

variable {m : Module} {g : Function} {p q : Piece} {ls : List LoopTargets} {μ μ' μ₁ : Mark}

theorem Assigns.local? {name : String} (h : Assigns g name μ v ty μ₁) (x : String) :
    μ₁.scope.local? x = if x = name then some (.slot v ty) else μ.scope.local? x := by
  cases h with
  | slot bound =>
    split
    · rename_i hx
      rw [hx]
      exact Scope.local?_of_lookup bound
    · rfl
  | promote bound => exact Scope.local?_bind _ _ _ _

theorem Assigns.bound {name : String} (h : Assigns g name μ v ty μ₁) :
    ∃ storage, μ.scope.local? name = some storage := by
  cases h with
  | slot bound => exact ⟨_, Scope.local?_of_lookup bound⟩
  | promote bound => exact ⟨_, Scope.local?_of_lookup bound⟩

/-- A layout binds the names that its piece declares, and no others. -/
theorem Lays.unbound (h : Lays m g p ls μ μ') {x : String} (hx : x ∉ p.declared)
    (hnone : μ.scope.local? x = none) : μ'.scope.local? x = none := by
  induction h with
  | declare kind =>
    rw [Piece.declared_node, if_pos kind] at hx
    simp only [Mark.slot_scope, Mark.rebind_scope, Scope.local?_bind]
    rw [if_neg (by rintro rfl; simp at hx), hnone]
  | initialise kind =>
    rw [Piece.declared_node, if_pos kind] at hx
    simp only [Mark.after_scope, Mark.slot_scope, Mark.rebind_scope, Scope.local?_bind]
    rw [if_neg (by rintro rfl; simp at hx), hnone]
  | @assign site op rhs ls μ μ₁ update v ty c u r _ _ _ target =>
    have hne : x ≠ site.name := by
      rintro rfl
      obtain ⟨storage, hbound⟩ := target.bound
      rw [hnone] at hbound
      cases hbound
    simp only [Mark.rebind_scope, Mark.after_scope, Scope.local?_bind, target.local?, if_neg hne]
    exact hnone
  | loop _ _ _ _ _ _ _ _ ih =>
    exact ih (fun h => hx ((Piece.declared_inside (by simp)).subset h)) hnone
  | ifThen _ _ _ _ _ _ _ _ ih =>
    exact ih (fun h => hx ((Piece.declared_inside (by simp)).subset h)) hnone
  | ifElse _ _ _ _ _ _ _ _ _ _ _ ih₁ ih₂ =>
    refine ih₂ (fun h => hx ((Piece.declared_otherwise (by simp)).subset h)) ?_
    exact ih₁ (fun h => hx ((Piece.declared_inside (by simp)).subset h)) hnone
  | block _ _ ih => exact ih (fun h => hx ((Piece.declared_children (.node _ _)).subset h)) hnone
  | cons _ _ _ ih₁ ih₂ =>
    rw [Piece.declared_cons, List.mem_append, not_or] at hx
    exact ih₂ hx.2 (ih₁ hx.1 hnone)
  | _ => exact hnone

namespace Piece.Fresh

theorem sub {s : Scope} (h : p.Fresh s) (hsub : q.declared.Sublist p.declared) : q.Fresh s :=
  ⟨h.nodup.sublist hsub, fun x hx => h.unbound x (hsub.subset hx)⟩

variable {t : Tree} {ts : List Tree} {site : Site}

theorem name {s : Scope} (h : (Piece.one (.node site ts)).Fresh s)
    (kind : site.kind = .variableDeclaration) : s.local? site.name = none :=
  h.unbound _ (by simp [Piece.declared_node, kind])

theorem children (h : (Piece.one (.node site ts)).Fresh μ.scope) : (Piece.many ts).Fresh μ.scope :=
  h.sub (Piece.declared_children (.node site ts))

theorem inside (h : (Piece.one (.node site ts)).Fresh μ.scope) (ht : t ∈ ts) :
    (Piece.many t.children).Fresh μ.scope := h.sub (Piece.declared_inside ht)

theorem head (h : (Piece.many (t :: ts)).Fresh μ.scope) : (Piece.one t).Fresh μ.scope :=
  h.sub (Piece.declared_cons t ts ▸ List.sublist_append_left _ _)

theorem behind {p₂ : Piece} (h : p.Fresh μ.scope) (hq : Lays m g q ls μ μ₁)
    (hdecl : (q.declared ++ p₂.declared).Sublist p.declared) : p₂.Fresh μ₁.scope := by
  have hnodup := h.nodup.sublist hdecl
  refine ⟨(List.nodup_append.mp hnodup).2.1, fun x hx => ?_⟩
  refine hq.unbound (fun hx' => ?_) (h.unbound x (hdecl.subset (List.mem_append_right _ hx)))
  exact (List.nodup_append.mp hnodup).2.2 x hx' x hx rfl

theorem tail (h : (Piece.many (t :: ts)).Fresh μ.scope) (ht : Lays m g (.one t) ls μ μ₁) :
    (Piece.many ts).Fresh μ₁.scope :=
  h.behind ht (Piece.declared_cons t ts ▸ List.Sublist.refl _)

theorem otherwise {test yes no : Tree} (hyes : Lays m g (.many yes.children) ls μ μ₁)
    (h : (Piece.one (.node site [test, yes, no])).Fresh μ.scope) : no.arm.Fresh μ₁.scope := by
  refine h.behind hyes ?_
  simp only [Piece.declared_node, Piece.declared_cons, Piece.declared_nil, List.append_nil]
  have harms := (Piece.declared_children yes).append (Piece.declared_arm no)
  exact (harms.trans (List.sublist_append_right _ _)).trans (List.sublist_append_right _ _)

end Piece.Fresh

/-! ## Bindings only move from registers to slots -/

/-- A later scope of the same function. -/
structure Scope.Leads (s s' : Scope) : Prop where
  bound : ∀ x storage, s.local? x = some storage → ∃ storage', s'.local? x = some storage'
  slot : ∀ x p ty, s.local? x = some (.slot p ty) → s'.local? x = some (.slot p ty)
  register : ∀ x v, s'.local? x = some (.register v) → s.local? x = some (.register v)
  constants : s'.constants = s.constants

namespace Scope.Leads

variable {s s₁ s₂ : Scope}

theorem refl (s : Scope) : s.Leads s :=
  ⟨fun _ st h => ⟨st, h⟩, fun _ _ _ h => h, fun _ _ h => h, rfl⟩

theorem trans (h : s.Leads s₁) (h' : s₁.Leads s₂) : s.Leads s₂ where
  bound x st hx := by
    obtain ⟨st', hx'⟩ := h.bound x st hx
    exact h'.bound x st' hx'
  slot x p ty hx := h'.slot x p ty (h.slot x p ty hx)
  register x v hx := h.register x v (h'.register x v hx)
  constants := h'.constants.trans h.constants

theorem bind {name : String} (h : ∀ p ty', s.local? name = some (.slot p ty') → p = v ∧ ty' = ty) :
    s.Leads (s.bind name (.slot v ty)) where
  bound x st hx := by
    rw [Scope.local?_bind]
    split
    · exact ⟨_, rfl⟩
    · exact ⟨st, hx⟩
  slot x p ty' hx := by
    rw [Scope.local?_bind]
    split
    · rename_i hname
      obtain ⟨rfl, rfl⟩ := h p ty' (hname ▸ hx)
      rfl
    · exact hx
  register x u hx := by
    rw [Scope.local?_bind] at hx
    split at hx
    · cases hx
    · exact hx
  constants := rfl

end Scope.Leads

theorem Piece.Fresh.leads {site : Site} {ts : List Tree}
    (h : (Piece.one (.node site ts)).Fresh μ.scope) (kind : site.kind = .variableDeclaration)
    (ty : Ty) : μ.scope.Leads (μ.slot site.name ty).scope := by
  refine .bind fun p ty' hp => ?_
  rw [h.name kind] at hp
  cases hp

theorem Assigns.leads {name : String} (h : Assigns g name μ v ty μ₁) : μ.scope.Leads μ₁.scope := by
  cases h with
  | slot => exact .refl _
  | promote bound =>
    refine .bind fun p ty' hp => ?_
    rw [Scope.local?_of_lookup bound] at hp
    cases hp

theorem Lays.leads (h : Lays m g p ls μ μ') (hfresh : p.Fresh μ.scope) :
    μ.scope.Leads μ'.scope := by
  induction h with
  | declare kind => exact hfresh.leads kind _
  | initialise kind => exact hfresh.leads kind _
  | assign _ _ _ target =>
    refine target.leads.trans (.bind fun p ty' hp => ?_)
    simp only [target.local?, if_true] at hp
    cases hp
    exact ⟨rfl, rfl⟩
  | loop _ _ _ _ _ _ _ _ ih => exact ih (hfresh.inside (by simp))
  | ifThen _ _ _ _ _ _ _ _ ih => exact ih (hfresh.inside (by simp))
  | ifElse _ _ _ _ _ _ _ inside _ _ _ ih₁ ih₂ =>
    have hno := Piece.Fresh.otherwise inside hfresh
    exact (ih₁ (hfresh.inside (by simp))).trans (ih₂ hno)
  | block _ _ ih => exact ih hfresh.children
  | cons _ first _ ih₁ ih₂ => exact (ih₁ hfresh.head).trans (ih₂ (hfresh.tail first))
  | _ => exact .refl _

/-! ## Slots behind names -/

theorem Update.le_next (u : Update) (r : Nat) : r ≤ u.next r := by
  cases u with
  | replace => exact Nat.le_refl r
  | combine op => exact Nat.le_succ r

/-- In a function that starts in the scope `entry`: each slot in scope is one
of the function's and behind one name only, and a name in a register has been
there from the start. -/
structure Mark.Placed (entry : Scope) (g : Function) (μ : Mark) : Prop where
  slots : ∀ x p ty, μ.scope.local? x = some (.slot p ty) →
    ∃ s ∈ g.slots, s.register < μ.registers ∧ p = s.pointer ∧ s.ty = ty
  apart : ∀ x y p ty ty', μ.scope.local? x = some (.slot p ty) →
    μ.scope.local? y = some (.slot p ty') → x = y
  registers : ∀ x v, μ.scope.local? x = some (.register v) → entry.local? x = some (.register v)

namespace Mark.Placed

variable {entry : Scope}

theorem mono (h : μ.Placed entry g) (hs : ∀ x, μ'.scope.local? x = μ.scope.local? x)
    (hr : μ.registers ≤ μ'.registers) : μ'.Placed entry g where
  slots x p ty hx := by
    obtain ⟨s, hmem, hlt, hp⟩ := h.slots x p ty (hs x ▸ hx)
    exact ⟨s, hmem, Nat.lt_of_lt_of_le hlt hr, hp⟩
  apart x y p ty ty' hx hy := h.apart x y p ty ty' (hs x ▸ hx) (hs y ▸ hy)
  registers x v hx := h.registers x v (hs x ▸ hx)

theorem pointer_new (h : μ.Placed entry g) (ty : Ty) {x : String} {ty' : Ty} :
    μ.scope.local? x ≠ some (.slot (μ.pointer ty) ty') := by
  intro hx
  obtain ⟨s, -, hlt, hp, -⟩ := h.slots x _ ty' hx
  have : μ.registers = s.register := by
    simpa [Mark.pointer, Slot.pointer] using (Value.reg.inj hp).1
  omega

theorem slot (h : μ.Placed entry g) (name : String) (hslot : g.HasSlot μ ty) :
    (μ.slot name ty).Placed entry g := by
  have hlocal : ∀ x, (μ.slot name ty).scope.local? x =
      if x = name then some (.slot (μ.pointer ty) ty) else μ.scope.local? x :=
    fun x => Scope.local?_bind _ _ _ _
  refine ⟨fun x p ty' hx => ?_, fun x y p ty₁ ty₂ hx hy => ?_, fun x v hx => ?_⟩
  · rw [hlocal] at hx
    split at hx
    · cases hx
      exact ⟨_, List.mem_of_getElem? hslot, Nat.lt_succ_self _, rfl, rfl⟩
    · obtain ⟨s, hmem, hlt, hp⟩ := h.slots x p ty' hx
      exact ⟨s, hmem, Nat.lt_succ_of_lt hlt, hp⟩
  · rw [hlocal] at hx hy
    split at hx <;> split at hy
    · simp_all
    · cases hx
      exact absurd hy (h.pointer_new ty)
    · cases hy
      exact absurd hx (h.pointer_new ty)
    · exact h.apart x y p ty₁ ty₂ hx hy
  · rw [hlocal] at hx
    split at hx
    · cases hx
    · exact h.registers x v hx

end Mark.Placed

theorem Assigns.placed {entry : Scope} {name : String} (h : Assigns g name μ v ty μ₁)
    (hb : μ.Placed entry g) : μ₁.Placed entry g := by
  cases h with
  | slot => exact hb
  | promote bound slot =>
    exact (hb.slot name slot).mono (fun _ => rfl) (Nat.le_refl _)

theorem Assigns.rebound {name : String} (h : Assigns g name μ v ty μ₁) (length r : Nat)
    (x : String) :
    ((μ₁.after length r).rebind name v ty).scope.local? x = μ₁.scope.local? x := by
  simp only [Mark.rebind_scope, Mark.after_scope, Scope.local?_bind, h.local?]
  split <;> rfl

theorem Lays.placed {entry : Scope} (h : Lays m g p ls μ μ') (hb : μ.Placed entry g) :
    μ'.Placed entry g := by
  induction h with
  | declare _ _ _ _ slot => exact hb.slot _ slot
  | initialise _ _ _ _ slot code =>
    exact (hb.slot _ slot).mono (fun _ => rfl) code.registers_le
  | @assign site op rhs ls μ μ₁ update v ty c u r _ _ _ target code =>
    refine (target.placed hb).mono (target.rebound _ _) ?_
    have h₁ := code.registers_le
    have h₂ := update.le_next r
    simp only [Mark.rebind_registers, Mark.after_registers]
    omega
  | returnValue _ code => exact hb.mono (fun _ => rfl) code.registers_le
  | loop _ _ _ code _ _ _ _ ih =>
    exact (ih (hb.mono (fun _ => rfl) code.registers_le)).mono (fun _ => rfl) (Nat.le_refl _)
  | ifThen _ _ _ code _ _ _ _ ih =>
    exact (ih (hb.mono (fun _ => rfl) code.registers_le)).mono (fun _ => rfl) (Nat.le_refl _)
  | ifElse _ _ _ _ code _ _ _ _ _ _ ih₁ ih₂ =>
    have hyes := ih₁ (hb.mono (fun _ => rfl) code.registers_le)
    exact (ih₂ (hyes.mono (fun _ => rfl) (Nat.le_refl _))).mono (fun _ => rfl) (Nat.le_refl _)
  | call _ code => exact hb.mono (fun _ => rfl) code.registers_le
  | block _ _ ih => exact ih hb
  | cons _ _ _ ih₁ ih₂ => exact ih₂ (ih₁ hb)
  | returnNone => exact hb.mono (fun _ => rfl) (Nat.le_refl _)
  | leave => exact hb.mono (fun _ => rfl) (Nat.le_refl _)
  | again => exact hb.mono (fun _ => rfl) (Nat.le_refl _)
  | nil => exact hb
  | skip => exact hb

/-! ## Seeds of parameters -/

/-- A parameter that has a slot is seeded, and the seeds so far are the slots of
parameters. -/
structure Mark.Backed (entry : Scope) (g : Function) (μ : Mark) : Prop extends
    μ.Placed entry g where
  promoted : ∀ x v, entry.local? x = some (.register v) → μ.scope.local? x = some (.register v) ∨
    ∃ p ty, μ.scope.local? x = some (.slot p ty) ∧ ⟨v, p⟩ ∈ g.seeds
  seeds : ∀ (i : Nat) sd, i < μ.seeds → g.seeds[i]? = some sd → ∃ x ty,
    μ.scope.local? x = some (.slot sd.pointer ty) ∧ entry.local? x = some (.register sd.value)

namespace Mark.Backed

variable {entry : Scope}

theorem mono (h : μ.Backed entry g) (hs : ∀ x, μ'.scope.local? x = μ.scope.local? x)
    (hr : μ.registers ≤ μ'.registers) (hseeds : μ'.seeds = μ.seeds) : μ'.Backed entry g where
  toPlaced := h.toPlaced.mono hs hr
  promoted x v hx := by
    rw [hs x]
    exact h.promoted x v hx
  seeds i sd hi hsd := by
    obtain ⟨x, ty, hx, he⟩ := h.seeds i sd (hseeds ▸ hi) hsd
    exact ⟨x, ty, (hs x).trans hx, he⟩

theorem slot (h : μ.Backed entry g) {name : String} (hslot : g.HasSlot μ ty)
    (hnew : μ.scope.local? name = none) : (μ.slot name ty).Backed entry g := by
  have hold : ∀ {x storage}, μ.scope.local? x = some storage →
      (μ.slot name ty).scope.local? x = some storage := by
    intro x storage hx
    have hne : x ≠ name := by
      rintro rfl
      simp [hnew] at hx
    exact (Scope.local?_bind _ _ _ _).trans ((if_neg hne).trans hx)
  refine ⟨h.toPlaced.slot name hslot, fun x v hx => ?_, fun i sd hi hsd => ?_⟩
  · rcases h.promoted x v hx with hreg | ⟨p, ty', hslot', hmem⟩
    · exact .inl (hold hreg)
    · exact .inr ⟨p, ty', hold hslot', hmem⟩
  · obtain ⟨x, ty', hx, he⟩ := h.seeds i sd hi hsd
    exact ⟨x, ty', hold hx, he⟩

theorem promote (h : μ.Backed entry g) {name : String} (hslot : g.HasSlot μ v.ty)
    (hseed : g.HasSeed μ v) (hreg : μ.scope.local? name = some (.register v)) :
    (μ.promote name v.ty).Backed entry g := by
  have hlocal : ∀ x, (μ.promote name v.ty).scope.local? x =
      if x = name then some (.slot (μ.pointer v.ty) v.ty) else μ.scope.local? x :=
    fun x => Scope.local?_bind _ _ _ _
  have hentry := h.registers name v hreg
  refine ⟨(h.toPlaced.slot name hslot).mono (fun _ => rfl) (Nat.le_refl _), fun x u hu => ?_,
    fun i sd hi hsd => ?_⟩
  · rw [hlocal]
    split
    · rename_i hname
      obtain rfl : v = u := by simpa [hname, hentry] using hu
      exact .inr ⟨_, _, rfl, List.mem_of_getElem? hseed⟩
    · exact h.promoted x u hu
  · by_cases hlast : i = μ.seeds
    · obtain rfl : ⟨v, μ.pointer v.ty⟩ = sd := by
        rw [hlast, hseed] at hsd
        exact Option.some.inj hsd
      exact ⟨name, v.ty, by rw [hlocal, if_pos rfl], hentry⟩
    · have hlt : i < μ.seeds + 1 := hi
      obtain ⟨x, ty', hx, he⟩ := h.seeds i sd (by omega) hsd
      refine ⟨x, ty', ?_, he⟩
      rw [hlocal, if_neg (by rintro rfl; simp [hreg] at hx), hx]

end Mark.Backed

theorem Assigns.backed {entry : Scope} {name : String} (h : Assigns g name μ v ty μ₁)
    (hb : μ.Backed entry g) : μ₁.Backed entry g := by
  cases h with
  | slot => exact hb
  | promote bound slot seed => exact hb.promote slot seed (Scope.local?_of_lookup bound)

theorem Lays.backed {entry : Scope} (h : Lays m g p ls μ μ') (hfresh : p.Fresh μ.scope)
    (hb : μ.Backed entry g) : μ'.Backed entry g := by
  induction h with
  | declare kind _ _ _ slot =>
    exact hb.slot slot (hfresh.name kind)
  | initialise kind _ _ _ slot code =>
    have hslot := hb.slot slot (hfresh.name kind)
    exact hslot.mono (fun _ => rfl) code.registers_le rfl
  | @assign site op rhs ls μ μ₁ update v ty c u r _ _ _ target code =>
    refine (target.backed hb).mono (target.rebound _ _) ?_ rfl
    have h₁ := code.registers_le
    have h₂ := update.le_next r
    simp only [Mark.rebind_registers, Mark.after_registers]
    omega
  | returnValue _ code => exact hb.mono (fun _ => rfl) code.registers_le rfl
  | loop _ _ _ code _ _ _ _ ih =>
    exact (ih (hfresh.inside (by simp)) (hb.mono (fun _ => rfl) code.registers_le rfl)).mono
      (fun _ => rfl) (Nat.le_refl _) rfl
  | ifThen _ _ _ code _ _ _ _ ih =>
    exact (ih (hfresh.inside (by simp)) (hb.mono (fun _ => rfl) code.registers_le rfl)).mono
      (fun _ => rfl) (Nat.le_refl _) rfl
  | ifElse _ _ _ _ code _ _ inside _ _ _ ih₁ ih₂ =>
    have hno := Piece.Fresh.otherwise inside hfresh
    have hyes := ih₁ (hfresh.inside (by simp)) (hb.mono (fun _ => rfl) code.registers_le rfl)
    exact (ih₂ hno (hyes.mono (fun _ => rfl) (Nat.le_refl _) rfl)).mono
      (fun _ => rfl) (Nat.le_refl _) rfl
  | call _ code => exact hb.mono (fun _ => rfl) code.registers_le rfl
  | block _ _ ih => exact ih hfresh.children hb
  | cons _ first _ ih₁ ih₂ => exact ih₂ (hfresh.tail first) (ih₁ hfresh.head hb)
  | returnNone => exact hb.mono (fun _ => rfl) (Nat.le_refl _) rfl
  | leave => exact hb.mono (fun _ => rfl) (Nat.le_refl _) rfl
  | again => exact hb.mono (fun _ => rfl) (Nat.le_refl _) rfl
  | nil => exact hb
  | skip => exact hb

end Layout

/-! ## Slots apart from code -/

structure Function.Apart (f : Function) : Prop where
  slots : ∀ s ∈ f.slots, s.register < f.registers
  code : ∀ (b : Nat) (k : Block), f.bodies[b]? = some k → ∀ i ∈ k.instrs, ∀ d, i.dest? = some d →
    d < f.registers ∧ ∀ s ∈ f.slots, s.register ≠ d

namespace Function.Apart

variable {f : Function}

theorem takeRegister (h : f.Apart) : f.takeRegister.Apart where
  slots s hs := Nat.lt_succ_of_lt (h.slots s hs)
  code b k hk i hi d hd := by
    obtain ⟨hlt, hne⟩ := h.code b k hk i hi d hd
    exact ⟨Nat.lt_succ_of_lt hlt, hne⟩

theorem append (h : f.Apart) {b : Nat} {i : Instr}
    (hi : ∀ d, i.dest? = some d → d < f.registers ∧ ∀ s ∈ f.slots, s.register ≠ d) :
    (f.append b i).Apart where
  slots := h.slots
  code j k hk i' hi' d hd := by
    rw [Function.bodies_append] at hk
    split at hk
    · obtain ⟨l, hl, rfl⟩ := Option.map_eq_some_iff.mp hk
      rcases List.mem_append.mp hi' with hi' | hi'
      · exact h.code j l hl i' hi' d hd
      · obtain rfl := List.mem_singleton.mp hi'
        exact hi d hd
    · exact h.code j k hk i' hi' d hd

theorem stable : Lower.Stable Function.Apart where
  declare _ _ := ⟨nofun, nofun⟩
  define := by
    intro f b k i _ _ hd _ h
    refine h.takeRegister.append fun d hd' => ?_
    obtain rfl : f.registers = d := by simpa [hd] using hd'
    exact ⟨Nat.lt_succ_self _, fun s hs => Nat.ne_of_lt (h.slots s hs)⟩
  perform := by
    intro f b k i _ _ hd h
    exact h.append fun d hd' => by simp [hd] at hd'
  block := by
    intro f label h
    refine ⟨h.slots, fun j k hk => ?_⟩
    rw [Function.bodies_addBlock] at hk
    split at hk
    · cases hk
      exact nofun
    · exact h.code j k hk
  slot := by
    intro f ty _ h
    refine ⟨fun s hs => ?_, fun j k hk i hi d hd => ?_⟩
    · rcases List.mem_append.mp hs with hs | hs
      · exact h.takeRegister.slots s hs
      · obtain rfl := List.mem_singleton.mp hs
        exact Nat.lt_succ_self _
    · obtain ⟨hlt, hne⟩ := h.code j k hk i hi d hd
      refine ⟨Nat.lt_succ_of_lt hlt, fun s hs => ?_⟩
      rcases List.mem_append.mp hs with hs | hs
      · exact hne s hs
      · obtain rfl := List.mem_singleton.mp hs
        exact Nat.ne_of_gt hlt
  burn h := h.takeRegister
  seed _ _ h := ⟨h.slots, h.code⟩
  close := by
    intro f b k x _ _ _ h
    refine ⟨h.slots, fun j l hl => ?_⟩
    rw [Function.bodies_close] at hl
    split at hl
    · obtain ⟨l', hl', rfl⟩ := Option.map_eq_some_iff.mp hl
      exact h.code j l' hl'
    · exact h.code j l hl

end Function.Apart

end TreeFlow
