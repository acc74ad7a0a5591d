import TreeFlow.Proofs.SingleAssignment

/-!
# Types of lowered code

The operands of a lowered module have the types that their definitions give
them, and every instruction and terminator uses them at the types it works on.
Calls fit the signatures of their callees.
-/

set_option autoImplicit false

namespace TreeFlow

/-- The type of an operand is that of its definition. -/
def Value.WellTyped (m : Module) (f : Function) : Value → Prop
  | .const ty n => ty = .i32 ∧ -2147483648 ≤ n ∧ n < 2147483648
  | .param i ty => ∃ p, f.params[i]? = some p ∧ p.ty = ty
  | .reg r ty => (∃ i ∈ f.code, i.dest? = some r) ∧
      ∀ i ∈ f.code, i.dest? = some r → i.result? m = some (r, ty)
  | .global id ty => id < m.globals.length ∧ ty = .ptr .i8

/-- The types of the operands of an instruction agree. -/
def Instr.Agrees (m : Module) : Instr → Prop
  | .alloca _ _ => True
  | .load _ ty p => p.ty = .ptr ty
  | .store v p => p.ty = .ptr v.ty
  | .binary _ _ l r | .icmp _ _ l r => l.ty = r.ty ∧ l.ty.Scalar
  | .call d id args =>
    ∃ g, m.function? id = some g ∧ g.Fits args ∧ (d.isSome = true ↔ g.ret ≠ .void)

def Terminator.Agrees : Terminator → Prop
  | .condBr c _ _ => c.ty = .i1
  | _ => True

structure Function.WellTyped (m : Module) (f : Function) : Prop where
  instrs : ∀ b ∈ f.blocks, ∀ i ∈ b.instrs, i.Agrees m ∧ ∀ v ∈ i.operands, v.WellTyped m f
  terminators : ∀ b ∈ f.blocks, ∀ x, b.terminator = some x →
    x.Agrees ∧ ∀ v ∈ x.operands, v.WellTyped m f

section Typing

variable {m : Module} {f : Function} {q : Point} {i : Instr} {v : Value}

theorem Function.mem_code : i ∈ f.code ↔ ∃ q, f.InstrAt q i := by
  constructor
  · intro hi
    obtain ⟨l, hl, hi⟩ := List.mem_flatMap.mp hi
    obtain ⟨b, hb⟩ := List.getElem?_of_mem hl
    obtain ⟨o, ho⟩ := List.getElem?_of_mem hi
    exact ⟨⟨b, o⟩, l, hb, ho⟩
  · rintro ⟨q, l, hl, hi⟩
    exact List.mem_flatMap.mpr ⟨l, List.mem_of_getElem? hl, List.mem_of_getElem? hi⟩

/-- A register has the type that one instruction gives it, since no other
instruction defines it. -/
theorem Function.Sound.wellTyped_reg (h : f.Sound m) {r : Nat} {ty : Ty} (hi : f.InstrAt q i)
    (hr : i.result? m = some (r, ty)) : (Value.reg r ty).WellTyped m f := by
  have hdest := Instr.dest?_of_result? hr
  refine ⟨⟨i, Function.mem_code.mpr ⟨q, hi⟩, hdest⟩, fun j hj hjr => ?_⟩
  obtain ⟨q', hj⟩ := Function.mem_code.mp hj
  rw [← Function.instrAt_unique h.nodup hi hdest hj hjr]
  exact hr

theorem Function.Sound.wellTyped_operand (h : f.Sound m) (hv : f.ReadsAt v q) :
    v.WellTyped m f := by
  rcases Function.readsAt_iff.mp hv with hp | htakes
  · obtain ⟨o, s, hs, rfl, -⟩ := h.pointer hp
    exact h.wellTyped_reg (Function.instrAt_slot (Function.ne_nil_of_readsAt hv) hs) rfl
  · rcases h.input htakes with hgiven | ⟨r, ty, rfl, o, i, -, hi, -, hr⟩
    · cases v with
      | reg => cases hgiven
      | _ => exact hgiven
    · exact h.wellTyped_reg hi hr

theorem Function.Addresses.ty {p : Value} {ty : Ty} (h : f.Addresses p ty) : p.ty = .ptr ty := by
  obtain ⟨s, -, rfl, rfl⟩ := h
  rfl

theorem Instr.Follows.agrees {before : List Instr} (h : i.Follows m f before) : i.Agrees m := by
  cases i with
  | alloca => trivial
  | load => exact h.ty
  | store => exact h.2.ty
  | call => exact h.2
  | _ => exact h.2.2

theorem Function.Sound.agrees (h : f.Sound m) (hi : f.InstrAt q i) : i.Agrees m := by
  rcases h.instrAt hi with ⟨-, s, -, rfl⟩ | ⟨-, -, s, hs, rfl⟩ | ⟨-, k, -, hfollows⟩
  · trivial
  · exact (h.seeded s hs).2.ty
  · exact hfollows.agrees

theorem Function.Sound.agrees_terminator (h : f.Sound m) {b : Nat} {l : Block} {x : Terminator}
    (hl : f.block? b = some l) (hx : l.terminator = some x) : x.Agrees := by
  obtain ⟨k, hk, rfl⟩ := Function.block?_eq_some.mp hl
  have hfollows := (h.fits ⟨b, k.instrs.length⟩ k hk).2 rfl x hx
  cases x with
  | condBr => exact hfollows.2.1
  | _ => trivial

/-- Lowered functions are well typed. -/
theorem Tree.lower_wellTyped {singlePass : Bool} {t : Tree}
    (h : (t.lower singlePass).result = .ok m) (hf : f ∈ m.functions) : f.WellTyped m := by
  obtain ⟨id, hid⟩ := List.getElem?_of_mem hf
  have hsound := Tree.lower_functions_sound h hid
  refine ⟨fun l hl i hi => ?_, fun l hl x hx => ?_⟩
  · obtain ⟨b, hb⟩ := List.getElem?_of_mem hl
    obtain ⟨o, ho⟩ := List.getElem?_of_mem hi
    have hat : f.InstrAt ⟨b, o⟩ i := ⟨l, hb, ho⟩
    refine ⟨hsound.agrees hat, fun v hv => hsound.wellTyped_operand (q := ⟨b, o⟩) ?_⟩
    exact ⟨l, hb, .inl ⟨i, ho, hv⟩⟩
  · obtain ⟨b, hb⟩ := List.getElem?_of_mem hl
    refine ⟨hsound.agrees_terminator hb hx, fun v hv => ?_⟩
    exact hsound.wellTyped_operand (q := ⟨b, l.instrs.length⟩) ⟨l, hb, .inr ⟨rfl, x, hx, hv⟩⟩

end Typing

theorem Tree.countdown_wellTyped :
    ∃ m, (Tree.countdown.lower false).result = .ok m ∧ m.functions.length = 2 ∧
      ∀ f ∈ m.functions, f.WellTyped m := by
  obtain ⟨m, hm⟩ : ∃ m, (Tree.countdown.lower false).result = .ok m :=
    Lower.except_of_isOk (by decide +kernel)
  have hlength : (Tree.countdown.lower false).result.toOption.map (·.functions.length) =
      some 2 := by decide +kernel
  rw [hm] at hlength
  exact ⟨m, hm, Option.some.inj hlength, fun f hf => Tree.lower_wellTyped hm hf⟩

end TreeFlow
