import TreeFlow.Proofs.Entry
import TreeFlow.Proofs.Paths

/-!
# Where operands come from

An instruction of a lowered function stands behind other instructions of its
block. It may use constants, parameters, addresses of formats and what one of
those instructions left in a register. Slots are used as addresses of loads and
stores, and in no other way. The code of an expression keeps to this whatever
stands before it.
-/

set_option autoImplicit false

namespace TreeFlow

def Instr.result? (m : Module) : Instr → Option (Nat × Ty)
  | .alloca d ty => some (d, .ptr ty)
  | .load d ty _ => some (d, ty)
  | .store _ _ => none
  | .binary d _ l _ => some (d, l.ty)
  | .icmp d _ _ _ => some (d, .i1)
  | .call d id _ => d.bind fun d => (m.function? id).map fun f => (d, f.ret)

theorem Instr.dest?_of_result? {m : Module} {i : Instr} {r : Nat} {ty : Ty}
    (h : i.result? m = some (r, ty)) : i.dest? = some r := by
  cases i with
  | call d id args =>
    obtain ⟨d', hd, h⟩ := Option.bind_eq_some_iff.mp h
    obtain ⟨f, -, hf⟩ := Option.map_eq_some_iff.mp h
    cases hf
    exact hd
  | store => cases h
  | _ =>
    cases h
    rfl

def Ty.Scalar (ty : Ty) : Prop := ty = .i32 ∨ ty = .i1

/-- Values that no instruction has to provide: integers of 32 bits, declared
parameters and addresses of globals. -/
def Value.Given (m : Module) (f : Signature) : Value → Prop
  | .const ty n => ty = .i32 ∧ -2147483648 ≤ n ∧ n < 2147483648
  | .param i ty => ∃ p, f.params[i]? = some p ∧ p.ty = ty
  | .reg _ _ => False
  | .global id ty => id < m.globals.length ∧ ty = .ptr .i8

/-- The value is given, or an instruction among `before` leaves it in a
register that is no slot. -/
def Value.Known (m : Module) (f : Signature) (before : List Instr) (v : Value) : Prop :=
  v.Given m f ∨
    ∃ r ty, v = .reg r ty ∧ ∃ i ∈ before, i.isAlloca = false ∧ i.result? m = some (r, ty)

def Function.Addresses (g : Function) (p : Value) (ty : Ty) : Prop :=
  ∃ s ∈ g.slots, p = s.pointer ∧ s.ty = ty

/-- The arguments fit the parameters in number and in types. -/
structure Signature.Fits (f : Signature) (args : List Value) : Prop where
  enough : f.params.length ≤ args.length
  notMore : f.variadic = false → args.length ≤ f.params.length
  types : ∀ (i : Nat) (p : Param) (v : Value), f.params[i]? = some p → args[i]? = some v →
    v.ty = p.ty

/-- The instruction may stand behind the instructions `before`. -/
def Instr.Follows (m : Module) (g : Function) (before : List Instr) : Instr → Prop
  | .alloca _ _ => False
  | .load _ ty p => g.Addresses p ty
  | .store v p => v.Known m g.toSignature before ∧ g.Addresses p v.ty
  | .binary _ _ l r | .icmp _ _ l r =>
    l.Known m g.toSignature before ∧ r.Known m g.toSignature before ∧ l.ty = r.ty ∧ l.ty.Scalar
  | .call d id args =>
    (∀ v ∈ args, v.Known m g.toSignature before) ∧
      ∃ f, m.function? id = some f ∧ f.Fits args ∧ (d.isSome = true ↔ f.ret ≠ .void)

/-- The terminator may stand behind the instructions of its block. It does not
lead back to the entry. -/
def Terminator.Follows (m : Module) (g : Function) (before : List Instr) : Terminator → Prop
  | .br j => j ≠ 0
  | .condBr c yes no => c.Known m g.toSignature before ∧ c.ty = .i1 ∧ yes ≠ 0 ∧ no ≠ 0
  | .ret v => ∀ w ∈ v, w.Known m g.toSignature before

def Follow (m : Module) (g : Function) : List Instr → List Instr → Prop
  | _, [] => True
  | before, i :: code => i.Follows m g before ∧ Follow m g (before ++ [i]) code

section Follow

variable {m : Module} {g : Function} {before : List Instr}

theorem Value.Known.mono {f : Signature} {v : Value} {after : List Instr}
    (h : v.Known m f before) (hsub : before ⊆ after) : v.Known m f after := by
  rcases h with h | ⟨r, ty, hv, i, hi, hplain⟩
  · exact .inl h
  · exact .inr ⟨r, ty, hv, i, hsub hi, hplain⟩

theorem Value.known_last {f : Signature} (before code : List Instr) {i : Instr} {r : Nat} {ty : Ty}
    (ha : i.isAlloca = false) (hr : i.result? m = some (r, ty)) :
    (Value.reg r ty).Known m f (before ++ (code ++ [i])) :=
  .inr ⟨r, ty, rfl, i, by simp, ha, hr⟩

theorem follow_append {code code' : List Instr} :
    Follow m g before (code ++ code') ↔
      Follow m g before code ∧ Follow m g (before ++ code) code' := by
  induction code generalizing before with
  | nil => simp [Follow]
  | cons i code ih => simp [Follow, ih, and_assoc]

theorem follow_one {i : Instr} : Follow m g before [i] ↔ i.Follows m g before := by
  simp [Follow]

theorem Follow.get {code : List Instr} (h : Follow m g before code) {o : Nat} {i : Instr}
    (hi : code[o]? = some i) : i.Follows m g (before ++ code.take o) := by
  induction code generalizing before o with
  | nil => cases hi
  | cons j code ih =>
    cases o with
    | zero =>
      obtain rfl : j = i := by simpa using hi
      simpa using h.1
    | succ o => simpa using ih h.2 (by simpa using hi)

end Follow

/-! ## Scopes -/

structure Scope.Sound (s : Scope) (g : Function) : Prop where
  register : ∀ x v, s.local? x = some (.register v) →
    ∃ i p, g.params[i]? = some p ∧ p.ty = .i32 ∧ v = .param i .i32
  slot : ∀ x p ty, s.local? x = some (.slot p ty) → ty = .i32 ∧ g.Addresses p ty
  constant : ∀ x n, s.constant? x = some n → -2147483648 ≤ n ∧ n < 2147483648

namespace Scope.Sound

variable {s : Scope} {g : Function} {name : String}

theorem bind (h : s.Sound g) {p : Value} {ty : Ty} (hty : ty = .i32) (hp : g.Addresses p ty) :
    (s.bind name (.slot p ty)).Sound g := by
  refine ⟨fun x v hx => ?_, fun x q ty' hx => ?_, h.constant⟩
  · rw [Scope.local?_bind] at hx
    split at hx
    · cases hx
    · exact h.register x v hx
  · rw [Scope.local?_bind] at hx
    split at hx
    · cases hx
      exact ⟨hty, hp⟩
    · exact h.slot x q ty' hx

theorem lookup_register (h : s.Sound g) {v : Value}
    (hl : s.lookup name = some (.stored (.register v))) :
    ∃ i p, g.params[i]? = some p ∧ p.ty = .i32 ∧ v = .param i .i32 :=
  h.register name v (Scope.local?_of_lookup hl)

theorem lookup_slot (h : s.Sound g) {p : Value} {ty : Ty}
    (hl : s.lookup name = some (.stored (.slot p ty))) : ty = .i32 ∧ g.Addresses p ty :=
  h.slot name p ty (Scope.local?_of_lookup hl)

theorem lookup_constant (h : s.Sound g) {n : Int}
    (hl : s.lookup name = some (.constant n)) : -2147483648 ≤ n ∧ n < 2147483648 := by
  unfold Scope.lookup at hl
  split at hl
  · cases hl
  · obtain ⟨n', hn, he⟩ := Option.map_eq_some_iff.mp hl
    cases he
    exact h.constant name _ hn

end Scope.Sound

theorem Text.int32?_fits {cs : List Char} {n : Int} (h : Text.int32? cs = some n) :
    -2147483648 ≤ n ∧ n < 2147483648 := by
  obtain ⟨-, hfits⟩ := Option.filter_eq_some_iff.mp h
  simpa [Text.fitsInt32] using hfits

theorem Site.literal_fits {site : Site} {n : Int} (h : site.literal = .ok n) :
    -2147483648 ≤ n ∧ n < 2147483648 := by
  unfold Site.literal at h
  split at h
  · cases h
    exact Text.int32?_fits ‹_›
  · cases h

/-! ## Calls -/

def Module.Regular (m : Module) : Prop :=
  ∀ j f, m.function? j = some f → f.variadic = true → f.toSignature = Intrinsic.signature

section Calls

variable {m : Module} {name : String} {id : Nat} {f : Function} {lead args : List Value}

theorem Module.Reaches.lead_fits (h : m.Reaches name id f lead) (hm : m.Regular) :
    (f.variadic = false → lead = []) ∧ (∀ v ∈ lead, v.Given m f.toSignature) ∧
      ∀ (i : Nat) (p : Param) (v : Value), f.params[i]? = some p → lead[i]? = some v →
        v.ty = p.ty := by
  have hlead := h.leading
  split at hlead
  · rename_i hi
    have hvar : f.variadic = true := (Bool.and_eq_true_iff.mp hi).1
    obtain ⟨g, hg, rfl⟩ := hlead
    have hlt := (List.getElem?_eq_some_iff.mp hg).1
    have hparams : f.params = Intrinsic.signature.params :=
      congrArg Signature.params (hm id f h.function hvar)
    refine ⟨fun hv => by simp [hvar] at hv, ?_, fun i p v hp hv => ?_⟩
    · intro v hv
      obtain rfl := List.mem_singleton.mp hv
      exact ⟨hlt, rfl⟩
    · rw [hparams] at hp
      cases i with
      | zero =>
        cases hp
        cases hv
        rfl
      | succ i => cases hp
  · subst hlead
    exact ⟨fun _ => rfl, nofun, nofun⟩

theorem Signature.Accepts.fits (h : f.Accepts lead args) (hr : m.Reaches name id f lead)
    (hm : m.Regular) : f.Fits (lead ++ args) := by
  obtain ⟨hplain, -, hlead⟩ := hr.lead_fits hm
  refine ⟨?_, fun hv => ?_, fun i p v hp hv => ?_⟩
  · have := h.enough
    simp only [List.length_append]
    omega
  · have := h.notMore hv
    simp only [hplain hv, List.length_nil, List.nil_append] at this ⊢
    omega
  · by_cases hi : i < lead.length
    · rw [List.getElem?_append_left hi] at hv
      exact hlead i p v hp hv
    · rw [List.getElem?_append_right (by omega)] at hv
      exact h.types _ v p hv (by rw [show lead.length + (i - lead.length) = i by omega, hp])

end Calls

/-! ## Expressions -/

section Emitted

variable {m : Module} {g : Function} {scope : Scope} {r r' : Nat} {c : List Instr}

theorem Operator.follows_instr {op : Operator} {before : List Instr} {d : Nat} {u v : Value}
    (hu : u.Known m g.toSignature before) (hv : v.Known m g.toSignature before)
    (hsame : u.ty = v.ty) (hscalar : u.ty.Scalar) : (op.instr d u v).Follows m g before := by
  cases op <;> exact ⟨hu, hv, hsame, hscalar⟩

theorem Operator.result?_instr (op : Operator) (d : Nat) (u v : Value) :
    (op.instr d u v).result? m = some (d, op.ty u) := by
  cases op <;> rfl

theorem Operator.plain_instr (op : Operator) (d : Nat) (u v : Value) :
    (op.instr d u v).isAlloca = false := by
  cases op <;> rfl

theorem Operator.scalar_ty {op : Operator} {u : Value} (h : u.ty.Scalar) : (op.ty u).Scalar := by
  cases op with
  | arith => exact h
  | compare => exact .inr rfl

theorem Module.AllInt.ret_of_value {id : Nat} {f : Function} (hm : m.AllInt)
    (hf : m.function? id = some f) (hv : f.ret.isVoid = false) : f.ret = .i32 := by
  rcases hm id f hf with h | h
  · exact h
  · rw [h] at hv
    cases hv

theorem Module.Reaches.follows_call {name : String} {id : Nat} {f : Function}
    {lead args : List Value} {before : List Instr} {d : Option Nat}
    (hr : m.Reaches name id f lead) (hm : m.Regular) (hfits : f.Accepts lead args)
    (hargs : ∀ v ∈ args, v.Known m g.toSignature before) (hd : d.isSome = true ↔ f.ret ≠ .void) :
    (Instr.call d id (lead ++ args)).Follows m g before := by
  refine ⟨fun v hv => ?_, f, hr.function, hfits.fits hr hm, hd⟩
  rcases List.mem_append.mp hv with hv | hv
  · -- The leading argument is an address, which does not depend on the function.
    have hgiven := (hr.lead_fits hm).2.1 v hv
    have hlead := hr.leading
    split at hlead
    · obtain ⟨j, -, rfl⟩ := hlead
      obtain rfl := List.mem_singleton.mp hv
      exact .inl hgiven
    · subst hlead
      cases hv
  · exact hargs v hv

/-- The code of an expression may follow any code, and leaves scalar values. -/
theorem Emits.follow {p : Piece} {vs : List Value} (h : Emits m scope p r c vs r')
    (hs : scope.Sound g) (hm : m.AllInt) (hreg : m.Regular) (before : List Instr) :
    Follow m g before c ∧ ∀ v ∈ vs, v.Known m g.toSignature (before ++ c) ∧ v.ty.Scalar := by
  induction h generalizing before with
  | literal kind value =>
    refine ⟨trivial, fun v hv => ?_⟩
    obtain rfl := List.mem_singleton.mp hv
    exact ⟨.inl ⟨rfl, Site.literal_fits value⟩, .inl rfl⟩
  | register kind bound =>
    refine ⟨trivial, fun v hv => ?_⟩
    obtain ⟨i, p, hp, hty, rfl⟩ := hs.lookup_register bound
    obtain rfl := List.mem_singleton.mp hv
    exact ⟨.inl ⟨p, hp, hty⟩, .inl rfl⟩
  | slot kind bound =>
    obtain ⟨rfl, haddr⟩ := hs.lookup_slot bound
    refine ⟨follow_one.mpr haddr, fun v hv => ?_⟩
    obtain rfl := List.mem_singleton.mp hv
    exact ⟨Value.known_last before [] rfl rfl, .inl rfl⟩
  | constant kind bound =>
    refine ⟨trivial, fun v hv => ?_⟩
    obtain rfl := List.mem_singleton.mp hv
    exact ⟨.inl ⟨rfl, hs.lookup_constant bound⟩, .inl rfl⟩
  | @binary site a b op r r₁ r₂ c₁ c₂ u v kind operator left right same ihl ihr =>
    obtain ⟨hleft, hu⟩ := ihl before
    obtain ⟨hright, hv⟩ := ihr (before ++ c₁)
    obtain ⟨hu, hscalar⟩ := hu u (by simp)
    obtain ⟨hv, -⟩ := hv v (by simp)
    have hinstr : (op.instr r₂ u v).Follows m g (before ++ (c₁ ++ c₂)) :=
      op.follows_instr (hu.mono (by simp)) (hv.mono (by simp)) same hscalar
    refine ⟨follow_append.mpr ⟨follow_append.mpr ⟨hleft, hright⟩, follow_one.mpr hinstr⟩, ?_⟩
    intro w hw
    obtain rfl := List.mem_singleton.mp hw
    exact ⟨Value.known_last before (c₁ ++ c₂) (op.plain_instr _ _ _) (op.result?_instr _ _ _),
      op.scalar_ty hscalar⟩
  | @call site ts id r r₁ f lead args c kind callee operands fits returns ih =>
    obtain ⟨hcode, hargs⟩ := ih before
    have hret := hm.ret_of_value callee.function returns
    have hinstr : (Instr.call (some r₁) id (lead ++ args)).Follows m g (before ++ c) :=
      callee.follows_call hreg fits (fun v hv => (hargs v hv).1) (by simp [hret])
    refine ⟨follow_append.mpr ⟨hcode, follow_one.mpr hinstr⟩, fun v hv => ?_⟩
    obtain rfl := List.mem_singleton.mp hv
    refine ⟨Value.known_last before c rfl ?_, .inl hret⟩
    simp [Instr.result?, callee.function]
  | @command site ts id r r₁ f lead args c kind callee operands fits returns ih =>
    obtain ⟨hcode, hargs⟩ := ih before
    have hret : f.ret = .void := by
      rcases hm id f callee.function with h | h
      · rw [h] at returns
        cases returns
      · exact h
    have hinstr : (Instr.call none id (lead ++ args)).Follows m g (before ++ c) :=
      callee.follows_call hreg fits (fun v hv => (hargs v hv).1) (by simp [hret])
    exact ⟨follow_append.mpr ⟨hcode, follow_one.mpr hinstr⟩, nofun⟩
  | nil => exact ⟨trivial, nofun⟩
  | @cons t ts r r₁ r₂ c₁ c₂ v vs head tail ihh iht =>
    obtain ⟨hhead, hv⟩ := ihh before
    obtain ⟨htail, hvs⟩ := iht (before ++ c₁)
    refine ⟨follow_append.mpr ⟨hhead, htail⟩, List.forall_mem_cons.mpr ⟨?_, fun w hw => ?_⟩⟩
    · obtain ⟨hv, hscalar⟩ := hv v (by simp)
      exact ⟨hv.mono (by simp), hscalar⟩
    · obtain ⟨hw, hscalar⟩ := hvs w hw
      exact ⟨by simpa using hw, hscalar⟩

theorem Tests.follow {t : Tree} {v : Value} (h : Tests m scope t r c v r') (hs : scope.Sound g)
    (hm : m.AllInt) (hreg : m.Regular) (before : List Instr) :
    Follow m g before c ∧ v.Known m g.toSignature (before ++ c) ∧ v.ty = .i1 := by
  cases h with
  | truth code ty =>
    obtain ⟨hcode, hv⟩ := code.follow hs hm hreg before
    exact ⟨hcode, (hv v (by simp)).1, ty⟩
  | @nonzero r₁ c v code ty =>
    obtain ⟨hcode, hv⟩ := code.follow hs hm hreg before
    have hinstr : (Instr.icmp r₁ .ne v (.int 0)).Follows m g (before ++ c) :=
      ⟨(hv v (by simp)).1, .inl ⟨rfl, by decide⟩, ty, .inl ty⟩
    exact ⟨follow_append.mpr ⟨hcode, follow_one.mpr hinstr⟩,
      Value.known_last before c rfl rfl, rfl⟩

end Emitted

end TreeFlow
