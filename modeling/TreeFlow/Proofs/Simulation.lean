import Mathlib.Data.List.Forall2
import TreeFlow.Proofs.Bindings
import TreeFlow.Proofs.Meaning

/-!
# Expressions and their code

The code of an expression computes what the expression means, if every name in
scope reads as its variable: a register has the content of the variable, a slot
has it in its cell. The code changes no register below its own range and no
cell, so what was read before can still be read.
-/

set_option autoImplicit false

namespace TreeFlow

/-! ## Data of a type -/

def Datum.ty? : Datum → Option Ty
  | .int _ => some .i32
  | .truth _ => some .i1
  | _ => none

def Datum.Fits (x : Datum) (ty : Ty) : Prop := x.ty? = some ty

/-- A result fits a result type: nothing fits `void` only. -/
def ResultFits (ret : Ty) : Option Datum → Prop
  | none => ret = .void
  | some x => x.Fits ret

theorem Datum.Fits.int {x : Datum} (h : x.Fits .i32) : ∃ n, x = .int n := by
  cases x with
  | int n => exact ⟨n, rfl⟩
  | _ => cases h

theorem resultFits_none {ret : Ty} (h : ret.isVoid = true) : ResultFits ret none := by
  cases ret with
  | void => rfl
  | _ => cases h

theorem ResultFits.none {ret : Ty} {r : Option Datum} (h : ResultFits ret r)
    (hv : ret.isVoid = true) : r = none := by
  cases r with
  | none => rfl
  | some x =>
    cases ret with
    | void => cases x <;> cases h
    | _ => cases hv

theorem ResultFits.some {ret : Ty} {r : Option Datum} (h : ResultFits ret r)
    (hv : ret.isVoid = false) : ∃ x, r = some x ∧ x.Fits ret := by
  cases r with
  | none =>
    rw [show ret = .void from h] at hv
    cases hv
  | some x => exact ⟨x, rfl, h⟩

theorem Interpretation.apply_fits {I : Interpretation} {op : Operator} {x y z : Datum} {u : Value}
    (h : I.apply op x y = some z) (hx : x.Fits u.ty) : z.Fits (op.ty u) := by
  cases op with
  | arith op =>
    change z.Fits u.ty
    cases x with
    | int a =>
      cases y with
      | int b =>
        obtain ⟨c, -, rfl⟩ := Option.map_eq_some_iff.mp h
        exact hx
      | _ => cases h
    | truth a =>
      cases y with
      | truth b =>
        obtain ⟨c, -, rfl⟩ := Option.map_eq_some_iff.mp h
        exact hx
      | _ => cases h
    | _ => cases h
  | compare test =>
    change z.Fits .i1
    cases x with
    | int a =>
      cases y with
      | int b =>
        obtain ⟨c, -, rfl⟩ := Option.map_eq_some_iff.mp h
        rfl
      | _ => cases h
    | truth a =>
      cases y with
      | truth b =>
        obtain ⟨c, -, rfl⟩ := Option.map_eq_some_iff.mp h
        rfl
      | _ => cases h
    | _ => cases h

/-! ## Frames that agree -/

structure Frame.Keeps (r : Nat) (fr fr' : Frame) : Prop where
  registers : ∀ i, i < r → fr'.registers i = fr.registers i
  memory : fr'.memory = fr.memory

def Value.Below (r : Nat) : Value → Prop
  | .reg i _ => i < r
  | _ => True

theorem Value.read_keeps {args : List Datum} {r : Nat} {fr fr' : Frame} {v : Value}
    (h : fr.Keeps r fr') (hv : v.Below r) : v.read args fr' = v.read args fr := by
  cases v with
  | reg i ty => exact h.registers i hv
  | const ty n => cases ty <;> rfl
  | _ => rfl

/-- Every name in scope reads as its variable, from registers below `r`. -/
structure Agrees (scope : Scope) (args : List Datum) (σ : Locals) (r : Nat) (fr : Frame) :
    Prop where
  register : ∀ x v, scope.local? x = some (.register v) →
    (∃ i, v = .param i .i32) ∧ v.read args fr = some (.int (σ x))
  slot : ∀ x p ty, scope.local? x = some (.slot p ty) →
    ty = .i32 ∧ ∃ c, p = .reg c (.ptr ty) ∧ c < r ∧ fr.registers c = some (.cell c) ∧
      fr.memory c = some (.int (σ x))
  plain : ∀ x storage, scope.local? x = some storage → scope.constants.lookup x = none

theorem Agrees.keeps {scope : Scope} {args : List Datum} {σ : Locals} {r r' : Nat} {fr fr' : Frame}
    (h : Agrees scope args σ r fr) (hk : fr.Keeps r fr') (hr : r ≤ r') :
    Agrees scope args σ r' fr' where
  register x v hx := by
    obtain ⟨⟨i, rfl⟩, hread⟩ := h.register x v hx
    exact ⟨⟨i, rfl⟩, hread⟩
  slot x p ty hx := by
    obtain ⟨hty, c, hp, hc, hreg, hmem⟩ := h.slot x p ty hx
    exact ⟨hty, c, hp, Nat.lt_of_lt_of_le hc hr, (hk.registers c hc).trans hreg, hk.memory ▸ hmem⟩
  plain := h.plain

def Reads (args : List Datum) (fr : Frame) : List Value → List Datum → Prop :=
  List.Forall₂ fun v x => v.read args fr = some x ∧ x.Fits v.ty

theorem Reads.mapM {args : List Datum} {fr : Frame} {vs : List Value} {xs : List Datum}
    (h : Reads args fr vs xs) : vs.mapM (Value.read args fr) = some xs := by
  induction h with
  | nil => rfl
  | cons hv _ ih => simp [List.mapM_cons, hv.1, ih]

theorem Reads.one {args : List Datum} {fr : Frame} {v : Value} {xs : List Datum}
    (h : Reads args fr [v] xs) : ∃ x, xs = [x] ∧ v.read args fr = some x ∧ x.Fits v.ty := by
  cases h with
  | cons hv hnil =>
    cases hnil
    exact ⟨_, rfl, hv.1, hv.2⟩

theorem Reads.keeps {args : List Datum} {fr fr' : Frame} {r : Nat} {vs : List Value}
    {xs : List Datum} (h : Reads args fr vs xs) (hk : fr.Keeps r fr') (hvs : ∀ v ∈ vs, v.Below r) :
    Reads args fr' vs xs := by
  induction h with
  | nil => exact .nil
  | cons hv _ ih =>
    refine .cons ⟨?_, hv.2⟩ (ih fun v hv => hvs v (by simp [hv]))
    rw [Value.read_keeps hk (hvs _ (by simp)), hv.1]

/-! ## Calls that agree -/

structure Signature.Takes (f : Signature) (k : Nat) (xs : List Datum) : Prop where
  enough : f.params.length - k ≤ xs.length
  notMore : f.variadic = false → xs.length ≤ f.params.length - k
  fits : ∀ (i : Nat) x p, xs[i]? = some x → f.params[k + i]? = some p → x.Fits p.ty

theorem Signature.Accepts.takes {f : Signature} {lead vs : List Value} {args xs : List Datum}
    {fr : Frame} (h : f.Accepts lead vs) (hr : Reads args fr vs xs) : f.Takes lead.length xs where
  enough := hr.length_eq ▸ h.enough
  notMore hv := hr.length_eq ▸ h.notMore hv
  fits i x p hx hp := by
    obtain ⟨hi, rfl⟩ := List.getElem?_eq_some_iff.mp hx
    have hi' : i < vs.length := hr.length_eq ▸ hi
    have hfits := (List.forall₂_iff_get.mp hr).2 i hi' hi
    have hty := h.types i vs[i] p (List.getElem?_eq_getElem hi') hp
    exact hty ▸ hfits.2

/-- Calls by name and calls by position do the same. -/
structure CallsAgree (m : Module) (source : CallRel String) (target : CallRel Nat) : Prop where
  same : ∀ {name : String} {id : Nat} {f : Function} {lead : List Value} {ys xs : List Datum},
    m.Reaches name id f lead → (∀ args fr, lead.mapM (Value.read args fr) = some ys) →
      f.Takes lead.length xs → ∀ t r, source name xs t r ↔ target id (ys ++ xs) t r
  fits : ∀ {name : String} {id : Nat} {f : Function} {lead : List Value} {xs : List Datum},
    m.Reaches name id f lead → f.Takes lead.length xs →
      ∀ t r, source name xs t r → ResultFits f.ret r

theorem Module.Reaches.lead_reads {m : Module} {name : String} {id : Nat} {f : Function}
    {lead : List Value} (h : m.Reaches name id f lead) :
    ∃ ys, ∀ args fr, lead.mapM (Value.read args fr) = some ys := by
  have hlead := h.leading
  split at hlead
  · obtain ⟨g, -, rfl⟩ := hlead
    exact ⟨[.text g], fun _ _ => rfl⟩
  · subst hlead
    exact ⟨[], fun _ _ => rfl⟩

/-! ## What the code of an expression keeps -/

theorem Operator.isPure_instr (op : Operator) (d : Nat) (l r : Value) :
    (op.instr d l r).isPure = true := by
  cases op <;> rfl

section Code

variable {I : Interpretation} {m : Module} {scope : Scope} {source : CallRel String}
  {target : CallRel Nat} {args : List Datum} {σ : Locals} {p : Piece} {r r' : Nat}
  {c : List Instr} {vs : List Value} {fr fr' : Frame} {t : Trace} {xs : List Datum}

theorem Emits.isPure (h : Emits m scope p r c vs r') {i : Instr} (hi : i ∈ c) :
    i.isPure = true := by
  induction h with
  | slot =>
    obtain rfl := List.mem_singleton.mp hi
    rfl
  | binary _ _ _ _ _ ihl ihr =>
    rcases List.mem_append.mp hi with hi | hi
    · exact (List.mem_append.mp hi).elim ihl ihr
    · obtain rfl := List.mem_singleton.mp hi
      exact Operator.isPure_instr _ _ _ _
  | call _ _ _ _ _ ih =>
    rcases List.mem_append.mp hi with hi | hi
    · exact ih hi
    · obtain rfl := List.mem_singleton.mp hi
      rfl
  | command _ _ _ _ _ ih =>
    rcases List.mem_append.mp hi with hi | hi
    · exact ih hi
    · obtain rfl := List.mem_singleton.mp hi
      rfl
  | cons _ _ ihh iht => exact (List.mem_append.mp hi).elim ihh iht
  | _ => cases hi

theorem Emits.keeps (h : Emits m scope p r c vs r') (hr : CodeRuns I target args c fr t fr') :
    fr.Keeps r fr' where
  registers i hi := hr.registers fun j hj hd => by
    have := (h.dest hj hd).1
    omega
  memory := hr.memory fun _ hi => h.isPure hi

theorem Value.Below.mono {v : Value} (h : v.Below r) (hr : r ≤ r') : v.Below r' := by
  cases v with
  | reg i ty => exact Nat.lt_of_lt_of_le h hr
  | _ => trivial

theorem Emits.values_below (h : Emits m scope p r c vs r')
    (hparams : ∀ x v, scope.local? x = some (.register v) → ∃ i, v = .param i .i32) :
    ∀ v ∈ vs, v.Below r' := by
  induction h with
  | register _ bound =>
    obtain ⟨i, rfl⟩ := hparams _ _ (Scope.local?_of_lookup bound)
    simp [Value.Below]
  | cons head tail ihh iht =>
    intro v hv
    rcases List.mem_cons.mp hv with rfl | hv
    · exact (ihh _ (by simp)).mono tail.registers_le
    · exact iht v hv
  | _ => simp [Value.Below, Value.int]

/-! ## Inversion of evaluation -/

section Inversion

variable {constants : List (String × Int)} {site : Site} {ts : List Tree}

theorem Eval.of_literal (h : Eval I constants source σ (.one (.node site [])) t xs)
    (kind : site.kind = .literal) : ∃ n, site.literal = .ok n ∧ t = [] ∧ xs = [.int n] := by
  cases h with
  | literal _ value => exact ⟨_, value, rfl, rfl⟩
  | constant kind' => simp [kind] at kind'
  | name kind' => simp [kind] at kind'
  | call kind' => simp [kind] at kind'

theorem Eval.of_name (h : Eval I constants source σ (.one (.node site [])) t xs)
    (kind : site.kind = .identifier) :
    t = [] ∧ xs = [.int ((constants.lookup site.name).getD (σ site.name))] := by
  cases h with
  | literal kind' => simp [kind] at kind'
  | constant _ value => simp [value]
  | name _ plain => simp [plain]
  | call kind' => simp [kind] at kind'

theorem Eval.of_binary {a b : Tree} (h : Eval I constants source σ (.one (.node site [a, b])) t xs)
    (kind : site.kind = .binaryExpression) :
    ∃ op t₁ t₂ x y z, Operator.ofSite site = .ok op ∧ Eval I constants source σ (.one a) t₁ [x] ∧
      Eval I constants source σ (.one b) t₂ [y] ∧ I.apply op x y = some z ∧ t = t₁ ++ t₂ ∧
        xs = [z] := by
  cases h with
  | binary _ operator left right result =>
    exact ⟨_, _, _, _, _, _, operator, left, right, result, rfl, rfl⟩
  | call kind' => simp [kind] at kind'

theorem Eval.of_call (h : Eval I constants source σ (.one (.node site ts)) t xs)
    (kind : site.kind = .functionCall) :
    ∃ t₁ t₂ ys y, Eval I constants source σ (.many ts) t₁ ys ∧ source site.name ys t₂ y ∧
      t = t₁ ++ t₂ ∧ xs = y.toList := by
  cases h with
  | literal kind' => simp [kind] at kind'
  | constant kind' => simp [kind] at kind'
  | name kind' => simp [kind] at kind'
  | binary kind' => simp [kind] at kind'
  | call _ operands called => exact ⟨_, _, _, _, operands, called, rfl, rfl⟩

end Inversion

/-! ## Simulation -/

theorem Operator.runs_instr {op : Operator} {d : Nat} {u v : Value} :
    (op.instr d u v).Runs I target args fr t fr' ↔
      t = [] ∧ ∃ x y z, u.read args fr = some x ∧ v.read args fr = some y ∧
        I.apply op x y = some z ∧ fr' = fr.set d z := by
  cases op <;> exact Iff.rfl

theorem Reads.mapM_append {lead : List Value} {ys : List Datum} (h : Reads args fr vs xs)
    (hlead : lead.mapM (Value.read args fr) = some ys) :
    (lead ++ vs).mapM (Value.read args fr) = some (ys ++ xs) := by
  simp [List.mapM_append, hlead, h.mapM]

theorem Scope.constant_of_lookup {s : Scope} {name : String} {n : Int}
    (h : s.lookup name = some (.constant n)) : s.constants.lookup name = some n := by
  unfold Scope.lookup at h
  split at h
  · cases h
  · obtain ⟨k, hk, hn⟩ := Option.map_eq_some_iff.mp h
    cases hn
    exact hk

/-- What an expression means, its code computes. -/
theorem Emits.computes (h : Emits m scope p r c vs r') (hc : CallsAgree m source target)
    (ha : Agrees scope args σ r fr) (he : Eval I scope.constants source σ p t xs) :
    ∃ fr', CodeRuns I target args c fr t fr' ∧ Reads args fr' vs xs := by
  have hparams : ∀ x v, scope.local? x = some (.register v) → ∃ i, v = .param i .i32 :=
    fun x v hx => (ha.register x v hx).1
  induction h generalizing fr t xs with
  | literal kind value =>
    obtain ⟨n, hn, rfl, rfl⟩ := he.of_literal kind
    obtain rfl : _ = n := by simpa [value] using hn
    exact ⟨fr, ⟨rfl, rfl⟩, .cons ⟨rfl, rfl⟩ .nil⟩
  | register kind bound =>
    obtain ⟨rfl, rfl⟩ := he.of_name kind
    have hx := Scope.local?_of_lookup bound
    obtain ⟨⟨i, rfl⟩, hread⟩ := ha.register _ _ hx
    refine ⟨fr, ⟨rfl, rfl⟩, .cons ⟨?_, rfl⟩ .nil⟩
    rw [hread, ha.plain _ _ hx, Option.getD_none]
  | slot kind bound r =>
    obtain ⟨rfl, rfl⟩ := he.of_name kind
    have hx := Scope.local?_of_lookup bound
    obtain ⟨rfl, d, rfl, -, hreg, hmem⟩ := ha.slot _ _ _ hx
    refine ⟨fr.set r (.int (σ _)), codeRuns_one.mpr ⟨rfl, d, _, hreg, hmem, rfl⟩,
      .cons ⟨?_, rfl⟩ .nil⟩
    simp [Value.read, ha.plain _ _ hx]
  | constant kind bound =>
    obtain ⟨rfl, rfl⟩ := he.of_name kind
    refine ⟨fr, ⟨rfl, rfl⟩, .cons ⟨?_, rfl⟩ .nil⟩
    rw [Scope.constant_of_lookup bound]
    rfl
  | binary kind operator left right same ihl ihr =>
    obtain ⟨op, t₁, t₂, x, y, z, hop, hl, hr, hz, rfl, rfl⟩ := he.of_binary kind
    obtain rfl := Except.ok.inj (operator.symm.trans hop)
    obtain ⟨fr₁, hrun₁, hu⟩ := ihl ha hl
    have hk₁ := left.keeps hrun₁
    obtain ⟨fr₂, hrun₂, hv⟩ := ihr (ha.keeps hk₁ left.registers_le) hr
    have hu' := hu.keeps (right.keeps hrun₂) (left.values_below hparams)
    obtain ⟨_, ⟨⟩, hux, hfits⟩ := hu'.one
    obtain ⟨_, ⟨⟩, hvy, -⟩ := hv.one
    refine ⟨fr₂.set _ z, codeRuns_append.mpr ⟨_, fr₂, [], codeRuns_append.mpr
      ⟨t₁, fr₁, t₂, hrun₁, hrun₂, rfl⟩, codeRuns_one.mpr (Operator.runs_instr.mpr
        ⟨rfl, x, y, z, hux, hvy, hz, rfl⟩), by simp⟩, .cons ⟨?_, ?_⟩ .nil⟩
    · simp [Value.read]
    · exact Interpretation.apply_fits hz hfits
  | call kind callee operands fits returns ih =>
    obtain ⟨t₁, t₂, xs, y, hargs, hcall, rfl, rfl⟩ := he.of_call kind
    obtain ⟨fr₁, hrun, hreads⟩ := ih ha hargs
    obtain ⟨ys, hlead⟩ := callee.lead_reads
    have htakes := fits.takes hreads
    obtain ⟨x, rfl, hx⟩ := (hc.fits callee htakes t₂ y hcall).some returns
    have hcall' := (hc.same callee hlead htakes _ _).mp hcall
    refine ⟨fr₁.set _ x, codeRuns_append.mpr ⟨t₁, fr₁, t₂, hrun, codeRuns_one.mpr
      ⟨ys ++ xs, x, hreads.mapM_append (hlead _ _), hcall', rfl⟩, rfl⟩, .cons ⟨?_, hx⟩ .nil⟩
    simp [Value.read]
  | command kind callee operands fits returns ih =>
    obtain ⟨t₁, t₂, xs, y, hargs, hcall, rfl, rfl⟩ := he.of_call kind
    obtain ⟨fr₁, hrun, hreads⟩ := ih ha hargs
    obtain ⟨ys, hlead⟩ := callee.lead_reads
    have htakes := fits.takes hreads
    obtain rfl := (hc.fits callee htakes t₂ y hcall).none returns
    have hcall' := (hc.same callee hlead htakes _ _).mp hcall
    exact ⟨fr₁, codeRuns_append.mpr ⟨t₁, fr₁, t₂, hrun, codeRuns_one.mpr
      ⟨ys ++ xs, none, hreads.mapM_append (hlead _ _), hcall', rfl⟩, rfl⟩, .nil⟩
  | nil =>
    cases he
    exact ⟨fr, ⟨rfl, rfl⟩, .nil⟩
  | cons head tail ihh iht =>
    cases he with
    | cons hhead htail =>
      obtain ⟨fr₁, hrun₁, hv⟩ := ihh ha hhead
      obtain ⟨fr₂, hrun₂, hvs⟩ := iht (ha.keeps (head.keeps hrun₁) head.registers_le) htail
      have hv' := hv.keeps (tail.keeps hrun₂) (head.values_below hparams)
      obtain ⟨_, ⟨⟩, hvx⟩ := hv'.one
      exact ⟨fr₂, codeRuns_append.mpr ⟨_, fr₁, _, hrun₁, hrun₂, rfl⟩, .cons hvx hvs⟩

/-- What the code of an expression computes, the expression means. -/
theorem Emits.means (h : Emits m scope p r c vs r') (hc : CallsAgree m source target)
    (ha : Agrees scope args σ r fr) (hr : CodeRuns I target args c fr t fr') :
    ∃ xs, Eval I scope.constants source σ p t xs ∧ Reads args fr' vs xs := by
  have hparams : ∀ x v, scope.local? x = some (.register v) → ∃ i, v = .param i .i32 :=
    fun x v hx => (ha.register x v hx).1
  induction h generalizing fr t fr' with
  | literal kind value =>
    obtain ⟨rfl, rfl⟩ := hr
    exact ⟨_, .literal kind value, .cons ⟨rfl, rfl⟩ .nil⟩
  | register kind bound =>
    obtain ⟨rfl, rfl⟩ := hr
    have hx := Scope.local?_of_lookup bound
    obtain ⟨⟨i, rfl⟩, hread⟩ := ha.register _ _ hx
    exact ⟨_, .name kind (ha.plain _ _ hx), .cons ⟨hread, rfl⟩ .nil⟩
  | slot kind bound r =>
    have hx := Scope.local?_of_lookup bound
    obtain ⟨rfl, d, rfl, -, hreg, hmem⟩ := ha.slot _ _ _ hx
    obtain ⟨rfl, e, x, he, hx', rfl⟩ := codeRuns_one.mp hr
    obtain rfl : d = e := by simpa [Value.read, hreg] using he
    obtain rfl : .int (σ _) = x := by simpa [hmem] using hx'
    exact ⟨_, .name kind (ha.plain _ _ hx), .cons ⟨by simp [Value.read], rfl⟩ .nil⟩
  | constant kind bound =>
    obtain ⟨rfl, rfl⟩ := hr
    exact ⟨_, .constant kind (Scope.constant_of_lookup bound), .cons ⟨rfl, rfl⟩ .nil⟩
  | binary kind operator left right same ihl ihr =>
    obtain ⟨_, fr₂, t₃, hrun, hop, rfl⟩ := codeRuns_append.mp hr
    obtain ⟨t₁, fr₁, t₂, hrun₁, hrun₂, rfl⟩ := codeRuns_append.mp hrun
    obtain ⟨xs, hl, hu⟩ := ihl ha hrun₁
    obtain ⟨ys, hr', hv⟩ := ihr (ha.keeps (left.keeps hrun₁) left.registers_le) hrun₂
    have hu' := hu.keeps (right.keeps hrun₂) (left.values_below hparams)
    obtain ⟨rfl, x, y, z, hx, hy, hz, rfl⟩ := Operator.runs_instr.mp (codeRuns_one.mp hop)
    obtain ⟨x', rfl, hx', hfits⟩ := hu'.one
    obtain ⟨y', rfl, hy', -⟩ := hv.one
    obtain rfl := Option.some.inj (hx.symm.trans hx')
    obtain rfl := Option.some.inj (hy.symm.trans hy')
    refine ⟨[z], by simpa using Eval.binary kind operator hl hr' hz, .cons ⟨?_, ?_⟩ .nil⟩
    · simp [Value.read]
    · exact Interpretation.apply_fits hz hfits
  | call kind callee operands fits returns ih =>
    obtain ⟨t₁, fr₁, t₂, hrun, hcall, rfl⟩ := codeRuns_append.mp hr
    obtain ⟨xs, hargs, hreads⟩ := ih ha hrun
    obtain ⟨ys, hlead⟩ := callee.lead_reads
    obtain ⟨zs, x, hzs, hcall, rfl⟩ := codeRuns_one.mp hcall
    obtain rfl : ys ++ xs = zs := by simpa [hreads.mapM_append (hlead _ _)] using hzs
    have hcall' := (hc.same callee hlead (fits.takes hreads) _ _).mpr hcall
    refine ⟨_, .call kind hargs hcall', .cons ⟨by simp [Value.read], ?_⟩ .nil⟩
    exact hc.fits callee (fits.takes hreads) _ _ hcall'
  | command kind callee operands fits returns ih =>
    obtain ⟨t₁, fr₁, t₂, hrun, hcall, rfl⟩ := codeRuns_append.mp hr
    obtain ⟨xs, hargs, hreads⟩ := ih ha hrun
    obtain ⟨ys, hlead⟩ := callee.lead_reads
    obtain ⟨zs, y, hzs, hcall, rfl⟩ := codeRuns_one.mp hcall
    obtain rfl : ys ++ xs = zs := by simpa [hreads.mapM_append (hlead _ _)] using hzs
    have hcall' := (hc.same callee hlead (fits.takes hreads) _ _).mpr hcall
    obtain rfl := (hc.fits callee (fits.takes hreads) _ _ hcall').none returns
    exact ⟨_, .call kind hargs hcall', .nil⟩
  | nil =>
    obtain ⟨rfl, rfl⟩ := hr
    exact ⟨[], .nil, .nil⟩
  | cons head tail ihh iht =>
    obtain ⟨t₁, fr₁, t₂, hrun₁, hrun₂, rfl⟩ := codeRuns_append.mp hr
    obtain ⟨xs, hhead, hv⟩ := ihh ha hrun₁
    obtain ⟨ys, htail, hvs⟩ := iht (ha.keeps (head.keeps hrun₁) head.registers_le) hrun₂
    obtain ⟨x, rfl, hvx⟩ := (hv.keeps (tail.keeps hrun₂) (head.values_below hparams)).one
    exact ⟨x :: ys, .cons hhead htail, .cons hvx hvs⟩

/-! ## Conditions -/

theorem Tests.isPure {c₀ : Tree} {v : Value} (h : Tests m scope c₀ r c v r') {i : Instr}
    (hi : i ∈ c) : i.isPure = true := by
  cases h with
  | truth code => exact code.isPure hi
  | nonzero code =>
    rcases List.mem_append.mp hi with hi | hi
    · exact code.isPure hi
    · obtain rfl := List.mem_singleton.mp hi
      rfl

theorem Tests.computes {c₀ : Tree} {v : Value} {b : Bool} (h : Tests m scope c₀ r c v r')
    (hc : CallsAgree m source target) (ha : Agrees scope args σ r fr)
    (hd : Decides I scope.constants source σ c₀ t b) :
    ∃ fr', CodeRuns I target args c fr t fr' ∧ v.read args fr' = some (.truth b) := by
  obtain ⟨x, heval, htest⟩ := hd
  cases h with
  | truth code ty =>
    obtain ⟨fr', hrun, hreads⟩ := code.computes hc ha heval
    obtain ⟨_, ⟨⟩, hread, hfits⟩ := hreads.one
    rw [ty] at hfits
    cases x with
    | truth b' =>
      cases htest
      exact ⟨fr', hrun, hread⟩
    | _ => cases hfits
  | nonzero code ty =>
    obtain ⟨fr', hrun, hreads⟩ := code.computes hc ha heval
    obtain ⟨_, ⟨⟩, hread, hfits⟩ := hreads.one
    rw [ty] at hfits
    obtain ⟨n, rfl⟩ := hfits.int
    have hop : I.apply (.compare .ne) (.int n) (.int 0) = some (.truth b) := by
      simpa [Interpretation.apply, Interpretation.test] using htest
    refine ⟨fr'.set _ (.truth b), codeRuns_append.mpr ⟨t, fr', [], hrun, codeRuns_one.mpr
      ⟨rfl, _, _, _, hread, rfl, hop, rfl⟩, by simp⟩, ?_⟩
    simp [Value.read]

theorem Tests.means {c₀ : Tree} {v : Value} (h : Tests m scope c₀ r c v r')
    (hc : CallsAgree m source target) (ha : Agrees scope args σ r fr)
    (hr : CodeRuns I target args c fr t fr') :
    ∃ b, Decides I scope.constants source σ c₀ t b ∧ v.read args fr' = some (.truth b) := by
  cases h with
  | truth code ty =>
    obtain ⟨xs, heval, hreads⟩ := code.means hc ha hr
    obtain ⟨x, rfl, hread, hfits⟩ := hreads.one
    rw [ty] at hfits
    cases x with
    | truth b => exact ⟨b, ⟨_, heval, rfl⟩, hread⟩
    | _ => cases hfits
  | nonzero code ty =>
    obtain ⟨t₁, fr₁, t₂, hrun, hicmp, rfl⟩ := codeRuns_append.mp hr
    obtain ⟨xs, heval, hreads⟩ := code.means hc ha hrun
    obtain ⟨x, rfl, hread, hfits⟩ := hreads.one
    rw [ty] at hfits
    obtain ⟨n, rfl⟩ := hfits.int
    obtain ⟨rfl, x, y, z, hx, hy, hz, rfl⟩ := codeRuns_one.mp hicmp
    obtain rfl := Option.some.inj (hread.symm.trans hx)
    cases hy
    obtain ⟨b, hb, rfl⟩ := Option.map_eq_some_iff.mp hz
    exact ⟨b, ⟨.int n, by simpa using heval, hb⟩, by simp [Value.read]⟩

end Code

end TreeFlow
