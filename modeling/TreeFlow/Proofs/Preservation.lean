import TreeFlow.Compile
import TreeFlow.Proofs.Entry

/-!
# Compiling preserves meaning

A compiled function returns what its declaration means, with the same trace,
and it returns whenever the declaration does. The names of a declaration must
be kept apart, and a parameter must not be assigned in a loop: the condition of
a loop is emitted before the body that would move the parameter to a slot.
-/

set_option autoImplicit false

namespace TreeFlow

variable {constants : List (String × Int)}

/-! ## Names kept apart -/

namespace Tree

def constantNames (p : Tree) : List String := p.children.filterMap fun t => t.constant?.map Prod.fst

def boundNames (f : Tree) : List String := f.parameterNames ++ (Piece.many f.statements).declared

/-- A declaration binds different names, none of which is a constant, and
assigns no parameter in a loop. -/
structure Tidy (p f : Tree) : Prop where
  nodup : f.boundNames.Nodup
  plain : ∀ x ∈ f.boundNames, x ∉ p.constantNames
  loops : ∀ x ∈ (Piece.many f.statements).looped, x ∉ f.parameterNames

instance (p f : Tree) : Decidable (p.Tidy f) :=
  decidable_of_iff (f.boundNames.Nodup ∧ (∀ x ∈ f.boundNames, x ∉ p.constantNames) ∧
      ∀ x ∈ (Piece.many f.statements).looped, x ∉ f.parameterNames)
    ⟨fun h => ⟨h.1, h.2.1, h.2.2⟩, fun h => ⟨h.nodup, h.plain, h.loops⟩⟩

theorem constants_named {ts : List Tree} {cs cs' : List (String × Int)} {f : Tree}
    (h : (cs', f) ∈ declarationsFrom cs ts) {x : String} (hx : x ∈ cs'.map Prod.fst) :
    x ∈ cs.map Prod.fst ∨ x ∈ ts.filterMap fun t => t.constant?.map Prod.fst := by
  induction ts generalizing cs with
  | nil => cases h
  | cons t ts ih =>
    rw [declarationsFrom] at h
    split at h
    · rcases List.mem_cons.mp h with h | h
      · cases h
        exact .inl hx
      · refine (ih h).imp_right fun hx => ?_
        rw [List.filterMap_cons]
        split
        · exact hx
        · exact List.mem_cons_of_mem _ hx
    · rcases ih h with hmem | hmem
      · cases hc : t.constant? with
        | none => exact .inl (by simpa [hc] using hmem)
        | some c =>
          rw [hc] at hmem
          rcases List.mem_cons.mp hmem with rfl | hmem
          · exact .inr (by simp [hc])
          · exact .inl hmem
      · refine .inr ?_
        rw [List.filterMap_cons]
        split
        · exact hmem
        · exact List.mem_cons_of_mem _ hmem

end Tree

/-! ## Compiled declarations -/

/-- A compiled declaration whose names are kept apart, with the mark at which
its body ends. -/
structure Staged (m : Module) (constants : List (String × Int)) (f : Tree) (g : Function)
    (μ : Mark) : Prop where
  lays : Lays m g (.many f.statements) [] (.entry constants g.toSignature) μ
  falls : μ.ended = false → g.Ends μ (.ret (Lower.defaultReturn g.ret))
  seeds : g.seeds.length = μ.seeds
  names : f.parameterNames = g.params.map Param.name
  ints : ∀ p ∈ g.params, p.ty = .i32
  fallOff : ∀ args fr r, (Terminator.ret (Lower.defaultReturn g.ret)).Returns args fr r ↔
    r = f.fallOff
  fallOffFits : ResultFits g.ret f.fallOff
  nodup : f.boundNames.Nodup
  plain : ∀ x ∈ f.boundNames, constants.lookup x = none
  loops : ∀ x ∈ (Piece.many f.statements).looped, x ∉ f.parameterNames
  opened : g.isDeclaration = false
  apart : g.Apart
  returns : ∀ k ∈ g.bodies, ∀ x, k.terminator = some x → x.returns g.ret = true

section Compiling

variable {I : Interpretation} {m : Module} {constants : List (String × Int)} {f : Tree}
  {g : Function} {μ : Mark} {source : CallRel String} {target : CallRel Nat}

namespace Staged

theorem unbound (h : Staged m constants f g μ) {x : String} (hx : x ∉ f.parameterNames) :
    (Mark.entry constants g.toSignature).scope.local? x = none := by
  cases hl : (Mark.entry constants g.toSignature).scope.local? x with
  | none => rfl
  | some storage => exact absurd (h.names ▸ Mark.entry_bound.mp ⟨storage, hl⟩) hx

theorem fresh (h : Staged m constants f g μ) :
    (Piece.many f.statements).Fresh (Mark.entry constants g.toSignature).scope := by
  obtain ⟨-, hnodup, hdisjoint⟩ := List.nodup_append.mp h.nodup
  exact ⟨hnodup, fun x hx => h.unbound fun hp => hdisjoint x hp x hx rfl⟩

theorem backed (h : Staged m constants f g μ) :
    μ.Backed (Mark.entry constants g.toSignature).scope g :=
  h.lays.backed h.fresh (Mark.entry_backed g)

theorem ground (h : Staged m constants f g μ) (hc : CallsAgree m source target) :
    Ground m g μ.scope source target where
  calls := hc
  apart := h.apart
  distinct := h.backed.apart
  slots x p ty hx := by
    obtain ⟨s, hs, -, hp⟩ := h.backed.slots x p ty hx
    exact ⟨s, hs, hp⟩
  allInt := h.lays.allInt (Mark.entry_allInt h.ints)
  plain x storage hx := by
    rw [(h.lays.leads h.fresh).constants]
    have hconst : (Mark.entry constants g.toSignature).scope.constants = constants :=
      Lower.parameterScope_constants _ _
    rw [hconst]
    refine h.plain x ?_
    by_cases hp : x ∈ f.parameterNames
    · exact List.mem_append_left _ hp
    · by_cases hd : x ∈ (Piece.many f.statements).declared
      · exact List.mem_append_right _ hd
      · rw [h.lays.unbound hd (h.unbound hp)] at hx
        cases hx
  returns := h.returns

theorem starts (h : Staged m constants f g μ) {args : List Int}
    (hlen : args.length = f.parameterNames.length) :
    Starts I (args.map .int) (Mark.entry constants g.toSignature).scope
      (.initial I f.parameterNames args) := by
  rw [h.names] at hlen ⊢
  refine Mark.entry_starts h.ints ?_ (by simpa using hlen)
  exact h.names ▸ (List.nodup_append.mp h.nodup).1

theorem simulates (h : Staged m constants f g μ) (hc : CallsAgree m source target)
    (args : List Datum) :
    Simulates I g μ.scope args source target (.many f.statements) []
      (Mark.entry constants g.toSignature) μ := by
  refine h.lays.simulates (h.ground hc) h.fresh (Mark.entry_backed g) (.refl _) rfl Nat.one_pos
    nofun ?_
  intro x hx v hv
  rw [h.unbound (h.loops x hx)] at hv
  cases hv

end Staged

theorem Function.halts_entry {args : List Datum} {t : Trace} {r : Option Datum} :
    (∃ n k x, g.block? 0 = some k ∧ k.terminator = some x ∧
      g.Halts I target args n k.instrs x .empty t r) ↔
    ∃ t₁ fr n t₂, CodeRuns I target args g.prologue .empty t₁ fr ∧
      g.HaltsIn I target args 0 0 n fr t₂ r ∧ t = t₁ ++ t₂ := by
  unfold Function.HaltsIn Function.block? Function.blocks
  cases g.bodies with
  | nil => simp
  | cons b bs =>
    constructor
    · rintro ⟨n, _, x, ⟨⟩, hx, hhalts⟩
      obtain ⟨t₁, fr, t₂, hcode, hrest, rfl⟩ := Function.halts_append.mp hhalts
      exact ⟨t₁, fr, n, t₂, hcode, ⟨b, x, rfl, hx, hrest⟩, rfl⟩
    · rintro ⟨t₁, fr, n, t₂, hcode, ⟨_, x, ⟨⟩, hx, hhalts⟩, rfl⟩
      exact ⟨n, _, x, rfl, hx, Function.halts_append.mpr ⟨t₁, fr, t₂, hcode, hhalts, rfl⟩⟩

namespace Staged

variable {args : List Int} {t : Trace} {r : Option Datum}

theorem constants_eq (h : Staged m constants f g μ) : μ.scope.constants = constants :=
  (h.lays.leads h.fresh).constants.trans (Lower.parameterScope_constants _ _)

theorem runs (h : Staged m constants f g μ) (hc : CallsAgree m source target)
    (hinv : f.Invokes I source constants args t r) :
    ResultFits g.ret r ∧ ∃ n k x, g.block? 0 = some k ∧ k.terminator = some x ∧
      g.Halts I target (args.map .int) n k.instrs x .empty t r := by
  obtain ⟨hlen, o, σ, hexec, hres⟩ := hinv
  have hstarts := h.starts (I := I) hlen
  obtain ⟨fr, hprologue⟩ := (h.ground hc).prologue_runs h.backed h.seeds hstarts
  obtain ⟨-, hcells⟩ := (h.ground hc).of_prologue h.backed h.seeds hstarts hprologue
  rw [← h.constants_eq] at hexec
  obtain ⟨fr', harr, hfits, hgo⟩ := (h.simulates hc _).forward hcells hstarts.unmoved hexec
  have hend : ResultFits g.ret r ∧ Continues I g (args.map .int) target [] μ o 0 fr' [] r := by
    cases o with
    | normal =>
      cases hres
      have hends := h.falls (harr.goesOn rfl).1
      exact ⟨h.fallOffFits, (haltsIn_ret hends).mpr ⟨rfl, rfl, (h.fallOff _ _ _).mpr rfl⟩⟩
    | returned x =>
      cases hres
      exact ⟨hfits _ rfl, rfl, rfl, rfl⟩
    | _ => cases hres
  obtain ⟨n, hn⟩ := hgo 0 [] r hend.2
  rw [List.append_nil] at hn
  exact ⟨hend.1, Function.halts_entry.mpr ⟨[], fr, n, t, hprologue, hn, rfl⟩⟩

theorem invokes (h : Staged m constants f g μ) (hc : CallsAgree m source target)
    (hlen : args.length = f.parameterNames.length)
    (hrun : ∃ n k x, g.block? 0 = some k ∧ k.terminator = some x ∧
      g.Halts I target (args.map .int) n k.instrs x .empty t r) :
    f.Invokes I source constants args t r := by
  obtain ⟨t₁, fr, n, t₂, hprologue, hhalts, rfl⟩ := Function.halts_entry.mp hrun
  have hstarts := h.starts (I := I) hlen
  obtain ⟨rfl, hcells⟩ := (h.ground hc).of_prologue h.backed h.seeds hstarts hprologue
  obtain ⟨t₁, o, σ, fr', n', t₂, hexec, harr, -, hcont, rfl⟩ :=
    (h.simulates hc _).backward hcells hstarts.unmoved hhalts
  rw [h.constants_eq] at hexec
  have hend : o.result f.fallOff = some r ∧ t₂ = [] := by
    cases o with
    | normal =>
      obtain ⟨-, rfl, hr⟩ := (haltsIn_ret (h.falls (harr.goesOn rfl).1)).mp hcont
      exact ⟨congrArg some ((h.fallOff _ _ _).mp hr).symm, rfl⟩
    | returned x =>
      obtain ⟨-, rfl, rfl⟩ := hcont
      exact ⟨rfl, rfl⟩
    | broke =>
      obtain ⟨l, hl, -⟩ := hcont
      cases hl
    | continued =>
      obtain ⟨l, hl, -⟩ := hcont
      cases hl
  obtain ⟨hres, rfl⟩ := hend
  exact ⟨hlen, o, σ, by simpa using hexec, hres⟩

end Staged

end Compiling

/-! ## Programs -/

theorem Module.verify_none {m : Module} (h : m.verify = none) {id : Nat} {g : Function}
    (hg : m.function? id = some g) {k : Block} (hk : k ∈ g.bodies) {x : Terminator}
    (hx : k.terminator = some x) : x.returns g.ret = true := by
  have hverify := List.findSome?_eq_none_iff.mp h g (List.mem_of_getElem? hg)
  obtain ⟨b, hb, hterm⟩ := Function.mem_bodies hk
  have hcheck := Option.map_eq_none_iff.mp (List.findSome?_eq_none_iff.mp hverify b hb)
  have hend := (Option.or_eq_none_iff.mp hcheck).1
  rw [Module.checkTerminator, hterm, hx] at hend
  dsimp only at hend
  split at hend
  · cases hend
  · split at hend
    · assumption
    · cases hend

section Programs

variable {p : Tree} {singlePass : Bool} {m : Module}

theorem Tree.Tidy.plain_in {f : Tree} (h : p.Tidy f) (hf : (constants, f) ∈ p.declarations)
    {x : String} (hx : x ∈ f.boundNames) :
    constants.lookup x = none := by
  refine List.lookup_eq_none_iff.mpr fun c hc => bne_iff_ne.mpr ?_
  rintro rfl
  rcases Tree.constants_named hf (List.mem_map_of_mem hc) with hmem | hmem
  · cases hmem
  · exact h.plain _ hx hmem

theorem Lower.returns_default {result : Tree} {ret : Ty} (h : Ty.ofSite result.site = .ok ret)
    {f : Tree} {ts : List Tree} (hts : f.children = result :: ts) :
    ResultFits ret f.fallOff ∧ ∀ args fr r,
      (Terminator.ret (Lower.defaultReturn ret)).Returns args fr r ↔ r = f.fallOff := by
  have hname := (Ty.ofSite_ok h).2
  unfold Tree.fallOff
  rw [hts, List.head?_cons, Option.map_some]
  rcases Ty.ofName?_some hname with ⟨hint, rfl⟩ | ⟨hvoid, rfl⟩
  · rw [if_neg (by simp [Tree.name, hint])]
    refine ⟨rfl, fun args fr r => ⟨?_, ?_⟩⟩
    · rintro ⟨x, hx, rfl⟩
      cases hx
      rfl
    · rintro rfl
      exact ⟨_, rfl, rfl⟩
  · rw [if_pos (by simp [Tree.name, hvoid])]
    exact ⟨rfl, fun args fr r => Iff.rfl⟩

theorem Tree.lower_staged (h : (p.lower singlePass).result = .ok m) (hv : m.verify = none)
    {f : Tree} (hf : (constants, f) ∈ p.declarations) (tidy : p.Tidy f) :
    ∃ id g μ, m.Compiles constants f id g ∧ Staged m constants f g μ := by
  obtain ⟨-, ids, has, -⟩ := Tree.lower_assembles h
  obtain ⟨id, g, hcomp⟩ := has.declared hf
  obtain ⟨result, params, body, hts, μ, hlays, hend, hblocks, -, -, hseeds⟩ := hcomp.body
  obtain ⟨_, _, _, hts', -, hret, hparams, -⟩ := Lower.signature_ok hcomp.signature
  obtain ⟨rfl, rfl, rfl⟩ : result = _ ∧ params = _ ∧ body = _ := by simpa [hts] using hts'
  obtain ⟨hnames, hints⟩ := Lower.parameters_ok hparams
  obtain ⟨hfits, hreturns⟩ := Lower.returns_default hret hts
  have hpos : 1 ≤ g.bodies.length := hblocks ▸ hlays.blocks_le
  refine ⟨id, g, μ, hcomp, ?_⟩
  exact
    { lays := by simpa [Tree.statements, hts] using hlays
      falls := hend
      seeds := hseeds
      names := by simp [Tree.parameterNames, hts, hnames]
      ints := hints
      fallOff := hreturns
      fallOffFits := hfits
      nodup := tidy.nodup
      plain := fun x hx => tidy.plain_in hf hx
      loops := tidy.loops
      opened := by
        simpa [Function.isDeclaration] using List.ne_nil_of_length_pos hpos
      apart := (Tree.lower_changes h).stable Function.Apart.stable nofun id g hcomp.function
      returns := fun k hk x hx => Module.verify_none hv hcomp.function hk hx }

/-- A call by name reaches the function of the declaration with that name, or
the intrinsic. -/
theorem Tree.lower_reaches (h : (p.lower singlePass).result = .ok m) (hv : m.verify = none)
    (tidy : ∀ d ∈ p.declarations, p.Tidy d.2) {name : String} {id : Nat} {f : Function}
    {lead : List Value} (hr : m.Reaches name id f lead) :
    (∃ constants c μ, p.declaration? name = some (constants, c) ∧ Staged m constants c f μ ∧
      f.variadic = false ∧ lead = []) ∨
    (p.declaration? name = none ∧ f = .declare id Intrinsic.signature ∧ name = Intrinsic.name ∧
      ∃ j, m.globals[j]? = some (Module.byteArray j Intrinsic.format) ∧
        lead = [Module.address j]) := by
  obtain ⟨f', hf', hname⟩ := (Tree.lower_numbered h).find? hr.found
  obtain rfl := Option.some.inj (hf'.symm.trans hr.function)
  cases hdecl : p.declaration? name with
  | some d =>
    have hmem := List.mem_of_find?_eq_some hdecl
    have hdname := List.find?_some hdecl
    obtain ⟨id', g, μ, hcomp, hst⟩ := Tree.lower_staged h hv hmem (tidy d hmem)
    obtain ⟨_, _, _, -, -, -, -, hgname, hvariadic⟩ := Lower.signature_ok hcomp.signature
    obtain rfl := Tree.lower_distinct h id' id g f' hcomp.function hf' (by
      rw [hname]
      exact hgname.trans (eq_of_beq hdname))
    obtain rfl := Option.some.inj (hcomp.function.symm.trans hf')
    have hlead := hr.leading
    rw [show g.variadic = false from hvariadic] at hlead
    exact .inl ⟨d.1, d.2, μ, rfl, hst, hvariadic, by simpa using hlead⟩
  | none =>
    rcases Tree.lower_compiles h hf' with ⟨cs, c, hc, hcomp⟩ | rfl
    · obtain ⟨_, _, _, -, -, -, -, hgname, -⟩ := Lower.signature_ok hcomp.signature
      have hne := List.find?_eq_none.mp hdecl _ hc
      exact absurd (beq_iff_eq.mpr (hgname.symm.trans hname)) hne
    · obtain rfl : Intrinsic.name = name := hname
      exact .inr ⟨rfl, rfl, rfl, by simpa [Function.declare, Intrinsic.signature] using hr.leading⟩

theorem exists_ints {xs : List Datum} (h : ∀ x ∈ xs, ∃ n, x = .int n) :
    ∃ args : List Int, xs = args.map .int := by
  induction xs with
  | nil => exact ⟨[], rfl⟩
  | cons x xs ih =>
    obtain ⟨⟨n, rfl⟩, hxs⟩ := List.forall_mem_cons.mp h
    obtain ⟨args, rfl⟩ := ih hxs
    exact ⟨n :: args, rfl⟩

theorem Staged.takes {f : Tree} {g : Function} {μ : Mark} (h : Staged m constants f g μ)
    (hvariadic : g.variadic = false) {xs : List Datum} (ht : g.Takes 0 xs) :
    ∃ args : List Int, xs = args.map .int ∧ args.length = f.parameterNames.length := by
  have hlen : xs.length = g.params.length :=
    Nat.le_antisymm (ht.notMore hvariadic) ht.enough
  have hints : ∀ x ∈ xs, ∃ n, x = .int n := by
    intro x hx
    obtain ⟨i, hi, rfl⟩ := List.getElem_of_mem hx
    have hp := List.getElem?_eq_getElem (hlen ▸ hi)
    have hfits := ht.fits i _ _ (List.getElem?_eq_getElem hi) (by rwa [Nat.zero_add])
    rw [h.ints _ (List.getElem_mem (hlen ▸ hi))] at hfits
    exact hfits.int
  obtain ⟨args, rfl⟩ := exists_ints hints
  exact ⟨args, rfl, by simpa [h.names] using hlen⟩

theorem Staged.calls {f : Tree} {g : Function} {μ : Mark} (h : Staged m constants f g μ)
    {I : Interpretation} {source : CallRel String} {depth : Nat}
    (hc : CallsAgree m source (m.Calls I depth)) {id : Nat} (hg : m.function? id = some g)
    {args : List Int} (hlen : args.length = f.parameterNames.length) {t : Trace}
    {r : Option Datum} :
    f.Invokes I source constants args t r ↔ m.Calls I (depth + 1) id (args.map .int) t r := by
  constructor
  · intro hinv
    exact ⟨g, hg, by simpa [h.opened] using (h.runs hc hinv).2⟩
  · rintro ⟨g', hg', hrun⟩
    obtain rfl := Option.some.inj (hg.symm.trans hg')
    exact h.invokes hc hlen (by simpa [h.opened] using hrun)

theorem Module.calls_intrinsic {I : Interpretation} {depth id j : Nat}
    (hf : m.function? id = some (.declare id Intrinsic.signature))
    (hj : m.globals[j]? = some (Module.byteArray j Intrinsic.format)) {xs : List Datum} {t : Trace}
    {r : Option Datum} :
    m.Calls I (depth + 1) id (.text j :: xs) t r ↔
      t = [⟨Intrinsic.format, xs⟩] ∧ r = some (.int (I.printed ⟨Intrinsic.format, xs⟩)) := by
  constructor
  · rintro ⟨g, hg, hprints⟩
    obtain rfl := Option.some.inj (hf.symm.trans hg)
    obtain ⟨j', e, xs', hxs, he, rfl, rfl⟩ := hprints
    cases hxs
    obtain rfl := Option.some.inj (hj.symm.trans he)
    exact ⟨rfl, rfl⟩
  · rintro ⟨rfl, rfl⟩
    exact ⟨_, hf, j, _, xs, rfl, hj, rfl, rfl⟩

/-- Calls by name and calls by position agree, to every depth. -/
theorem Tree.calls_agree (h : (p.lower singlePass).result = .ok m) (hv : m.verify = none)
    (tidy : ∀ d ∈ p.declarations, p.Tidy d.2) (I : Interpretation) (depth : Nat) :
    CallsAgree m (p.Calls I depth) (m.Calls I depth) := by
  induction depth with
  | zero => exact ⟨fun _ _ _ _ _ => Iff.rfl, nofun⟩
  | succ depth ih =>
    refine ⟨?_, ?_⟩
    · intro name id f lead ys xs hreach hlead htakes t r
      rcases Tree.lower_reaches h hv tidy hreach with ⟨constants, c, μ, hdecl, hst, hvar, rfl⟩ |
        ⟨hdecl, rfl, rfl, j, hj, rfl⟩
      · obtain ⟨args, rfl, hlen⟩ := hst.takes hvar htakes
        obtain rfl : [] = ys := Option.some.inj (hlead [] .empty)
        rw [List.nil_append, ← hst.calls ih hreach.function hlen, Tree.Calls, hdecl]
        constructor
        · rintro ⟨args', hargs, hinv⟩
          obtain rfl := List.map_injective_iff.mpr (fun _ _ h => Datum.int.inj h) hargs
          exact hinv
        · exact fun hinv => ⟨args, rfl, hinv⟩
      · obtain rfl : [.text j] = ys := Option.some.inj (hlead [] .empty)
        rw [List.singleton_append, Module.calls_intrinsic hreach.function hj, Tree.Calls, hdecl]
        exact and_iff_right rfl
    · intro name id f lead xs hreach htakes t r hcall
      rcases Tree.lower_reaches h hv tidy hreach with ⟨constants, c, μ, hdecl, hst, hvar, rfl⟩ |
        ⟨hdecl, rfl, rfl, j, hj, rfl⟩
      · simp only [Tree.Calls, hdecl] at hcall
        obtain ⟨args, rfl, hinv⟩ := hcall
        exact (hst.runs ih hinv).1
      · simp only [Tree.Calls, hdecl] at hcall
        obtain ⟨-, -, rfl⟩ := hcall
        rfl

/-! ## Compiled programs -/

theorem Module.stamp_functions (m : Module) (target : Option Target) :
    (m.stamp target).functions = m.functions ∧ (m.stamp target).globals = m.globals := by
  cases target with
  | none => exact ⟨rfl, rfl⟩
  | some _ => exact ⟨rfl, rfl⟩

theorem Module.calls_stamp (m : Module) (target : Option Target) (I : Interpretation)
    (depth : Nat) :
    (m.stamp target).Calls I depth = m.Calls I depth := by
  obtain ⟨hfunctions, hglobals⟩ := m.stamp_functions target
  induction depth with
  | zero => rfl
  | succ depth ih =>
    funext id args t r
    simp only [Module.Calls, Module.Prints, Module.function?, hfunctions, hglobals, ih]

theorem Tree.compile_ok {o : Options} (h : (p.compile o).result = .ok m) :
    ∃ m₀, (p.lower o.singlePass).result = .ok m₀ ∧ m₀.verify = none ∧ m = m₀.stamp o.target := by
  unfold Tree.compile at h
  dsimp only at h
  split at h
  · cases h
  · rename_i m₀ hlower
    dsimp only at h
    unfold Module.seal at h
    split at h
    · cases h
    · cases h
      exact ⟨m₀, hlower, ‹_›, rfl⟩

/-- Each function of a compiled program returns exactly what its declaration
means, with the same trace. -/
theorem Tree.compile_preserves {o : Options} (h : (p.compile o).result = .ok m)
    (tidy : ∀ d ∈ p.declarations, p.Tidy d.2) {constants : List (String × Int)} {f : Tree}
    (hf : (constants, f) ∈ p.declarations) :
    ∃ id g, m.find? f.name = some id ∧ m.function? id = some g ∧
      g.params.map Param.name = f.parameterNames ∧
        ∀ (I : Interpretation) (args : List Int), args.length = f.parameterNames.length →
          ∀ t r, (∃ depth, f.Invokes I (p.Calls I depth) constants args t r) ↔
            ∃ depth, m.Calls I depth id (args.map .int) t r := by
  obtain ⟨m₀, hlower, hv, rfl⟩ := Tree.compile_ok h
  obtain ⟨id, g, μ, hcomp, hst⟩ := Tree.lower_staged hlower hv hf (tidy _ hf)
  obtain ⟨_, _, _, -, -, -, -, hname, -⟩ := Lower.signature_ok hcomp.signature
  have hfind := (Tree.lower_distinct hlower).find? (Tree.lower_numbered hlower) hcomp.function
  rw [show g.name = f.name from hname] at hfind
  obtain ⟨hfunctions, -⟩ := m₀.stamp_functions o.target
  refine ⟨id, g, ?_, ?_, hst.names.symm, fun I args hlen t r => ?_⟩
  · rwa [Module.find?, hfunctions]
  · rw [Module.function?, hfunctions]
    exact hcomp.function
  · have hagree := Tree.calls_agree hlower hv tidy I
    simp only [Module.calls_stamp]
    constructor
    · rintro ⟨depth, hinv⟩
      exact ⟨depth + 1, (hst.calls (hagree depth) hcomp.function hlen).mp hinv⟩
    · rintro ⟨depth, hcall⟩
      cases depth with
      | zero => cases hcall
      | succ depth => exact ⟨depth, (hst.calls (hagree depth) hcomp.function hlen).mpr hcall⟩

/-- `int main(int x) { x = x + STEP; return down(x); }` -/
def Tree.descentMain : Tree :=
  bare .functionDeclaration "main"
    [bare .identifier "int" [],
      bare .parameters "" [bare .variableDeclaration "x" [bare .identifier "int" []]],
      bare .block ""
        [bare .assignment "x" [bare .identifier "=" [], bare .binaryExpression "+"
          [bare .identifier "x" [], bare .identifier "STEP" []]],
          bare .returnStatement "" [bare .functionCall "down" [bare .identifier "x" []]]]]

/-- A program with a constant, a loop that is left, a promoted parameter and
calls. -/
def Tree.descent : Tree :=
  bare .program ""
    [bare .preprocessorDirective "#define" [bare .identifier "STEP" [], bare .literal "2" []],
      bare .functionDeclaration "down"
        [bare .identifier "int" [],
          bare .parameters "" [bare .variableDeclaration "n" [bare .identifier "int" []]],
          bare .block ""
            [bare .variableDeclaration "r" [bare .identifier "int" [], bare .identifier "n" []],
              bare .whileStatement "" [bare .identifier "r" [], bare .block ""
                [bare .functionCall "printf" [bare .identifier "r" []],
                  bare .statement "if"
                    [bare .binaryExpression "<"
                        [bare .identifier "r" [], bare .identifier "STEP" []],
                      bare .block "" [bare .statement "break" []]],
                  bare .assignment "r" [bare .identifier "-=" [], bare .identifier "STEP" []]]],
              bare .returnStatement "" [bare .identifier "r" []]]],
      descentMain]

theorem Tree.descent_preserved :
    (∀ d ∈ Tree.descent.declarations, Tree.descent.Tidy d.2) ∧
      ([("STEP", 2)], Tree.descentMain) ∈ Tree.descent.declarations ∧
        ∃ m, (Tree.descent.compile .default).result = .ok m ∧ ∃ id g, m.find? "main" = some id ∧
          m.function? id = some g ∧ g.params.map Param.name = ["x"] ∧
            ∀ (I : Interpretation) (n : Int) t r,
              (∃ depth,
                  Tree.descentMain.Invokes I (Tree.descent.Calls I depth) [("STEP", 2)] [n] t r) ↔
                ∃ depth, m.Calls I depth id [.int n] t r := by
  have htidy : ∀ d ∈ Tree.descent.declarations, Tree.descent.Tidy d.2 := by decide +kernel
  have hmem : ([("STEP", 2)], Tree.descentMain) ∈ Tree.descent.declarations :=
    .tail _ (.head _)
  obtain ⟨m, hm⟩ : ∃ m, (Tree.descent.compile .default).result = .ok m :=
    Lower.except_of_isOk (by decide +kernel)
  obtain ⟨id, g, hfind, hg, hparams, hsame⟩ := Tree.compile_preserves hm htidy hmem
  exact ⟨htidy, hmem, m, hm, id, g, hfind, hg, hparams, fun I n t r => hsame I [n] rfl t r⟩

end Programs

end TreeFlow
