import TreeFlow.Proofs.Execution

/-!
# Control flow and its code

Jumps, conditionals, loops and rows of statements. A conditional is simulated by
its two arms, which meet in one block, and a loop by its rounds. Together with
the statements that only compute they show, by induction on the layout, that a
function does what its body means.
-/

set_option autoImplicit false

namespace TreeFlow

variable {site : Site}

section Control

variable {I : Interpretation} {m : Module} {g : Function} {Γ entry : Scope} {args : List Datum}
  {source : CallRel String} {target : CallRel Nat} {p q : Piece} {l : LoopTargets}
  {ls : List LoopTargets} {μ μ' μ₁ ν : Mark} {c : List Instr} {v : Value} {r : Nat}

/-! ## Statements that leave -/

theorem Continues.abrupt {o : Ending} (ho : o ≠ .normal) {n : Nat} {fr : Frame} {t : Trace}
    {res : Option Datum} (h : Continues I g args target ls μ o n fr t res) :
    Continues I g args target ls μ' o n fr t res := by
  cases o with
  | normal => exact absurd rfl ho
  | _ => exact h

theorem Arrives.abrupt {o : Ending} (ho : o ≠ .normal) {σ : Locals} {fr : Frame}
    (h : Arrives Γ args μ o σ fr) : Arrives Γ args μ' o σ fr :=
  ⟨h.cells, fun hn => absurd hn ho⟩

theorem simulates_call {ts : List Tree} {vs : List Value} (G : Ground m g Γ source target)
    (kind : site.kind = .functionCall) (hopen : μ.ended = false) (hb : μ.Backed entry g)
    (hfinal : μ.scope.Leads Γ) (code : Emits m μ.scope (.one (.node site ts)) μ.registers c vs r)
    (hin : g.Holds μ c) :
    Simulates I g Γ args source target (.one (.node site ts)) ls μ (μ.after c.length r) := by
  have hconst := hfinal.constants
  have hpure : ∀ i ∈ c, i.isPure = true := fun i hi => code.isPure hi
  refine simulates_code hin rfl rfl hopen ?_ ?_
  · intro σ fr t o σ' hcells hun hexec
    obtain ⟨xs, heval, rfl, rfl⟩ := hexec.of_call kind
    rw [hconst] at heval
    obtain ⟨fr', hrun, -⟩ := code.computes G.calls (G.agrees hcells hun hb hfinal) heval
    exact ⟨rfl, fr', hrun, G.cells_code hcells hin (List.prefix_refl c) hpure hrun, hun⟩
  · intro σ fr t fr' hcells hun hrun
    obtain ⟨xs, heval, -⟩ := code.means G.calls (G.agrees hcells hun hb hfinal) hrun
    exact ⟨σ, .call kind (hconst ▸ heval),
      G.cells_code hcells hin (List.prefix_refl c) hpure hrun, hun⟩

theorem Ground.returns_at (G : Ground m g Γ source target) {x : Terminator} (h : g.Ends μ x) :
    x.returns g.ret = true := by
  obtain ⟨k, hk, -, hx⟩ := h
  exact G.returns k (List.mem_of_getElem? hk) x hx

theorem simulates_returnNone (G : Ground m g Γ source target) (kind : site.kind = .returnStatement)
    (ends : g.Ends μ (.ret none)) :
    Simulates I g Γ args source target (.one (.node site [])) ls μ μ.stop where
  forward hcells _ hexec := by
    obtain ⟨rfl, rfl, rfl⟩ := hexec.of_returnNone kind
    refine ⟨_, ⟨hcells, nofun⟩, ?_, ?_⟩
    · rintro _ ⟨⟩
      exact resultFits_none (G.returns_at ends)
    · rintro _ _ _ ⟨rfl, rfl, rfl⟩
      exact ⟨0, (haltsIn_ret ends).mpr ⟨rfl, rfl, rfl⟩⟩
  backward hcells _ hhalts := by
    obtain ⟨rfl, rfl, hres⟩ := (haltsIn_ret ends).mp hhalts
    exact ⟨[], _, _, _, 0, [], .returnNone kind, ⟨hcells, nofun⟩, Nat.le_refl _, ⟨rfl, rfl, hres⟩,
      rfl⟩

theorem simulates_returnValue {e : Tree} (G : Ground m g Γ source target)
    (kind : site.kind = .returnStatement) (hb : μ.Backed entry g) (hfinal : μ.scope.Leads Γ)
    (code : Emits m μ.scope (.one e) μ.registers c [v] r) (hin : g.Holds μ c)
    (ends : g.Ends (μ.after c.length r) (.ret (some v))) :
    Simulates I g Γ args source target (.one (.node site [e])) ls μ (μ.after c.length r).stop := by
  have hconst := hfinal.constants
  have hpure : ∀ i ∈ c, i.isPure = true := fun i hi => code.isPure hi
  refine ⟨?_, ?_⟩
  · intro σ fr t o σ' hcells hun hexec
    obtain ⟨x, heval, rfl, rfl⟩ := hexec.of_returnValue kind
    rw [hconst] at heval
    obtain ⟨fr', hrun, hreads⟩ := code.computes G.calls (G.agrees hcells hun hb hfinal) heval
    obtain ⟨_, ⟨⟩, hread, hfits⟩ := hreads.one
    have hcells' := G.cells_code hcells hin (List.prefix_refl c) hpure hrun
    refine ⟨fr', ⟨hcells', nofun⟩, ?_, ?_⟩
    · rintro _ ⟨⟩
      rwa [show v.ty = g.ret from eq_of_beq (G.returns_at ends)] at hfits
    · rintro _ _ _ ⟨rfl, rfl, rfl⟩
      exact ⟨0, (haltsIn_holds hin).mpr ⟨t, fr', [], hrun,
        (haltsIn_ret ends).mpr ⟨rfl, rfl, x, hread, rfl⟩, rfl⟩⟩
  · intro σ fr n t res hcells hun hhalts
    obtain ⟨t₁, fr', t₂, hrun, hret, rfl⟩ := (haltsIn_holds hin).mp hhalts
    obtain ⟨rfl, rfl, x, hx, rfl⟩ := (haltsIn_ret ends).mp hret
    obtain ⟨xs, heval, hreads⟩ := code.means G.calls (G.agrees hcells hun hb hfinal) hrun
    obtain ⟨y, rfl, hread, -⟩ := hreads.one
    obtain rfl := Option.some.inj (hread.symm.trans hx)
    have hcells' := G.cells_code hcells hin (List.prefix_refl c) hpure hrun
    exact ⟨t₁, _, σ, fr', 0, [], .returnValue kind (hconst ▸ heval), ⟨hcells', nofun⟩,
      Nat.le_refl _, ⟨rfl, rfl, rfl⟩, rfl⟩

theorem simulates_leave (kind : site.kind = .statement) (named : site.name = "break")
    (ends : g.Ends μ (.br l.onBreak)) (hpos : 0 < l.onBreak) :
    Simulates I g Γ args source target (.one (.node site [])) (l :: ls) μ μ.stop where
  forward hcells _ hexec := by
    obtain ⟨rfl, rfl, rfl⟩ := hexec.of_leave kind named
    refine ⟨_, ⟨hcells, nofun⟩, nofun, ?_⟩
    rintro n _ _ ⟨_, ⟨⟩, hcont⟩
    exact ⟨n + 1, (haltsIn_br ends hpos).mpr ⟨n, rfl, hcont⟩⟩
  backward hcells _ hhalts := by
    obtain ⟨n', rfl, hcont⟩ := (haltsIn_br ends hpos).mp hhalts
    exact ⟨[], .broke, _, _, n', _, .leave kind named, ⟨hcells, nofun⟩, Nat.le_succ _,
      ⟨l, rfl, hcont⟩, rfl⟩

theorem simulates_again (kind : site.kind = .statement) (named : site.name = "continue")
    (ends : g.Ends μ (.br l.onContinue)) (hpos : 0 < l.onContinue) :
    Simulates I g Γ args source target (.one (.node site [])) (l :: ls) μ μ.stop where
  forward hcells _ hexec := by
    obtain ⟨rfl, rfl, rfl⟩ := hexec.of_again kind named
    refine ⟨_, ⟨hcells, nofun⟩, nofun, ?_⟩
    rintro n _ _ ⟨_, ⟨⟩, hcont⟩
    exact ⟨n + 1, (haltsIn_br ends hpos).mpr ⟨n, rfl, hcont⟩⟩
  backward hcells _ hhalts := by
    obtain ⟨n', rfl, hcont⟩ := (haltsIn_br ends hpos).mp hhalts
    exact ⟨[], .continued, _, _, n', _, .again kind named, ⟨hcells, nofun⟩, Nat.le_succ _,
      ⟨l, rfl, hcont⟩, rfl⟩

/-! ## Rows of statements -/

theorem Simulates.congr (h : Simulates I g Γ args source target p ls μ μ')
    (hpq : ∀ σ t o σ',
      Exec I Γ.constants source q σ t o σ' ↔ Exec I Γ.constants source p σ t o σ') :
    Simulates I g Γ args source target q ls μ μ' where
  forward hcells hun hexec := h.forward hcells hun ((hpq _ _ _ _).mp hexec)
  backward hcells hun hhalts := by
    obtain ⟨t₁, o, σ', fr', n', t₂, hexec, hrest⟩ := h.backward hcells hun hhalts
    exact ⟨t₁, o, σ', fr', n', t₂, (hpq _ _ _ _).mpr hexec, hrest⟩

theorem simulates_cons {t : Tree} {ts : List Tree}
    (first : Simulates I g Γ args source target (.one t) ls μ μ₁)
    (rest : μ₁.ended = false → Simulates I g Γ args source target (.many ts) ls μ₁ μ') :
    Simulates I g Γ args source target (.many (t :: ts)) ls μ μ' where
  forward hcells hun hexec := by
    cases hexec with
    | cons hfirst hrest =>
      obtain ⟨fr₁, harr₁, -, hgo₁⟩ := first.forward hcells hun hfirst
      obtain ⟨hended, hun₁⟩ := harr₁.goesOn rfl
      obtain ⟨fr₂, harr₂, hfits, hgo₂⟩ := (rest hended).forward harr₁.cells hun₁ hrest
      refine ⟨fr₂, harr₂, hfits, fun n t' res hcont => ?_⟩
      obtain ⟨n₁, hn₁⟩ := hgo₂ n t' res hcont
      rw [List.append_assoc]
      exact hgo₁ n₁ _ res hn₁
    | stop hfirst habrupt =>
      obtain ⟨fr₁, harr₁, hfits, hgo₁⟩ := first.forward hcells hun hfirst
      exact ⟨fr₁, harr₁.abrupt habrupt, hfits, fun n t' res hcont =>
        hgo₁ n t' res (hcont.abrupt habrupt)⟩
  backward hcells hun hhalts := by
    obtain ⟨t₁, o, σ₁, fr₁, n₁, t₂, hfirst, harr₁, hle₁, hcont₁, rfl⟩ :=
      first.backward hcells hun hhalts
    by_cases ho : o = .normal
    · subst ho
      obtain ⟨hended, hun₁⟩ := harr₁.goesOn rfl
      obtain ⟨t₃, o, σ₂, fr₂, n₂, t₄, hrest, harr₂, hle₂, hcont₂, rfl⟩ :=
        (rest hended).backward harr₁.cells hun₁ hcont₁
      exact ⟨t₁ ++ t₃, o, σ₂, fr₂, n₂, t₄, .cons hfirst hrest, harr₂, Nat.le_trans hle₂ hle₁,
        hcont₂, (List.append_assoc _ _ _).symm⟩
    · exact ⟨t₁, o, σ₁, fr₁, n₁, t₂, .stop hfirst ho, harr₁.abrupt ho, hle₁, hcont₁.abrupt ho, rfl⟩

/-! ## Conditionals -/

section Testing

variable (I g Γ args source target)

/-- A condition at a mark decides between two blocks. -/
structure Branches (test : Tree) (μ : Mark) (y z : Nat) : Prop where
  forward : ∀ {σ fr t b}, Cells Γ σ fr → Unmoved μ.scope args σ →
    Decides I Γ.constants source σ test t b →
      ∃ fr', Cells Γ σ fr' ∧ ∀ n t' r,
        g.HaltsIn I target args (if b then y else z) 0 n fr' t' r →
          ∃ n', g.HaltsIn I target args μ.block μ.offset n' fr (t ++ t') r
  backward : ∀ {σ fr n t r}, Cells Γ σ fr → Unmoved μ.scope args σ →
    g.HaltsIn I target args μ.block μ.offset n fr t r →
      ∃ t₁ b fr' n' t₂, Decides I Γ.constants source σ test t₁ b ∧ Cells Γ σ fr' ∧ n' < n ∧
        g.HaltsIn I target args (if b then y else z) 0 n' fr' t₂ r ∧ t = t₁ ++ t₂

end Testing

theorem Ground.branches {test : Tree} {y z : Nat} (G : Ground m g Γ source target)
    (hb : μ.Backed entry g) (hfinal : μ.scope.Leads Γ)
    (code : Tests m μ.scope test μ.registers c v r) (hin : g.Holds μ c)
    (ends : g.Ends (μ.after c.length r) (.condBr v y z)) (hy : 0 < y) (hz : 0 < z) :
    Branches I g Γ args source target test μ y z := by
  have hconst := hfinal.constants
  have hpure : ∀ i ∈ c, i.isPure = true := fun i hi => code.isPure hi
  refine ⟨?_, ?_⟩
  · intro σ fr t b hcells hun hd
    rw [hconst] at hd
    obtain ⟨fr', hrun, hread⟩ := code.computes G.calls (G.agrees hcells hun hb hfinal) hd
    refine ⟨fr', G.cells_code hcells hin (List.prefix_refl c) hpure hrun, fun n t' res hhalts => ?_⟩
    have hbranch := (haltsIn_condBr ends hy hz).mpr ⟨n, b, rfl, hread, hhalts⟩
    exact ⟨n + 1, (haltsIn_holds hin).mpr ⟨t, fr', t', hrun, hbranch, rfl⟩⟩
  · intro σ fr n t res hcells hun hhalts
    obtain ⟨t₁, fr', t₂, hrun, hbranch, rfl⟩ := (haltsIn_holds hin).mp hhalts
    obtain ⟨b, hd, hread⟩ := code.means G.calls (G.agrees hcells hun hb hfinal) hrun
    obtain ⟨n', b', rfl, hread', hhalts'⟩ := (haltsIn_condBr ends hy hz).mp hbranch
    obtain rfl : b = b' := by simpa [hread] using hread'
    exact ⟨t₁, b, fr', n', t₂, hconst ▸ hd, G.cells_code hcells hin (List.prefix_refl c) hpure hrun,
      Nat.lt_succ_self _, hhalts', rfl⟩

theorem Simulates.joins {j : Nat} (h : Simulates I g Γ args source target p ls μ μ₁)
    (hfalls : g.Falls μ₁ j) (hj : 0 < j) (hleads : μ₁.scope.Leads ν.scope) :
    Simulates I g Γ args source target p ls μ (ν.head j) where
  forward hcells hun hexec := by
    obtain ⟨fr', harr, hfits, hgo⟩ := h.forward hcells hun hexec
    refine ⟨fr', ⟨harr.cells, fun ho => ⟨rfl, (harr.goesOn ho).2.leads hleads⟩⟩, hfits, ?_⟩
    intro n t' res hcont
    rename_i o _
    by_cases ho : o = .normal
    · subst ho
      have hends := hfalls (harr.goesOn rfl).1
      exact hgo (n + 1) t' res ((haltsIn_br hends hj).mpr ⟨n, rfl, hcont⟩)
    · exact hgo n t' res (hcont.abrupt ho)
  backward hcells hun hhalts := by
    obtain ⟨t₁, o, σ', fr', n', t₂, hexec, harr, hle, hcont, rfl⟩ := h.backward hcells hun hhalts
    have harr' : Arrives Γ args (ν.head j) o σ' fr' :=
      ⟨harr.cells, fun ho => ⟨rfl, (harr.goesOn ho).2.leads hleads⟩⟩
    by_cases ho : o = .normal
    · subst ho
      obtain ⟨n'', rfl, hcont'⟩ := (haltsIn_br (hfalls (harr.goesOn rfl).1) hj).mp hcont
      exact ⟨t₁, _, σ', fr', n'', t₂, hexec, harr', Nat.le_of_succ_le hle, hcont', rfl⟩
    · exact ⟨t₁, o, σ', fr', n', t₂, hexec, harr', hle, hcont.abrupt ho, rfl⟩

/-- Two arms that meet simulate a conditional. -/
theorem Branches.simulates {test : Tree} (arm : Bool → Piece) (ν : Bool → Mark)
    (branches : Branches I g Γ args source target test μ (ν true).block (ν false).block)
    (hhead : ∀ b, (ν b).offset = 0 ∧ μ.scope.Leads (ν b).scope)
    (harm : ∀ b, Simulates I g Γ args source target (arm b) ls (ν b) μ')
    (means : ∀ σ t o σ', Exec I Γ.constants source p σ t o σ' ↔
      ∃ b t₁ t₂, Decides I Γ.constants source σ test t₁ b ∧
        Exec I Γ.constants source (arm b) σ t₂ o σ' ∧ t = t₁ ++ t₂) :
    Simulates I g Γ args source target p ls μ μ' := by
  have hblock : ∀ b, (if b then (ν true).block else (ν false).block) = (ν b).block := by
    rintro (_ | _) <;> rfl
  refine ⟨?_, ?_⟩
  · intro σ fr t o σ' hcells hun hexec
    obtain ⟨b, t₁, t₂, hd, hexec', rfl⟩ := (means _ _ _ _).mp hexec
    obtain ⟨hoffset, hleads⟩ := hhead b
    obtain ⟨fr₁, hcells₁, hgo₁⟩ := branches.forward hcells hun hd
    obtain ⟨fr₂, harr, hfits, hgo₂⟩ := (harm b).forward hcells₁ (hun.leads hleads) hexec'
    refine ⟨fr₂, harr, hfits, fun n t' res hcont => ?_⟩
    obtain ⟨n₁, hn₁⟩ := hgo₂ n t' res hcont
    rw [hoffset, ← hblock] at hn₁
    rw [List.append_assoc]
    exact hgo₁ n₁ _ res hn₁
  · intro σ fr n t res hcells hun hhalts
    obtain ⟨t₁, b, fr₁, n₁, t₂, hd, hcells₁, hlt, hrest, rfl⟩ := branches.backward hcells hun hhalts
    obtain ⟨hoffset, hleads⟩ := hhead b
    rw [hblock, ← hoffset] at hrest
    obtain ⟨t₃, o, σ', fr₂, n₂, t₄, hexec, harr, hle, hcont, rfl⟩ :=
      (harm b).backward hcells₁ (hun.leads hleads) hrest
    exact ⟨t₁ ++ t₃, o, σ', fr₂, n₂, t₄, (means _ _ _ _).mpr ⟨b, t₁, t₃, hd, hexec, rfl⟩, harr,
      Nat.le_trans hle (Nat.le_of_lt hlt), hcont, (List.append_assoc _ _ _).symm⟩

theorem exec_arm (no : Tree) {σ σ' : Locals} {t : Trace} {o : Ending} :
    Exec I Γ.constants source (.one no) σ t o σ' ↔ Exec I Γ.constants source no.arm σ t o σ' := by
  unfold Tree.arm
  split
  · rename_i kind
    cases no with
    | node site ts => exact ⟨fun h => h.of_block kind, fun h => .block kind h⟩
  · exact Iff.rfl

theorem exec_block {yes : Tree} (kind : yes.kind = .block) {σ σ' : Locals} {t : Trace}
    {o : Ending} :
    Exec I Γ.constants source (.one yes) σ t o σ' ↔
      Exec I Γ.constants source (.many yes.children) σ t o σ' := by
  rw [exec_arm, Tree.arm, if_pos kind]

theorem exec_ifThen {test yes : Tree} (kind : site.kind = .statement) (named : site.name = "if")
    (blockYes : yes.kind = .block) (σ : Locals) (t : Trace) (o : Ending) (σ' : Locals) :
    Exec I Γ.constants source (.one (.node site [test, yes])) σ t o σ' ↔
      ∃ b t₁ t₂, Decides I Γ.constants source σ test t₁ b ∧
        Exec I Γ.constants source (if b then .many yes.children else .many []) σ t₂ o σ' ∧
          t = t₁ ++ t₂ := by
  constructor
  · intro h
    rcases h.of_ifThen kind with ⟨t₁, t₂, hd, hexec, rfl⟩ | ⟨hd, rfl, rfl⟩
    · exact ⟨true, t₁, t₂, hd, (exec_block blockYes).mp hexec, rfl⟩
    · exact ⟨false, t, [], hd, .nil, (List.append_nil t).symm⟩
  · rintro ⟨b, t₁, t₂, hd, hexec, rfl⟩
    cases b with
    | true => exact .ifYes kind named hd ((exec_block blockYes).mpr hexec)
    | false =>
      cases hexec
      rw [List.append_nil]
      exact .ifNone kind named hd

theorem exec_ifElse {test yes no : Tree} (kind : site.kind = .statement) (named : site.name = "if")
    (blockYes : yes.kind = .block) (σ : Locals) (t : Trace) (o : Ending) (σ' : Locals) :
    Exec I Γ.constants source (.one (.node site [test, yes, no])) σ t o σ' ↔
      ∃ b t₁ t₂, Decides I Γ.constants source σ test t₁ b ∧
        Exec I Γ.constants source (if b then .many yes.children else no.arm) σ t₂ o σ' ∧
          t = t₁ ++ t₂ := by
  constructor
  · intro h
    obtain ⟨b, t₁, t₂, hd, hexec, rfl⟩ := h.of_ifElse kind
    refine ⟨b, t₁, t₂, hd, ?_, rfl⟩
    cases b with
    | true => exact (exec_block blockYes).mp hexec
    | false => exact (exec_arm no).mp hexec
  · rintro ⟨b, t₁, t₂, hd, hexec, rfl⟩
    cases b with
    | true => exact .ifYes kind named hd ((exec_block blockYes).mpr hexec)
    | false => exact .ifNo kind named hd ((exec_arm no).mpr hexec)

theorem simulates_ifThen {test yes : Tree} (kind : site.kind = .statement)
    (named : site.name = "if") (blockYes : yes.kind = .block) (hleads : μ.scope.Leads μ₁.scope)
    (branches : Branches I g Γ args source target test μ μ.blocks (μ.blocks + 1))
    (inside : Simulates I g Γ args source target (.many yes.children) ls
      (((μ.after c.length r).grow 2).head μ.blocks) μ₁) (joins : g.Falls μ₁ (μ.blocks + 1)) :
    Simulates I g Γ args source target (.one (.node site [test, yes])) ls μ
      (μ₁.head (μ.blocks + 1)) := by
  have hyes := inside.joins joins (Nat.succ_pos _) (.refl _)
  -- Without a second arm the branch goes straight to the join.
  have hno : Simulates I g Γ args source target (.many []) ls (μ.head (μ.blocks + 1))
      (μ₁.head (μ.blocks + 1)) := by
    refine simulates_nothing rfl rfl rfl hleads ?_ fun σ => .nil
    rintro σ t o σ' ⟨⟩
    exact ⟨rfl, rfl, rfl⟩
  refine Branches.simulates (fun b => if b then .many yes.children else .many [])
    (fun b => if b then ((μ.after c.length r).grow 2).head μ.blocks else μ.head (μ.blocks + 1))
    branches ?_ ?_ (exec_ifThen kind named blockYes)
  · rintro (_ | _)
    · exact ⟨rfl, .refl _⟩
    · exact ⟨rfl, .refl _⟩
  · rintro (_ | _)
    · exact hno
    · exact hyes

theorem simulates_ifElse {test yes no : Tree} {μ₂ : Mark} (kind : site.kind = .statement)
    (named : site.name = "if") (blockYes : yes.kind = .block) (hleads₁ : μ.scope.Leads μ₁.scope)
    (hleads₂ : μ₁.scope.Leads μ₂.scope)
    (branches : Branches I g Γ args source target test μ μ.blocks (μ.blocks + 2))
    (inside : Simulates I g Γ args source target (.many yes.children) ls
      (((μ.after c.length r).grow 3).head μ.blocks) μ₁) (joins : g.Falls μ₁ (μ.blocks + 1))
    (otherwise : Simulates I g Γ args source target no.arm ls (μ₁.head (μ.blocks + 2)) μ₂)
    (joins' : g.Falls μ₂ (μ.blocks + 1)) :
    Simulates I g Γ args source target (.one (.node site [test, yes, no])) ls μ
      (μ₂.head (μ.blocks + 1)) := by
  have hyes := inside.joins joins (Nat.succ_pos _) hleads₂
  have hno := otherwise.joins joins' (Nat.succ_pos _) (.refl _)
  refine Branches.simulates (fun b => if b then .many yes.children else no.arm)
    (fun b => if b then ((μ.after c.length r).grow 3).head μ.blocks else μ₁.head (μ.blocks + 2))
    branches ?_ ?_ (exec_ifElse kind named blockYes)
  · rintro (_ | _)
    · exact ⟨rfl, hleads₁⟩
    · exact ⟨rfl, .refl _⟩
  · rintro (_ | _)
    · exact hno
    · exact hyes

/-! ## Loops -/

section Rounds

variable {h e n : Nat} {o o' : Ending} {fr : Frame} {t : Trace} {res : Option Datum}

theorem Continues.again (hnext : o.leaves = none) (hback : o = .normal → g.Ends μ₁ (.br h))
    (hpos : 0 < h) (hcont : Continues I g args target (⟨h, e⟩ :: ls) μ₁ o n fr t res) :
    ∃ n', n' ≤ n ∧ g.HaltsIn I target args h 0 n' fr t res := by
  cases o with
  | normal =>
    obtain ⟨n', rfl, hcont'⟩ := (haltsIn_br (hback rfl) hpos).mp hcont
    exact ⟨n', Nat.le_succ _, hcont'⟩
  | continued =>
    obtain ⟨_, ⟨⟩, hcont'⟩ := hcont
    exact ⟨n, Nat.le_refl _, hcont'⟩
  | _ => cases hnext

theorem continues_again (hnext : o.leaves = none) (hback : o = .normal → g.Ends μ₁ (.br h))
    (hpos : 0 < h) (hhalts : g.HaltsIn I target args h 0 n fr t res) :
    ∃ n', Continues I g args target (⟨h, e⟩ :: ls) μ₁ o n' fr t res := by
  cases o with
  | normal => exact ⟨n + 1, (haltsIn_br (hback rfl) hpos).mpr ⟨n, rfl, hhalts⟩⟩
  | continued => exact ⟨n, ⟨h, e⟩, rfl, hhalts⟩
  | _ => cases hnext

theorem continues_leave (hleaves : o.leaves = some o') :
    Continues I g args target (⟨h, e⟩ :: ls) μ₁ o n fr t res ↔
      Continues I g args target ls (μ'.head e) o' n fr t res := by
  cases o with
  | broke =>
    cases hleaves
    constructor
    · rintro ⟨_, ⟨⟩, hcont⟩
      exact hcont
    · exact fun hcont => ⟨⟨h, e⟩, rfl, hcont⟩
  | returned x =>
    cases hleaves
    exact Iff.rfl
  | _ => cases hleaves

end Rounds

section Looping

variable (I g Γ args source target)

/-- A loop whose header starts at `μ`, whose body goes from `ν` to `μ₁` and which
is left for the block `e`. -/
structure Rounds (test body : Tree) (ls : List LoopTargets) (μ ν μ₁ : Mark) (e : Nat) : Prop where
  header : μ.offset = 0 ∧ 0 < μ.block
  branches : Branches I g Γ args source target test μ ν.block e
  start : ν.offset = 0 ∧ μ.scope.Leads ν.scope
  inside : Simulates I g Γ args source target (.one body) (⟨μ.block, e⟩ :: ls) ν μ₁
  back : g.Falls μ₁ μ.block
  leads : μ.scope.Leads μ₁.scope
  keeps : ∀ {σ t o σ'}, Unmoved μ.scope args σ →
    Exec I Γ.constants source (.one body) σ t o σ' → Unmoved μ.scope args σ'

end Looping

namespace Rounds

variable {test body : Tree} {e : Nat} {σ σ₁ : Locals} {fr : Frame} {t t₁ t₂ : Trace} {o o' : Ending}
  {n : Nat} {res : Option Datum}

theorem enters (h : Rounds I g Γ args source target test body ls μ ν μ₁ e) (hcells : Cells Γ σ fr)
    (hun : Unmoved μ.scope args σ) (hd : Decides I Γ.constants source σ test t₁ true)
    (hround : Exec I Γ.constants source (.one body) σ t₂ o σ₁) :
    ∃ fr', Arrives Γ args μ₁ o σ₁ fr' ∧ (∀ r, o = .returned r → ResultFits g.ret r) ∧
      ∀ n t' r, Continues I g args target (⟨μ.block, e⟩ :: ls) μ₁ o n fr' t' r →
        ∃ n', g.HaltsIn I target args μ.block μ.offset n' fr (t₁ ++ (t₂ ++ t')) r := by
  obtain ⟨hoffset, hleads⟩ := h.start
  obtain ⟨fr₁, hcells₁, hgo₁⟩ := h.branches.forward hcells hun hd
  obtain ⟨fr₂, harr, hfits, hgo₂⟩ := h.inside.forward hcells₁ (hun.leads hleads) hround
  refine ⟨fr₂, harr, hfits, fun n t' r hcont => ?_⟩
  obtain ⟨n₁, hn₁⟩ := hgo₂ n t' r hcont
  exact hgo₁ n₁ _ r (hoffset ▸ hn₁)

theorem entered (h : Rounds I g Γ args source target test body ls μ ν μ₁ e) (hcells : Cells Γ σ fr)
    (hun : Unmoved μ.scope args σ) (hhalts : g.HaltsIn I target args μ.block μ.offset n fr t res) :
    (∃ t₁ fr' n' t₂, Decides I Γ.constants source σ test t₁ false ∧ Cells Γ σ fr' ∧ n' < n ∧
      g.HaltsIn I target args e 0 n' fr' t₂ res ∧ t = t₁ ++ t₂) ∨
    (∃ t₁ t₂ o σ₁ fr' n' t₃, Decides I Γ.constants source σ test t₁ true ∧
      Exec I Γ.constants source (.one body) σ t₂ o σ₁ ∧ Arrives Γ args μ₁ o σ₁ fr' ∧ n' < n ∧
        Continues I g args target (⟨μ.block, e⟩ :: ls) μ₁ o n' fr' t₃ res ∧
          t = t₁ ++ (t₂ ++ t₃)) := by
  obtain ⟨hoffset, hleads⟩ := h.start
  obtain ⟨t₁, b, fr₁, n₁, t₂, hd, hcells₁, hlt, hrest, rfl⟩ := h.branches.backward hcells hun hhalts
  cases b with
  | false => exact .inl ⟨t₁, fr₁, n₁, t₂, hd, hcells₁, hlt, hrest, rfl⟩
  | true =>
    obtain ⟨t₃, o, σ₁, fr₂, n₂, t₄, hround, harr, hle, hcont, rfl⟩ :=
      h.inside.backward hcells₁ (hun.leads hleads) (hoffset ▸ hrest)
    exact .inr
      ⟨t₁, t₃, o, σ₁, fr₂, n₂, t₄, hd, hround, harr, Nat.lt_of_le_of_lt hle hlt, hcont, rfl⟩

theorem arrives (h : Rounds I g Γ args source target test body ls μ ν μ₁ e)
    (hun : Unmoved μ.scope args σ) (hround : Exec I Γ.constants source (.one body) σ t o σ₁)
    (harr : Arrives Γ args μ₁ o σ₁ fr) : Arrives Γ args (μ₁.head e) o' σ₁ fr :=
  ⟨harr.cells, fun _ => ⟨rfl, (h.keeps hun hround).leads h.leads⟩⟩

theorem simulates (h : Rounds I g Γ args source target test body ls μ ν μ₁ e)
    (kind : site.kind = .whileStatement) :
    Simulates I g Γ args source target (.one (.node site [test, body])) ls μ (μ₁.head e) := by
  obtain ⟨hoffset, hpos⟩ := h.header
  refine ⟨?_, ?_⟩
  · intro σ fr t o σ' hcells hun hexec
    -- Each round starts at the header, with every parameter where it was.
    refine Exec.loop_induct (P := fun σ t o σ' => ∀ fr, Cells Γ σ fr → Unmoved μ.scope args σ →
      ∃ fr', Arrives Γ args (μ₁.head e) o σ' fr' ∧ (∀ r, o = .returned r → ResultFits g.ret r) ∧
        ∀ n t' r, Continues I g args target ls (μ₁.head e) o n fr' t' r →
          ∃ n', g.HaltsIn I target args μ.block μ.offset n' fr (t ++ t') r)
      kind ?_ ?_ ?_ hexec fr hcells hun
    · intro σ t hd fr hcells hun
      obtain ⟨fr', hcells', hgo⟩ := h.branches.forward hcells hun hd
      exact ⟨fr', ⟨hcells', fun _ => ⟨rfl, hun.leads h.leads⟩⟩, nofun, hgo⟩
    · intro σ σ₁ σ₂ t₁ t₂ t₃ o o' hd hround hnext ih fr hcells hun
      obtain ⟨fr₁, harr₁, -, hgo₁⟩ := h.enters hcells hun hd hround
      obtain ⟨fr₂, harr₂, hfits, hgo₂⟩ := ih fr₁ harr₁.cells (h.keeps hun hround)
      refine ⟨fr₂, harr₂, hfits, fun n t' res hcont => ?_⟩
      obtain ⟨n₂, hn₂⟩ := hgo₂ n t' res hcont
      obtain ⟨n₁, hn₁⟩ :=
        continues_again hnext (fun ho => h.back (harr₁.goesOn ho).1) hpos (hoffset ▸ hn₂)
      simpa only [List.append_assoc] using hgo₁ n₁ _ res hn₁
    · intro σ σ₁ t₁ t₂ o o' hd hround hleaves fr hcells hun
      obtain ⟨fr₁, harr₁, hfits, hgo₁⟩ := h.enters hcells hun hd hround
      refine ⟨fr₁, h.arrives hun hround harr₁, ?_, fun n t' res hcont => ?_⟩
      · rintro r rfl
        exact hfits r (Ending.of_leaves_returned hleaves)
      · rw [List.append_assoc]
        exact hgo₁ n t' res ((continues_leave hleaves).mpr hcont)
  · intro σ fr n t res hcells hun hhalts
    -- Each round jumps, so the rest of the run is shorter.
    induction n using Nat.strongRecOn generalizing σ fr t with
    | ind n ih =>
      rcases h.entered hcells hun hhalts with ⟨t₁, fr₁, n₁, t₂, hd, hcells₁, hlt, hrest, rfl⟩ |
        ⟨t₁, t₂, o, σ₁, fr₁, n₁, t₃, hd, hround, harr, hlt, hcont, rfl⟩
      · exact ⟨t₁, .normal, σ, fr₁, n₁, t₂, .loopEnd kind hd,
          ⟨hcells₁, fun _ => ⟨rfl, hun.leads h.leads⟩⟩, Nat.le_of_lt hlt, hrest, rfl⟩
      · cases hleaves : o.leaves with
        | none =>
          obtain ⟨n₂, hle, hhead⟩ :=
            hcont.again hleaves (fun ho => h.back (harr.goesOn ho).1) hpos
          obtain ⟨t₄, o', σ₂, fr₂, n₃, t₅, hexec, harr₂, hle₂, hcont₂, rfl⟩ :=
            ih n₂ (Nat.lt_of_le_of_lt hle hlt) harr.cells (h.keeps hun hround) (hoffset ▸ hhead)
          exact ⟨t₁ ++ (t₂ ++ t₄), o', σ₂, fr₂, n₃, t₅, .loopNext kind hd hround hleaves hexec,
            harr₂, by omega, hcont₂, by simp only [List.append_assoc]⟩
        | some o' =>
          exact ⟨t₁ ++ t₂, o', σ₁, fr₁, n₁, t₃, .loopLeave kind hd hround hleaves,
            h.arrives hun hround harr, Nat.le_of_lt hlt, (continues_leave hleaves).mp hcont,
            (List.append_assoc _ _ _).symm⟩

end Rounds

theorem Simulates.entered (h : Simulates I g Γ args source target p ls ν μ')
    (ends : g.Ends μ (.br ν.block)) (hpos : 0 < ν.block) (hoffset : ν.offset = 0)
    (hscope : ν.scope = μ.scope) : Simulates I g Γ args source target p ls μ μ' where
  forward hcells hun hexec := by
    obtain ⟨fr', harr, hfits, hgo⟩ := h.forward hcells (hscope ▸ hun) hexec
    refine ⟨fr', harr, hfits, fun n t' res hcont => ?_⟩
    obtain ⟨n₁, hn₁⟩ := hgo n t' res hcont
    exact ⟨n₁ + 1, (haltsIn_br ends hpos).mpr ⟨n₁, rfl, hoffset ▸ hn₁⟩⟩
  backward hcells hun hhalts := by
    obtain ⟨n₁, rfl, hrest⟩ := (haltsIn_br ends hpos).mp hhalts
    obtain ⟨t₁, o, σ', fr', n', t₂, hexec, harr, hle, hcont, rfl⟩ :=
      h.backward hcells (hscope ▸ hun) (hoffset ▸ hrest)
    exact ⟨t₁, o, σ', fr', n', t₂, hexec, harr, Nat.le_succ_of_le hle, hcont, rfl⟩

theorem Unmoved.keeps {body : Tree} {σ σ' : Locals} {t : Trace} {o : Ending} (hb : μ.Backed entry g)
    (hfresh : (Piece.many body.children).Fresh μ.scope)
    (hloop : ∀ x ∈ body.assigned, ∀ v, entry.local? x ≠ some (.register v))
    (blockBody : body.kind = .block) (hun : Unmoved μ.scope args σ)
    (hexec : Exec I Γ.constants source (.one body) σ t o σ') : Unmoved μ.scope args σ' := by
  intro x v hx
  obtain ⟨i, rfl, hi⟩ := hun x v hx
  refine ⟨i, rfl, ?_⟩
  rw [((exec_block blockBody).mp hexec).unchanged ?_, hi]
  rintro a ha (kind | kind) rfl
  · have ha := Tree.mem_assigned.mpr ⟨a, body.subtreesAll_children ha, kind, rfl⟩
    exact hloop _ ha _ (hb.registers _ _ hx)
  · have hnone := hfresh.unbound _ (Piece.mem_declared.mpr ⟨a, ha, kind, rfl⟩)
    rw [hx] at hnone
    cases hnone

/-! ## Whole layouts -/

/-- A layout does what its piece means, if names are declared once and no
parameter is assigned in a loop. -/
theorem Lays.simulates (h : Lays m g p ls μ μ') (G : Ground m g Γ source target)
    (hfresh : p.Fresh μ.scope) (hb : μ.Backed entry g) (hfinal : μ'.scope.Leads Γ)
    (hopen : μ.ended = false) (hpos : 0 < μ.blocks)
    (hls : ∀ l ∈ ls, 0 < l.onContinue ∧ 0 < l.onBreak)
    (hloops : ∀ x ∈ p.looped, ∀ v, entry.local? x ≠ some (.register v)) :
    Simulates I g Γ args source target p ls μ μ' := by
  induction h with
  | declare kind =>
    exact simulates_nothing rfl rfl hopen (hfresh.leads kind _) (fun h => h.of_declare kind)
      fun σ => .declare kind
  | initialise kind _ _ _ slot code fits holds =>
    exact simulates_initialise G kind hopen (hb.slot slot (hfresh.name kind)) (hfresh.leads kind _)
      hfinal code fits holds
  | assign kind _ updates target code fits holds =>
    exact simulates_assign G kind updates hopen target hb hfinal code fits holds
  | returnNone kind ends => exact simulates_returnNone G kind ends
  | returnValue kind code holds ends =>
    exact simulates_returnValue G kind hb hfinal code holds ends
  | @loop site test body ls μ μ₁ c v r kind blockBody enters code holds branches inside back ih =>
    have hin := hfresh.inside (t := body) (by simp)
    have hleads := inside.leads hin
    have hbhead : ((μ.grow 3).head μ.blocks).Backed entry g :=
      hb.mono (fun _ => rfl) (Nat.le_refl _) rfl
    have hbody := ih hin (hb.mono (fun _ => rfl) code.registers_le rfl) hfinal rfl
      (Nat.lt_of_lt_of_le hpos (Nat.le_add_right _ 3))
      (List.forall_mem_cons.mpr ⟨⟨hpos, Nat.succ_pos _⟩, hls⟩)
      (fun x hx => hloops x (Piece.looped_inside (by simp) hx))
    have hrounds : Rounds I g Γ args source target test body ls ((μ.grow 3).head μ.blocks)
        ((((μ.grow 3).head μ.blocks).after c.length r).head (μ.blocks + 1)) μ₁ (μ.blocks + 2) :=
      { header := ⟨rfl, hpos⟩
        branches := G.branches hbhead (hleads.trans hfinal) code holds branches (Nat.succ_pos _)
          (Nat.succ_pos _)
        start := ⟨rfl, .refl _⟩
        inside := hbody.congr fun _ _ _ _ => exec_block blockBody
        back := back
        leads := hleads
        keeps := fun hun hexec => Unmoved.keeps hbhead hin
          (fun x hx => hloops x (Piece.mem_looped_body kind hx)) blockBody hun hexec }
    exact (hrounds.simulates kind).entered enters hpos rfl rfl
  | @ifThen site test yes ls μ μ₁ c v r kind named blockYes code holds branches inside joins ih =>
    have hin := hfresh.inside (t := yes) (by simp)
    have hleads := inside.leads hin
    have hyes := ih hin (hb.mono (fun _ => rfl) code.registers_le rfl) hfinal rfl
      (Nat.lt_of_lt_of_le hpos (Nat.le_add_right _ 2)) hls
      fun x hx => hloops x (Piece.looped_inside (by simp) hx)
    exact simulates_ifThen kind named blockYes hleads
      (G.branches hb (hleads.trans hfinal) code holds branches hpos (Nat.succ_pos _)) hyes joins
  | @ifElse site test yes no ls μ μ₁ μ₂ c v r kind named blockYes _ code holds branches inside joins
      otherwise joins' ih₁ ih₂ =>
    have hin := hfresh.inside (t := yes) (by simp)
    have hno := Piece.Fresh.otherwise inside hfresh
    have hleads₁ := inside.leads hin
    have hleads₂ := otherwise.leads hno
    have hb₁ := inside.backed hin (hb.mono (fun _ => rfl) code.registers_le rfl)
    have hpos₁ := Nat.lt_of_lt_of_le hpos (Nat.le_add_right _ 3)
    have hyes := ih₁ hin (hb.mono (fun _ => rfl) code.registers_le rfl) (hleads₂.trans hfinal) rfl
      hpos₁ hls fun x hx => hloops x (Piece.looped_inside (by simp) hx)
    have hother := ih₂ hno (hb₁.mono (fun _ => rfl) (Nat.le_refl _) rfl) hfinal rfl
      (Nat.lt_of_lt_of_le hpos₁ inside.blocks_le) hls
      fun x hx => hloops x (Piece.looped_arm (by simp) hx)
    exact simulates_ifElse kind named blockYes hleads₁ hleads₂
      (G.branches hb ((hleads₁.trans hleads₂).trans hfinal) code holds branches hpos
        (Nat.succ_pos _)) hyes joins hother joins'
  | leave kind named ends =>
    exact simulates_leave kind named ends (hls _ (List.mem_cons_self ..)).2
  | again kind named ends =>
    exact simulates_again kind named ends (hls _ (List.mem_cons_self ..)).1
  | call kind code holds => exact simulates_call G kind hopen hb hfinal code holds
  | block kind inside ih =>
    refine (ih hfresh.children hb hfinal hopen hpos hls ?_).congr fun σ t o σ' =>
      ⟨fun h => h.of_block kind, fun h => .block kind h⟩
    exact fun x hx => hloops x (Piece.looped_children hx)
  | nil =>
    refine simulates_nothing rfl rfl hopen (.refl _) ?_ fun σ => .nil
    rintro σ t o σ' ⟨⟩
    exact ⟨rfl, rfl, rfl⟩
  | skip ended => simp [ended] at hopen
  | @cons t ts ls μ μ₁ μ₂ unended first rest ih₁ ih₂ =>
    have hrest := hfresh.tail first
    have hl := rest.leads hrest
    refine simulates_cons (ih₁ hfresh.head hb (hl.trans hfinal) unended hpos hls ?_) fun hended =>
      ih₂ hrest (first.backed hfresh.head hb) hfinal hended
        (Nat.lt_of_lt_of_le hpos first.blocks_le) hls ?_
    · exact fun x hx => hloops x (Piece.looped_mono (List.subset_append_left _ _) hx)
    · exact fun x hx => hloops x (Piece.looped_mono (List.subset_append_right _ _) hx)

end Control

end TreeFlow
