import TreeFlow.Proofs.Linking

/-!
# Structural soundness

Every control construct closes the blocks it opens, whatever mix of returns,
jumps and fall-through its arms end in. So each block of a lowered function has
a terminator, whose targets are blocks of the function, and each call names a
function of the module. What the verifier may still object to is the type of a
returned value, and that can be read off the source.
-/

set_option autoImplicit false

namespace TreeFlow

variable {m : Module} {singlePass : Bool}

/-! ## Source types -/

/-- Whether an expression has type `int` in the source: a comparison is a truth
value, and arithmetic has the type of its left operand. -/
def Tree.isInt : Tree → Bool
  | .node site children =>
    match site.kind, children with
    | .literal, _ | .identifier, _ | .functionCall, _ => true
    | .binaryExpression, l :: _ =>
      match Operator.ofSymbol? site.name with
      | some (.arith _) => l.isInt
      | _ => false
    | _, _ => false

/-- Whether a return statement fits the result type: an `int` function returns
one `int`, and a `void` function nothing. -/
def Tree.returnFits (ret : Ty) (t : Tree) : Bool :=
  match ret, t.children with
  | .i32, [e] => e.isInt
  | .void, [] => true
  | _, _ => false

def Tree.returnsAsDeclared (t : Tree) : Bool :=
  match t.children.head?.bind fun result => Ty.ofName? result.name with
  | some ret => t.subtrees.all fun c => c.kind != .returnStatement || c.returnFits ret
  | none => true

def Storage.IsInt : Storage → Prop
  | .register v => v.ty = .i32
  | .slot _ ty => ty = .i32

def Scope.AllInt (s : Scope) : Prop := ∀ name storage, s.local? name = some storage → storage.IsInt

def Module.AllInt (m : Module) : Prop :=
  ∀ j f, m.function? j = some f → f.ret = .i32 ∨ f.ret = .void

theorem Ty.ofSite_ok {s : Site} {ty : Ty} (h : Ty.ofSite s = .ok ty) :
    s.kind = .identifier ∧ Ty.ofName? s.name = some ty := by
  unfold Ty.ofSite at h
  split at h
  · rename_i hk
    split at h
    · cases h
      exact ⟨hk, ‹_›⟩
    · cases h
  · cases h

theorem Ty.ofName?_some {name : String} {ty : Ty} (h : Ty.ofName? name = some ty) :
    name = "int" ∧ ty = .i32 ∨ name = "void" ∧ ty = .void := by
  unfold Ty.ofName? at h
  split at h
  · cases h
    exact .inl ⟨‹_›, rfl⟩
  · split at h
    · cases h
      exact .inr ⟨‹_›, rfl⟩
    · cases h

theorem Ty.ofSite_sized {s : Site} {ty : Ty} (h : Ty.ofSite s = .ok ty) (hv : ty.isVoid = false) :
    ty = .i32 := by
  rcases ofName?_some (ofSite_ok h).2 with ⟨-, rfl⟩ | ⟨-, rfl⟩
  · rfl
  · cases hv

theorem Scope.local?_of_lookup {s : Scope} {name : String} {storage : Storage}
    (h : s.lookup name = some (.stored storage)) : s.local? name = some storage := by
  unfold Scope.lookup at h
  split at h
  · cases h
    assumption
  · simp at h

namespace Scope.AllInt

variable {s : Scope}

theorem bind (h : s.AllInt) (name : String) {storage : Storage} (hs : storage.IsInt) :
    (s.bind name storage).AllInt := by
  intro other st ho
  rw [Scope.local?_bind] at ho
  split at ho
  · cases ho
    exact hs
  · exact h other st ho

theorem lookup (h : s.AllInt) {name : String} {storage : Storage}
    (hl : s.lookup name = some (.stored storage)) : storage.IsInt :=
  h name storage (Scope.local?_of_lookup hl)

end Scope.AllInt

theorem Operator.ofSite_ok {s : Site} {op : Operator} (h : Operator.ofSite s = .ok op) :
    Operator.ofSymbol? s.name = some op := by
  unfold Operator.ofSite at h
  split at h
  · cases h
    assumption
  · cases h

theorem Operator.isInt_ty {site : Site} {a : Tree} {ts : List Tree} {op : Operator}
    (kind : site.kind = .binaryExpression) (operator : Operator.ofSite site = .ok op)
    (h : (Tree.node site (a :: ts)).isInt = true) (u : Value) :
    a.isInt = true ∧ op.ty u = u.ty := by
  simp only [Tree.isInt, kind, Operator.ofSite_ok operator] at h
  cases op with
  | arith op => exact ⟨h, rfl⟩
  | compare test => cases h

theorem Emits.isInt {scope : Scope} {t : Tree} {r r' : Nat} {c : List Instr} {v : Value}
    (hm : m.AllInt) (hs : scope.AllInt) (h : Emits m scope (.one t) r c [v] r')
    (ht : t.isInt = true) : v.ty = .i32 := by
  generalize hp : Piece.one t = p at h
  generalize hvs : [v] = vs at h
  induction h generalizing t v with
  | literal => cases hvs; rfl
  | register kind bound => cases hvs; exact hs.lookup bound
  | slot kind bound => cases hvs; exact hs.lookup bound
  | constant => cases hvs; rfl
  | binary kind operator left right same ihl =>
    cases hvs
    cases hp
    obtain ⟨hleft, hty⟩ := Operator.isInt_ty kind operator ht _
    exact hty.trans (ihl hleft rfl rfl)
  | call kind callee operands fits returns =>
    cases hvs
    rcases hm _ _ callee.function with h | h
    · exact h
    · rw [h] at returns
      cases returns
  | command => cases hvs
  | nil => cases hp
  | cons => cases hp

/-! ## Blocks along a layout -/

section Layout

variable {g : Function} {p : Piece} {ls : List LoopTargets} {μ μ' : Mark}

theorem Assigns.blocks {name : String} {q : Value} {ty : Ty} (h : Assigns g name μ q ty μ') :
    μ'.blocks = μ.blocks ∧ μ'.block = μ.block ∧ μ'.ended = μ.ended ∧ μ'.offset = μ.offset := by
  cases h <;> exact ⟨rfl, rfl, rfl, rfl⟩

theorem Assigns.isInt {name : String} {q : Value} {ty : Ty} (h : Assigns g name μ q ty μ')
    (hs : μ.scope.AllInt) : ty = .i32 ∧ μ'.scope.AllInt := by
  cases h with
  | slot bound => exact ⟨hs.lookup bound, hs⟩
  | promote bound =>
    have hty := hs.lookup bound
    exact ⟨hty, hs.bind name hty⟩

theorem Lays.blocks_le (h : Lays m g p ls μ μ') : μ.blocks ≤ μ'.blocks := by
  induction h with
  | assign _ _ _ target => exact Nat.le_of_eq target.blocks.1.symm
  | loop _ _ _ _ _ _ _ _ ih => exact Nat.le_trans (Nat.le_add_right _ 3) ih
  | ifThen _ _ _ _ _ _ _ _ ih => exact Nat.le_trans (Nat.le_add_right _ 2) ih
  | ifElse _ _ _ _ _ _ _ _ _ _ _ ih₁ ih₂ =>
    exact Nat.le_trans (Nat.le_add_right _ 3) (Nat.le_trans ih₁ ih₂)
  | block _ _ ih => exact ih
  | cons _ _ _ ih₁ ih₂ => exact Nat.le_trans ih₁ ih₂
  | _ => exact Nat.le_refl _

theorem Lays.cursor (h : Lays m g p ls μ μ') :
    μ'.block = μ.block ∨ μ.blocks ≤ μ'.block ∧ μ'.block < μ'.blocks := by
  induction h with
  | assign _ _ _ target => exact .inl target.blocks.2.1
  | loop _ _ _ _ _ _ inside =>
    have hle := inside.blocks_le
    simp only [Mark.head_blocks, Mark.head_block, Mark.after_blocks, Mark.grow_blocks] at hle ⊢
    omega
  | ifThen _ _ _ _ _ _ inside =>
    have hle := inside.blocks_le
    simp only [Mark.head_blocks, Mark.head_block, Mark.after_blocks, Mark.grow_blocks] at hle ⊢
    omega
  | ifElse _ _ _ _ _ _ _ inside _ otherwise =>
    have hle := Nat.le_trans inside.blocks_le otherwise.blocks_le
    simp only [Mark.head_blocks, Mark.head_block, Mark.after_blocks, Mark.grow_blocks] at hle ⊢
    omega
  | block _ _ ih => exact ih
  | cons _ first rest ih₁ ih₂ =>
    have h₁ := first.blocks_le
    have h₂ := rest.blocks_le
    omega
  | _ => exact .inl rfl

theorem Lays.allInt (h : Lays m g p ls μ μ') (hs : μ.scope.AllInt) : μ'.scope.AllInt := by
  induction h with
  | declare _ _ typed sized => exact hs.bind _ (Ty.ofSite_sized typed sized)
  | initialise _ _ typed sized => exact hs.bind _ (Ty.ofSite_sized typed sized)
  | assign _ _ _ target =>
    obtain ⟨hty, hs'⟩ := target.isInt hs
    exact hs'.bind _ hty
  | ifElse _ _ _ _ _ _ _ _ _ _ _ ih₁ ih₂ => exact ih₂ (ih₁ hs)
  | loop _ _ _ _ _ _ _ _ ih => exact ih hs
  | ifThen _ _ _ _ _ _ _ _ ih => exact ih hs
  | block _ _ ih => exact ih hs
  | cons _ _ _ ih₁ ih₂ => exact ih₂ (ih₁ hs)
  | _ => exact hs

/-- Where a terminator comes from: a return stands in the source. -/
inductive Origin (m : Module) (p : Piece) : Terminator → Prop
  | br (j : Nat) : Origin m p (.br j)
  | condBr (v : Value) (j k : Nat) : Origin m p (.condBr v j k)
  | bare {site : Site} (kind : site.kind = .returnStatement)
      (within : .node site [] ∈ p.subtrees) : Origin m p (.ret none)
  | value {site : Site} {t : Tree} {scope : Scope} {r r' : Nat} {c : List Instr} {v : Value}
      (kind : site.kind = .returnStatement) (within : .node site [t] ∈ p.subtrees)
      (allInt : scope.AllInt) (code : Emits m scope (.one t) r c [v] r') :
      Origin m p (.ret (some v))

def Function.ClosedIn (g : Function) (m : Module) (q : Piece) (n j : Nat) : Prop :=
  ∃ k x, g.bodies[j]? = some k ∧ k.terminator = some x ∧ (∀ i ∈ x.successors, i < n) ∧ Origin m q x

def Function.Covers (g : Function) (m : Module) (q : Piece) (n : Nat) (μ μ' : Mark) : Prop :=
  ∀ j, j = μ.block ∨ μ.blocks ≤ j ∧ j < μ'.blocks →
    j = μ'.block ∧ μ'.ended = false ∨ g.ClosedIn m q n j

variable {q : Piece} {n : Nat}

theorem Function.Ends.closedIn {x : Terminator} (h : g.Ends μ x) (hx : Origin m q x)
    (hn : ∀ i ∈ x.successors, i < n) : g.ClosedIn m q n μ.block := by
  obtain ⟨k, hk, -, ht⟩ := h
  exact ⟨k, x, hk, ht, hn, hx⟩

theorem covers_same (hend : μ.ended = true → g.ClosedIn m q n μ.block)
    (hblock : μ'.block = μ.block) (hblocks : μ'.blocks = μ.blocks) (hended : μ'.ended = μ.ended) :
    g.Covers m q n μ μ' := by
  rintro j (rfl | hj)
  · cases he : μ.ended with
    | true => exact .inr (hend he)
    | false => exact .inl ⟨hblock.symm, hended.trans he⟩
  · omega

theorem covers_closed (hclosed : g.ClosedIn m q n μ.block) (hblocks : μ'.blocks = μ.blocks) :
    g.Covers m q n μ μ' := by
  rintro j (rfl | hj)
  · exact .inr hclosed
  · omega

theorem Function.Covers.falls {target : Nat} (h : g.Covers m q n μ μ') (hf : g.Falls μ' target)
    (ht : target < n) {j : Nat} (hj : j = μ.block ∨ μ.blocks ≤ j ∧ j < μ'.blocks) :
    g.ClosedIn m q n j := by
  rcases h j hj with ⟨rfl, he⟩ | hc
  · exact (hf he).closedIn (.br _) (by simpa [Terminator.successors] using ht)
  · exact hc

theorem Function.Covers.trans {μ'' : Mark} (h : g.Covers m q n μ μ') (h' : g.Covers m q n μ' μ'') :
    g.Covers m q n μ μ'' := by
  intro j hj
  by_cases hlt : j < μ'.blocks
  · rcases h j (by omega) with ⟨rfl, -⟩ | hc
    · exact h' _ (.inl rfl)
    · exact .inr hc
  · rcases hj with rfl | hj
    · rcases h _ (.inl rfl) with ⟨he, -⟩ | hc
      · rw [he]
        exact h' _ (.inl rfl)
      · exact .inr hc
    · exact h' j (.inr ⟨by omega, hj.2⟩)

/-- Laying out a piece closes every block that it opens, but for the one where
it leaves the cursor if control goes on from there. -/
theorem Lays.covers (h : Lays m g p ls μ μ') (hs : μ.scope.AllInt)
    (hl : ∀ l ∈ ls, l.onContinue < n ∧ l.onBreak < n) (hq : p.subtrees ⊆ q.subtrees)
    (hn : μ'.blocks ≤ n) (hend : μ.ended = true → g.ClosedIn m q n μ.block) :
    g.Covers m q n μ μ' := by
  induction h with
  | declare => exact covers_same hend rfl rfl rfl
  | initialise => exact covers_same hend rfl rfl rfl
  | assign _ _ _ target =>
    obtain ⟨hblocks, hblock, hended, -⟩ := target.blocks
    exact covers_same hend hblock hblocks hended
  | returnNone kind ends =>
    refine covers_closed (ends.closedIn (.bare kind (hq (Tree.mem_subtrees_self _))) ?_) rfl
    simp [Terminator.successors]
  | returnValue kind code _ ends =>
    have hx := Origin.value kind (hq (Tree.mem_subtrees_self _)) hs code
    exact covers_closed (ends.closedIn hx (by simp [Terminator.successors])) rfl
  | leave _ _ ends =>
    have ht := (hl _ (List.mem_cons_self ..)).2
    exact covers_closed (ends.closedIn (.br _) (by simpa [Terminator.successors] using ht)) rfl
  | again _ _ ends =>
    have ht := (hl _ (List.mem_cons_self ..)).1
    exact covers_closed (ends.closedIn (.br _) (by simpa [Terminator.successors] using ht)) rfl
  | call => exact covers_same hend rfl rfl rfl
  | block _ _ ih => exact ih hs hl (fun _ hc => hq (List.mem_cons_of_mem _ hc)) hn hend
  | nil => exact covers_same hend rfl rfl rfl
  | skip => exact covers_same hend rfl rfl rfl
  | cons _ first rest ih₁ ih₂ =>
    have hle := rest.blocks_le
    have hc := ih₁ hs hl (fun _ hc => hq (Tree.mem_subtreesAll.mpr ⟨_, List.mem_cons_self .., hc⟩))
      (Nat.le_trans hle hn) hend
    refine hc.trans (ih₂ (first.allInt hs) hl (fun _ hc => hq ?_) hn fun he => ?_)
    · exact List.mem_append_right _ hc
    · rcases hc _ first.cursor with ⟨-, he'⟩ | hc
      · rw [he] at he'
        cases he'
      · exact hc
  | @loop site test body ls μ μ₁ c v r _ _ enters _ _ branches inside back ih =>
    have hle : μ.blocks + 3 ≤ μ₁.blocks := inside.blocks_le
    replace hn : μ₁.blocks ≤ n := hn
    have hloop : μ.blocks < n ∧ μ.blocks + 2 < n := by omega
    have hc := ih hs (List.forall_mem_cons.mpr ⟨hloop, hl⟩)
      (fun _ hc => Piece.subtrees_one (by simp) hq (body.subtreesAll_children hc)) hn nofun
    intro j hj
    by_cases hjend : j = μ.blocks + 2
    · exact .inl ⟨hjend, rfl⟩
    refine .inr ?_
    by_cases hjhere : j = μ.block
    · exact hjhere ▸ enters.closedIn (.br _) (by simp [Terminator.successors]; omega)
    by_cases hjtest : j = μ.blocks
    · exact hjtest ▸ branches.closedIn (.condBr _ _ _) (by simp [Terminator.successors]; omega)
    simp only [hjhere, false_or, Mark.head_blocks] at hj
    exact hc.falls back (by omega) (by simp; omega)
  | @ifThen site test yes ls μ μ₁ c v r _ _ _ _ _ branches inside joins ih =>
    have hle : μ.blocks + 2 ≤ μ₁.blocks := inside.blocks_le
    replace hn : μ₁.blocks ≤ n := hn
    have hc := ih hs hl (fun _ hc => Piece.subtrees_one (by simp) hq (yes.subtreesAll_children hc))
      hn nofun
    intro j hj
    by_cases hjend : j = μ.blocks + 1
    · exact .inl ⟨hjend, rfl⟩
    refine .inr ?_
    by_cases hjhere : j = μ.block
    · exact hjhere ▸ branches.closedIn (.condBr _ _ _) (by simp [Terminator.successors]; omega)
    simp only [hjhere, false_or, Mark.head_blocks] at hj
    exact hc.falls joins (by omega) (by simp; omega)
  | @ifElse site test yes no ls μ μ₁ μ₂ c v r _ _ _ _ _ _ branches inside joins otherwise joins'
      ih₁ ih₂ =>
    have hle₁ : μ.blocks + 3 ≤ μ₁.blocks := inside.blocks_le
    have hle₂ : μ₁.blocks ≤ μ₂.blocks := otherwise.blocks_le
    replace hn : μ₂.blocks ≤ n := hn
    have hc₁ := ih₁ hs hl
      (fun _ hc => Piece.subtrees_one (by simp) hq (yes.subtreesAll_children hc)) (by omega) nofun
    have hc₂ := ih₂ (inside.allInt hs) hl
      (fun _ hc => Piece.subtrees_one (by simp) hq (no.subtrees_arm hc)) hn nofun
    intro j hj
    by_cases hjend : j = μ.blocks + 1
    · exact .inl ⟨hjend, rfl⟩
    refine .inr ?_
    by_cases hjhere : j = μ.block
    · exact hjhere ▸ branches.closedIn (.condBr _ _ _) (by simp [Terminator.successors]; omega)
    simp only [hjhere, false_or, Mark.head_blocks] at hj
    by_cases hjyes : j = μ.blocks ∨ μ.blocks + 3 ≤ j ∧ j < μ₁.blocks
    · exact hc₁.falls joins (by omega) hjyes
    · exact hc₂.falls joins' (by omega) (by simp; omega)

end Layout

/-! ## Functions -/

namespace Lower

theorem parameter_ok {t : Tree} {p : Param} (h : parameter t = .ok p) :
    p.name = t.name ∧ p.ty = .i32 := by
  unfold parameter at h
  split at h
  · split at h
    · obtain ⟨ty, hty, h₁⟩ := except_bind_ok.mp h
      split at h₁
      · cases h₁
      · rename_i hvoid
        cases h₁
        exact ⟨rfl, Ty.ofSite_sized hty (by simpa using hvoid)⟩
    · cases h
  · cases h

theorem parameters_ok {ts : List Tree} {ps : List Param} (h : ts.mapM parameter = .ok ps) :
    ps.map Param.name = ts.map Tree.name ∧ ∀ p ∈ ps, p.ty = .i32 := by
  induction ts generalizing ps with
  | nil =>
    cases h
    simp
  | cons t ts ih =>
    rw [List.mapM_cons] at h
    obtain ⟨p, hp, h₁⟩ := except_bind_ok.mp h
    obtain ⟨ps', hps, h₂⟩ := except_bind_ok.mp h₁
    cases h₂
    obtain ⟨hname, hint⟩ := parameter_ok hp
    obtain ⟨hnames, hints⟩ := ih hps
    exact ⟨by simp [hname, hnames], List.forall_mem_cons.mpr ⟨hint, hints⟩⟩

end Lower

theorem Scope.AllInt.parameterScope {scope : Scope} {args : List (String × Value)}
    (h : ∀ a ∈ args, a.2.ty = .i32) : (Lower.parameterScope scope args).AllInt := by
  suffices hfold : ∀ s : Scope, s.AllInt →
      (args.foldl (fun s a => s.bind a.1 (.register a.2)) s).AllInt from hfold _ nofun
  induction args with
  | nil => exact fun s hs => hs
  | cons a args ih =>
    intro s hs
    exact ih (fun b hb => h b (by simp [hb])) _ (hs.bind a.1 (h a (by simp)))

theorem Mark.entry_allInt {constants : List (String × Int)} {sig : Signature}
    (h : ∀ p ∈ sig.params, p.ty = .i32) : (Mark.entry constants sig).scope.AllInt := by
  refine Scope.AllInt.parameterScope fun a ha => ?_
  obtain ⟨⟨p, i⟩, hp, rfl⟩ := List.mem_map.mp ha
  exact h p (List.fst_mem_of_mem_zipIdx hp)

theorem Terminator.returns_default (ret : Ty) :
    (Terminator.ret (Lower.defaultReturn ret)).returns ret = true := by
  unfold Lower.defaultReturn
  split
  · assumption
  · exact beq_self_eq_true ret

theorem Origin.returns {t : Tree} {x : Terminator} {result : Tree} {ts : List Tree} {ret : Ty}
    (h : Origin m (.one t) x) (hm : m.AllInt) (hts : t.children = result :: ts)
    (hret : Ty.ofName? result.name = some ret) (ht : t.returnsAsDeclared = true) :
    x.returns ret = true := by
  have hfits : ∀ c ∈ t.subtrees, c.kind = .returnStatement → c.returnFits ret = true := by
    intro c hc hkind
    simp only [Tree.returnsAsDeclared, hts, List.head?_cons, Option.bind_some, hret] at ht
    simpa [hkind] using List.all_eq_true.mp ht c hc
  cases h with
  | br => rfl
  | condBr => rfl
  | bare kind within =>
    have h := hfits _ within kind
    rcases Ty.ofName?_some hret with ⟨-, rfl⟩ | ⟨-, rfl⟩
    · cases h
    · rfl
  | value kind within hs code =>
    have h := hfits _ within kind
    rcases Ty.ofName?_some hret with ⟨-, rfl⟩ | ⟨-, rfl⟩
    · exact beq_iff_eq.mpr (code.isInt hm hs h)
    · cases h

theorem Module.Compiles.sound {constants : List (String × Int)} {t : Tree} {id : Nat} {g : Function}
    (h : m.Compiles constants t id g) (hm : m.AllInt) {k : Block} (hk : k ∈ g.bodies) :
    ∃ x, k.terminator = some x ∧ (∀ j ∈ x.successors, j < g.bodies.length) ∧
      (t.returnsAsDeclared = true → x.returns g.ret = true) := by
  obtain ⟨result, params, code, hts, μ, hlays, hend, hblocks, -⟩ := h.body
  obtain ⟨_, _, _, hts', -, hret, hparams, -⟩ := Lower.signature_ok h.signature
  obtain ⟨rfl, rfl, rfl⟩ : result = _ ∧ params = _ ∧ code = _ := by simpa [hts] using hts'
  have hcovers := hlays.covers (q := .one t) (n := μ.blocks)
    (Mark.entry_allInt (Lower.parameters_ok hparams).2) nofun ?_ (Nat.le_refl _) nofun
  · obtain ⟨j, hj, rfl⟩ := List.getElem_of_mem hk
    have hgk := List.getElem?_eq_getElem hj
    rcases hcovers j (by simp only [Mark.entry]; omega) with ⟨rfl, he⟩ | ⟨k, x, hk, hx, hn, ho⟩
    · obtain ⟨k, hk, -, hx⟩ := hend he
      obtain rfl : g.bodies[μ.block] = k := by simpa [hgk] using hk
      exact ⟨_, hx, by simp [Terminator.successors], fun _ => Terminator.returns_default _⟩
    · obtain rfl : g.bodies[j] = k := by simpa [hgk] using hk
      exact ⟨x, hx, hblocks ▸ hn, ho.returns hm hts (Ty.ofSite_ok hret).2⟩
  · have hcode := Tree.subtrees_child (c := t) (t := code) (by simp [hts])
    exact fun _ hc => hcode (code.subtreesAll_children hc)

/-! ## Modules -/

theorem Tree.lower_compiles {t : Tree} {j : Nat} {f : Function}
    (h : (t.lower singlePass).result = .ok m) (hf : m.function? j = some f) :
    (∃ constants c, (constants, c) ∈ t.declarations ∧ m.Compiles constants c j f) ∨
      f = .declare j Intrinsic.signature := by
  obtain ⟨-, ids, has, hfrom⟩ := Tree.lower_assembles h
  rcases hfrom j f hf with hj | rfl
  · obtain ⟨cs, c, g, hc, hcomp⟩ := has.declares hj
    obtain rfl : g = f := by simpa [hf] using hcomp.function.symm
    exact .inl ⟨cs, c, hc, hcomp⟩
  · exact .inr rfl

theorem Tree.lower_allInt {t : Tree} (h : (t.lower singlePass).result = .ok m) : m.AllInt := by
  intro j f hf
  rcases Tree.lower_compiles h hf with ⟨cs, c, -, hcomp⟩ | rfl
  · obtain ⟨_, _, _, -, -, hret, -⟩ := Lower.signature_ok hcomp.signature
    exact (Ty.ofName?_some (Ty.ofSite_ok hret).2).imp And.right And.right
  · exact .inl rfl

def Function.Linked (m : Module) (f : Function) : Prop :=
  ∀ (b : Nat) (k : Block), f.bodies[b]? = some k → k.id = b ∧ ∀ i ∈ k.instrs, m.checkCall i = none

def Module.Linked (m : Module) : Prop := ∀ j f, m.function? j = some f → f.Linked m

namespace Function.Linked

variable {m m' : Module} {f : Function}

theorem mono (h : f.Linked m) (hm : m.functions.length ≤ m'.functions.length) : f.Linked m' := by
  intro b k hk
  refine ⟨(h b k hk).1, fun i hi => ?_⟩
  have hcall := (h b k hk).2 i hi
  cases i with
  | call d c args =>
    simp only [Module.checkCall, ite_eq_left_iff, reduceCtorEq, imp_false, Decidable.not_not]
      at hcall ⊢
    omega
  | _ => rfl

theorem append (h : f.Linked m) {i : Instr} (hi : m.checkCall i = none) (b : Nat) :
    (f.append b i).Linked m := by
  intro j k hk
  rw [Function.bodies_append] at hk
  split at hk
  · obtain ⟨l, hl, rfl⟩ := Option.map_eq_some_iff.mp hk
    obtain ⟨hid, hcalls⟩ := h j l hl
    refine ⟨hid, fun i' hi' => ?_⟩
    rcases List.mem_append.mp hi' with hi' | hi'
    · exact hcalls i' hi'
    · exact List.mem_singleton.mp hi' ▸ hi
  · exact h j k hk

theorem close (h : f.Linked m) (b : Nat) (x : Terminator) : (f.close b x).Linked m := by
  intro j k hk
  rw [Function.bodies_close] at hk
  split at hk
  · obtain ⟨l, hl, rfl⟩ := Option.map_eq_some_iff.mp hk
    exact h j l hl
  · exact h j k hk

theorem addBlock (h : f.Linked m) (label : String) : (f.addBlock label).Linked m := by
  intro j k hk
  rw [Function.bodies_addBlock] at hk
  split at hk
  · cases hk
    exact ⟨(‹j = _›).symm, nofun⟩
  · exact h j k hk

end Function.Linked

namespace Module.Linked

theorem set {id : Nat} {f g : Function} (h : m.Linked) (hf : m.function? id = some f)
    (hg : f.Linked m → g.Linked m) : (m.setFunction id g).Linked := by
  have hlen : m.functions.length ≤ (m.setFunction id g).functions.length := by
    simp [Module.setFunction]
  intro j e he
  rw [Module.function?_setFunction hf] at he
  split at he
  · cases he
    exact (hg (h id f hf)).mono hlen
  · exact (h j e he).mono hlen

theorem declare (h : m.Linked) (sig : Signature) : (m.declare sig).Linked := by
  intro j e he
  rw [Module.function?_declare] at he
  split at he
  · cases he
    exact nofun
  · exact (h j e he).mono (by simp [Module.declare])

theorem step {n : Nat} {s t : LowerState} (h : s.module.Linked) (hstep : Lower.Step n s t) :
    t.module.Linked := by
  cases hstep with
  | emission hstep =>
    cases hstep with
    | intrinsic => exact h.declare _
    | define hat _ _ _ known => exact h.set hat.found fun hf => Function.Linked.append hf known _
    | perform hat _ _ known => exact h.set hat.found fun hf => hf.append known _
    | _ => exact h
  | block label hin => exact h.set hin.found fun hf => hf.addBlock label
  | slot _ hin => exact h.set hin.found fun hf => hf
  | burn hin => exact h.set hin.found fun hf => hf
  | seed _ _ hin => exact h.set hin.found fun hf => hf
  | close hat => exact h.set hat.found fun hf => hf.close _ _
  | _ => exact h

end Module.Linked

theorem Lower.Changes.linked {m m' : Module} (h : Changes m m') (hm : m.Linked) : m'.Linked := by
  induction h with
  | refl => exact hm
  | tail _ hchange ih =>
    cases hchange with
    | declare sig => exact ih.declare sig
    | enter hf => exact ih.set hf fun hf => hf.addBlock "entry"
    | step _ h => exact ih.step h

/-! ## Verification -/

theorem Tree.lower_linked {t : Tree} (h : (t.lower singlePass).result = .ok m) : m.Linked :=
  (Tree.lower_changes h).linked nofun

theorem Function.mem_blocks {f : Function} {b : Block} (h : b ∈ f.blocks) :
    ∃ k ∈ f.bodies, b.id = k.id ∧ b.terminator = k.terminator ∧
      ∀ i ∈ b.instrs, i ∈ f.prologue ∨ i ∈ k.instrs := by
  unfold Function.blocks at h
  split at h
  · cases h
  · rename_i k ks hbodies
    rw [hbodies]
    rcases List.mem_cons.mp h with rfl | h
    · exact ⟨k, List.mem_cons_self .., rfl, rfl, fun i hi => List.mem_append.mp hi⟩
    · exact ⟨b, List.mem_cons_of_mem _ h, rfl, rfl, fun i hi => .inr hi⟩

theorem Function.prologue_checkCall (m : Module) {f : Function} {i : Instr} (h : i ∈ f.prologue) :
    m.checkCall i = none := by
  rcases List.mem_append.mp h with h | h
  · obtain ⟨s, -, rfl⟩ := List.mem_map.mp h
    rfl
  · obtain ⟨s, -, rfl⟩ := List.mem_map.mp h
    rfl

theorem Function.mem_bodies {f : Function} {k : Block} (h : k ∈ f.bodies) :
    ∃ b ∈ f.blocks, b.terminator = k.terminator := by
  unfold Function.blocks
  cases hb : f.bodies with
  | nil =>
    rw [hb] at h
    cases h
  | cons b bs =>
    rw [hb] at h
    rcases List.mem_cons.mp h with rfl | h
    · exact ⟨_, List.mem_cons_self .., rfl⟩
    · exact ⟨k, List.mem_cons_of_mem _ h, rfl⟩

theorem Function.Linked.mem_blocks {f : Function} (h : f.Linked m) {j : Nat}
    (hj : j < f.bodies.length) : ∃ k ∈ f.blocks, k.id = j := by
  have hid := (h j f.bodies[j] (List.getElem?_eq_getElem hj)).1
  unfold Function.blocks
  split
  · rename_i hnil
    simp [hnil] at hj
  · rename_i k ks hbodies
    cases j with
    | zero => exact ⟨_, List.mem_cons_self .., by simpa [hbodies] using hid⟩
    | succ j =>
      simp only [hbodies, List.getElem_cons_succ] at hid
      exact ⟨_, List.mem_cons_of_mem _ (List.getElem_mem _), hid⟩

/-- What a block needs to pass verification. Whether its return fits may depend
on something. -/
structure Module.Admits (m : Module) (f : Function) (fits : Prop) (b : Block) : Prop where
  ended : ∃ x, b.terminator = some x ∧ (∀ j ∈ x.successors, j < f.bodies.length) ∧
    (fits → x.returns f.ret = true)
  calls : ∀ i ∈ b.instrs, m.checkCall i = none

theorem Module.Admits.checkBlock {f : Function} {fits : Prop} {b : Block} (h : m.Admits f fits b) :
    (fits → m.checkBlock f b = none) ∧
      ∀ v, m.checkBlock f b = some v → ∃ got expected, v = .returnTypeMismatch got expected := by
  obtain ⟨x, hx, htargets, hreturns⟩ := h.ended
  have hcalls : b.instrs.findSome? m.checkCall = none := List.findSome?_eq_none_iff.mpr h.calls
  have hfind : (x.successors.find? fun k => f.bodies.length ≤ k) = none := by
    simpa using htargets
  simp only [Module.checkBlock, Module.checkTerminator, hx, hfind, hcalls, Option.or_none]
  refine ⟨fun hfits => if_pos (hreturns hfits), fun v hv => ?_⟩
  split at hv
  · cases hv
  · cases hv
    exact ⟨_, _, rfl⟩

theorem Tree.lower_admits {t : Tree} {j : Nat} {f : Function} {b : Block}
    (h : (t.lower singlePass).result = .ok m) (hf : m.function? j = some f) (hb : b ∈ f.blocks) :
    m.Admits f
      (∀ c ∈ t.children, c.kind = .functionDeclaration → c.returnsAsDeclared = true) b := by
  obtain ⟨k, hk, -, hterm, hinstrs⟩ := Function.mem_blocks hb
  have hlinked := Tree.lower_linked h j f hf
  refine ⟨?_, fun i hi => ?_⟩
  · rw [hterm]
    rcases Tree.lower_compiles h hf with ⟨cs, c, hc, hcomp⟩ | rfl
    · obtain ⟨x, hx, htargets, hreturns⟩ := hcomp.sound (Tree.lower_allInt h) hk
      have hc := Tree.mem_of_declarationsFrom hc
      exact ⟨x, hx, htargets, fun hfits => hreturns (hfits c hc hcomp.kind)⟩
    · cases hk
  · rcases hinstrs i hi with hi | hi
    · exact Function.prologue_checkCall m hi
    · obtain ⟨b', hb', rfl⟩ := List.getElem_of_mem hk
      exact (hlinked b' _ (List.getElem?_eq_getElem hb')).2 i hi

theorem Module.verify_some {e : VerifyError} (h : m.verify = some e) :
    ∃ j f, m.function? j = some f ∧ ∃ b ∈ f.blocks, m.checkBlock f b = some e.violation := by
  obtain ⟨f, hf, hverify⟩ := List.exists_of_findSome?_eq_some h
  obtain ⟨b, hb, hcheck⟩ := List.exists_of_findSome?_eq_some hverify
  obtain ⟨v, hv, rfl⟩ := Option.map_eq_some_iff.mp hcheck
  obtain ⟨j, hj, rfl⟩ := List.getElem_of_mem hf
  exact ⟨j, _, List.getElem?_eq_getElem hj, b, hb, hv⟩

/-- A lowered module is structurally sound. Its blocks all end, their targets
are blocks of the same function, and calls name functions of the module. So the
verifier can object to the type of a return only, and it does not if the
returns in the source fit their declarations. -/
theorem Tree.lower_sound {singlePass : Bool} {t : Tree} {m : Module}
    (h : (t.lower singlePass).result = .ok m) :
    (∀ f ∈ m.functions, ∀ b ∈ f.blocks,
      (∃ x, b.terminator = some x ∧ ∀ j ∈ x.successors, ∃ k ∈ f.blocks, k.id = j) ∧
        ∀ d c args, .call d c args ∈ b.instrs → ∃ g ∈ m.functions, g.id = c) ∧
    (∀ e, m.verify = some e → ∃ got expected, e.violation = .returnTypeMismatch got expected) ∧
    ((∀ c ∈ t.children, c.kind = .functionDeclaration → c.returnsAsDeclared = true) →
      m.verify = none) := by
  refine ⟨fun f hf b hb => ?_, fun e he => ?_, fun hfits => ?_⟩
  · obtain ⟨j, hj, rfl⟩ := List.getElem_of_mem hf
    have hf := List.getElem?_eq_getElem hj
    have hadmits := Tree.lower_admits h hf hb
    obtain ⟨x, hx, htargets, -⟩ := hadmits.ended
    refine ⟨⟨x, hx, fun i hi => ?_⟩, fun d c args hc => ?_⟩
    · exact (Tree.lower_linked h j _ hf).mem_blocks (htargets i hi)
    · have hcall := hadmits.calls _ hc
      simp only [Module.checkCall, ite_eq_left_iff, reduceCtorEq, imp_false,
        Decidable.not_not] at hcall
      exact ⟨m.functions[c], List.getElem_mem _,
        Tree.lower_numbered h c _ (List.getElem?_eq_getElem hcall)⟩
  · obtain ⟨j, f, hf, b, hb, hcheck⟩ := Module.verify_some he
    exact (Tree.lower_admits h hf hb).checkBlock.2 _ hcheck
  · rw [Option.eq_none_iff_forall_ne_some]
    intro e he
    obtain ⟨j, f, hf, b, hb, hcheck⟩ := Module.verify_some he
    rw [(Tree.lower_admits h hf hb).checkBlock.1 hfits] at hcheck
    cases hcheck

/-- `int f(int x) { while (x) { if (x == 3) { break; } else { return f(x); } } }` -/
def Tree.search : Tree :=
  bare .program "" [bare .functionDeclaration "f"
    [bare .identifier "int" [],
      bare .parameters "" [bare .variableDeclaration "x" [bare .identifier "int" []]],
      bare .block "" [bare .whileStatement ""
        [bare .identifier "x" [],
          bare .block "" [bare .statement "if"
            [bare .binaryExpression "==" [bare .identifier "x" [], bare .literal "3" []],
              bare .block "" [bare .statement "break" []],
              bare .block "" [bare .returnStatement ""
                [bare .functionCall "f" [bare .identifier "x" []]]]]]]]]]

theorem Tree.search_sound :
    (∀ c ∈ Tree.search.children, c.kind = .functionDeclaration → c.returnsAsDeclared = true) ∧
      ∃ m, (Tree.search.lower false).result = .ok m ∧ m.verify = none := by
  have hfits : ∀ c ∈ Tree.search.children, c.kind = .functionDeclaration →
      c.returnsAsDeclared = true := by decide +kernel
  obtain ⟨m, hm⟩ : ∃ m, (Tree.search.lower false).result = .ok m :=
    Lower.except_of_isOk (by decide +kernel)
  exact ⟨hfits, m, hm, (Tree.lower_sound hm).2.2 hfits⟩

end TreeFlow
