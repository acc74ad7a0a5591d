import Mathlib.Data.List.Forall2
import TreeFlow.Proofs.Code

/-!
# Expressions in postorder

The code of an expression is the expression written in postorder, from left to
right. A name that is bound to a slot becomes a load, an operator an instruction
of its own and a call a call. Everything else leaves no code. Each instruction
reads what its operands left, and it defines the next register. A call of the
intrinsic takes the next format before its arguments are written down, so that
formats are numbered in preorder.
-/

set_option autoImplicit false

namespace TreeFlow

/-! ## Postorder -/

namespace Tree

mutual

/-- The sites of a tree, each behind the sites of its children. -/
def postorder : Tree → List Site
  | .node site ts => postorderAll ts ++ [site]

def postorderAll : List Tree → List Site
  | [] => []
  | t :: ts => postorder t ++ postorderAll ts

end

end Tree

def Piece.postorder : Piece → List Site
  | .one t => t.postorder
  | .many ts => Tree.postorderAll ts

/-- A node of an expression leaves an instruction: a name that is bound to a slot, an
operator or a call. -/
def Site.emits (scope : Scope) (site : Site) : Bool :=
  match site.kind, scope.lookup site.name with
  | .identifier, some (.stored (.slot _ _)) => true
  | .binaryExpression, _ | .functionCall, _ => true
  | _, _ => false

/-- The instruction that a node leaves, up to its register and its operands. -/
inductive Site.Spells (m : Module) (scope : Scope) (site : Site) : Instr → Prop
  | load {d : Nat} {ty : Ty} {p : Value} (kind : site.kind = .identifier)
      (bound : scope.lookup site.name = some (.stored (.slot p ty))) :
      Spells m scope site (.load d ty p)
  | operator {d : Nat} {op : Operator} {l r : Value} (kind : site.kind = .binaryExpression)
      (operator : Operator.ofSite site = .ok op) : Spells m scope site (op.instr d l r)
  | call {d : Option Nat} {id : Nat} {args : List Value} (kind : site.kind = .functionCall)
      (found : m.find? site.name = some id) : Spells m scope site (.call d id args)

/-! ## Linear code -/

structure Tally where
  registers : Nat
  formats : Nat
  deriving DecidableEq, Repr

namespace Tally

def next (τ : Tally) : Tally := { τ with registers := τ.registers + 1 }

def addFormats (τ : Tally) (n : Nat) : Tally := { τ with formats := τ.formats + n }

end Tally

/-- What stands in front of the arguments of a call by a name: the next format, if the
call is one of the intrinsic. -/
def Signature.formatOf (sig : Signature) (name : String) (format : Nat) : List Value :=
  if sig.variadic && name == Intrinsic.name then [Module.address format] else []

/-- The code of an expression with the values that it leaves, from one tally to
another. The operands of an instruction are the values of the children. -/
inductive Linear (m : Module) (scope : Scope) :
    Piece → Tally → List Instr → List Value → Tally → Prop
  | literal {site : Site} {n : Int} (kind : site.kind = .literal)
      (value : site.literal = .ok n) (τ : Tally) :
      Linear m scope (.one (.node site [])) τ [] [.int n] τ
  | register {site : Site} {v : Value} (kind : site.kind = .identifier)
      (bound : scope.lookup site.name = some (.stored (.register v))) (τ : Tally) :
      Linear m scope (.one (.node site [])) τ [] [v] τ
  | constant {site : Site} {n : Int} (kind : site.kind = .identifier)
      (bound : scope.lookup site.name = some (.constant n)) (τ : Tally) :
      Linear m scope (.one (.node site [])) τ [] [.int n] τ
  | slot {site : Site} {p : Value} {ty : Ty} (kind : site.kind = .identifier)
      (bound : scope.lookup site.name = some (.stored (.slot p ty))) (τ : Tally) :
      Linear m scope (.one (.node site [])) τ [.load τ.registers ty p] [.reg τ.registers ty] τ.next
  | binary {site : Site} {a b : Tree} {op : Operator} {τ τ₁ τ₂ : Tally} {c₁ c₂ : List Instr}
      {u v : Value} (kind : site.kind = .binaryExpression)
      (operator : Operator.ofSite site = .ok op)
      (left : Linear m scope (.one a) τ c₁ [u] τ₁) (right : Linear m scope (.one b) τ₁ c₂ [v] τ₂) :
      Linear m scope (.one (.node site [a, b])) τ (c₁ ++ c₂ ++ [op.instr τ₂.registers u v])
        [.reg τ₂.registers (op.ty u)] τ₂.next
  | call {site : Site} {ts : List Tree} {id : Nat} {f : Function} {τ τ₁ : Tally} {c : List Instr}
      {args : List Value} (kind : site.kind = .functionCall)
      (callee : m.Reaches site.name id f (f.formatOf site.name τ.formats))
      (operands : Linear m scope (.many ts)
        (τ.addFormats (f.formatOf site.name τ.formats).length) c args τ₁) :
      Linear m scope (.one (.node site ts)) τ
        (c ++ [.call (some τ₁.registers) id (f.formatOf site.name τ.formats ++ args)])
        [.reg τ₁.registers f.ret] τ₁.next
  | nil (τ : Tally) : Linear m scope (.many []) τ [] [] τ
  | cons {t : Tree} {ts : List Tree} {τ τ₁ τ₂ : Tally} {c₁ c₂ : List Instr} {v : Value}
      {vs : List Value} (head : Linear m scope (.one t) τ c₁ [v] τ₁)
      (tail : Linear m scope (.many ts) τ₁ c₂ vs τ₂) :
      Linear m scope (.many (t :: ts)) τ (c₁ ++ c₂) (v :: vs) τ₂

namespace Linear

variable {m : Module} {scope : Scope} {p : Piece} {τ τ' τ'' : Tally} {c c' : List Instr}
  {vs vs' : List Value}

theorem unique (h : Linear m scope p τ c vs τ') (h' : Linear m scope p τ c' vs' τ'') :
    c' = c ∧ vs' = vs ∧ τ'' = τ' := by
  induction h generalizing c' vs' τ'' with
  | literal kind value => cases h' <;> simp_all
  | register kind bound => cases h' <;> simp_all
  | constant kind bound => cases h' <;> simp_all
  | slot kind bound => cases h' <;> simp_all
  | binary kind operator _ _ ihl ihr =>
    cases h' with
    | binary kind' operator' left right =>
      obtain ⟨rfl, hu, rfl⟩ := ihl left
      obtain ⟨rfl, hv, rfl⟩ := ihr right
      cases hu
      cases hv
      obtain rfl := Except.ok.inj (operator.symm.trans operator')
      exact ⟨rfl, rfl, rfl⟩
    | call kind' => simp_all
  | call kind callee _ ih =>
    cases h' with
    | call kind' callee' operands =>
      obtain rfl := Option.some.inj (callee.found.symm.trans callee'.found)
      obtain rfl := Option.some.inj (callee.function.symm.trans callee'.function)
      obtain ⟨rfl, rfl, rfl⟩ := ih operands
      exact ⟨rfl, rfl, rfl⟩
    | _ => simp_all
  | nil =>
    cases h'
    exact ⟨rfl, rfl, rfl⟩
  | cons _ _ ihh iht =>
    cases h' with
    | cons head tail =>
      obtain ⟨rfl, hv, rfl⟩ := ihh head
      obtain ⟨rfl, rfl, rfl⟩ := iht tail
      cases hv
      exact ⟨rfl, rfl, rfl⟩

theorem registers (h : Linear m scope p τ c vs τ') :
    τ'.registers = τ.registers + c.length := by
  induction h with
  | slot => rfl
  | binary _ _ _ _ ihl ihr =>
    simp only [Tally.next, List.length_append, List.length_singleton, ihr, ihl]
    omega
  | call _ _ _ ih =>
    simp only [Tally.next, List.length_append, List.length_singleton, ih, Tally.addFormats]
    omega
  | cons _ _ ihh iht =>
    rw [List.length_append, iht, ihh]
    omega
  | _ => rfl

theorem dests (h : Linear m scope p τ c vs τ') :
    c.map Instr.dest? = (List.range' τ.registers c.length).map some := by
  -- Code is followed by code that starts with the next register.
  have hjoin : ∀ {r : Nat} {c₁ c₂ : List Instr},
      c₁.map Instr.dest? = (List.range' r c₁.length).map some →
      c₂.map Instr.dest? = (List.range' (r + c₁.length) c₂.length).map some →
      (c₁ ++ c₂).map Instr.dest? = (List.range' r (c₁ ++ c₂).length).map some := by
    intro r c₁ c₂ h₁ h₂
    rw [List.map_append, h₁, h₂, ← List.map_append, List.length_append, List.range'_append_1]
  induction h with
  | slot => rfl
  | binary _ _ left right ihl ihr =>
    refine hjoin (hjoin ihl (left.registers ▸ ihr)) ?_
    rw [List.length_append, ← Nat.add_assoc, ← left.registers, ← right.registers]
    exact congrArg (fun d => [d]) (Operator.dest_instr _ _ _ _)
  | call _ _ operands ih =>
    refine hjoin ih ?_
    have hr := operands.registers
    simp only [Tally.addFormats] at hr
    rw [← hr]
    rfl
  | cons head _ ihh iht => exact hjoin ihh (head.registers ▸ iht)
  | _ => rfl

/-- The instructions are those of the nodes that leave one, in postorder. -/
theorem postorder (h : Linear m scope p τ c vs τ') :
    List.Forall₂ (Site.Spells m scope) (p.postorder.filter (Site.emits scope)) c := by
  induction h with
  | @literal site _ kind =>
    have hsilent : site.emits scope = false := by simp [Site.emits, kind]
    simp [Piece.postorder, Tree.postorder, Tree.postorderAll, hsilent]
  | @register site _ kind bound | @constant site _ kind bound =>
    have hsilent : site.emits scope = false := by simp [Site.emits, kind, bound]
    simp [Piece.postorder, Tree.postorder, Tree.postorderAll, hsilent]
  | @slot site _ _ kind bound =>
    have hemits : site.emits scope = true := by simp [Site.emits, kind, bound]
    simpa [Piece.postorder, Tree.postorder, Tree.postorderAll, hemits] using .load kind bound
  | @binary site a b _ _ _ _ _ _ _ _ kind operator _ _ ihl ihr =>
    have hemits : site.emits scope = true := by simp [Site.emits, kind]
    have hsites : (Piece.one (.node site [a, b])).postorder =
        (Piece.one a).postorder ++ (Piece.one b).postorder ++ [site] := by
      simp [Piece.postorder, Tree.postorder, Tree.postorderAll]
    rw [hsites, List.filter_append, List.filter_append, List.filter_cons_of_pos hemits]
    exact List.rel_append (List.rel_append ihl ihr) (.cons (.operator kind operator) .nil)
  | @call site ts _ _ _ _ _ _ kind callee _ ih =>
    have hemits : site.emits scope = true := by simp [Site.emits, kind]
    have hsites : (Piece.one (.node site ts)).postorder =
        (Piece.many ts).postorder ++ [site] := by
      simp [Piece.postorder, Tree.postorder]
    rw [hsites, List.filter_append, List.filter_cons_of_pos hemits]
    exact List.rel_append ih (.cons (.call kind callee.found) .nil)
  | nil => exact .nil
  | @cons t ts _ _ _ _ _ _ _ _ _ ihh iht =>
    have hsites : (Piece.many (t :: ts)).postorder =
        (Piece.one t).postorder ++ (Piece.many ts).postorder := by
      simp [Piece.postorder, Tree.postorderAll]
    rw [hsites, List.filter_append]
    exact List.rel_append ihh iht

end Linear

namespace Lower

variable {α : Type} {s t u : LowerState} {id b : Nat} {f : Function} {k : Block}

/-! ## Formats -/

theorem inBlock_globals {act : Nat → Build α} {a : α} (h : inBlock act s = .ok a t) :
    t.module.globals = s.module.globals := by
  obtain ⟨id, f, b, g, -, -, -, rfl⟩ := inBlock_ok.mp h
  rfl

theorem operate_globals {site : Site} {op : Operator} {l r v : Value}
    (h : operate site op l r s = .ok v t) : t.module.globals = s.module.globals := by
  unfold operate at h
  split at h
  · cases op <;> exact inBlock_globals h
  · cases h

theorem call_globals {j : Nat} {args : List Value} {out : Option Value}
    (h : call j args s = .ok out t) : t.module.globals = s.module.globals := by
  unfold call at h
  rw [get_bind] at h
  cases hg : s.module.function? j with
  | none =>
    rw [hg] at h
    cases h
  | some g =>
    rw [hg] at h
    exact inBlock_globals h

theorem findCallee_globals {site : Site} {j : Nat} (h : findCallee site s = .ok j t) :
    t.module.globals = s.module.globals := by
  cases hf : s.module.find? site.name with
  | some i =>
    rw [findCallee_of_some hf] at h
    cases h
    rfl
  | none =>
    by_cases hn : site.name = Intrinsic.name
    · rw [findCallee_of_intrinsic hf hn] at h
      cases h
      rfl
    · rw [findCallee_of_none hf hn] at h
      cases h

theorem callee_lead {site : Site} {n : Nat} {c : Callee} {g : Function}
    (h : callee site n s = .ok c t) (hg : t.module.function? c.id = some g) :
    c.leading = g.formatOf site.name s.module.globals.length ∧
      t.module.globals.length = s.module.globals.length + c.leading.length := by
  obtain ⟨j, u, hj, h'⟩ := bind_ok.mp h
  rw [get_bind] at h'
  cases hu : u.module.function? j with
  | none =>
    rw [hu] at h'
    cases h'
  | some g' =>
    cases hi : g'.variadic && site.name == Intrinsic.name with
    | true =>
      rw [callee_of_intrinsic hj hu hi] at h
      split at h
      · cases h
        obtain rfl := Option.some.inj (hu.symm.trans hg)
        rw [Signature.formatOf, if_pos hi, ← findCallee_globals hj]
        exact ⟨rfl, List.length_append⟩
      · cases h
    | false =>
      rw [callee_of_plain hj hu hi] at h
      split at h
      · cases h
        obtain rfl := Option.some.inj (hu.symm.trans hg)
        rw [Signature.formatOf, if_neg (by simp [hi]), findCallee_globals hj]
        exact ⟨rfl, rfl⟩
      · cases h

/-! ## Runs -/

def tally (f : Function) (s : LowerState) : Tally := ⟨f.registers, s.module.globals.length⟩

def ExpressionLinear (t : Tree) : Prop :=
  ∀ {s u : LowerState} {id b : Nat} {f : Function} {k : Block} {v : Value}, s.At id f b k →
    expression t s = .ok v u → ∃ code r, Emitted id f b k s u code r ∧
      ∀ m, u.module.Extends m →
        Linear m s.scope (.one t) (tally f s) code [v] (tally (f.emit b code r) u)

theorem arguments_linear {ts : List Tree} (ih : ∀ t ∈ ts, ExpressionLinear t) {c : Callee}
    {args all : List Value} (h : s.At id f b k) (hr : arguments c args ts s = .ok all t) :
    ∃ code vs r, all = args ++ vs ∧ Emitted id f b k s t code r ∧
      ∀ m, t.module.Extends m →
        Linear m s.scope (.many ts) (tally f s) code vs (tally (f.emit b code r) t) := by
  induction ts generalizing s f k args with
  | nil =>
    rw [arguments] at hr
    cases hr
    refine ⟨[], [], f.registers, by simp, .refl h ⟨rfl, rfl, rfl, rfl, rfl⟩, fun m _ => ?_⟩
    exact .nil _
  | cons e es ihs =>
    rw [arguments] at hr
    obtain ⟨v, u, hv, hr₁⟩ := bind_ok.mp hr
    obtain ⟨c₁, r₁, he₁, hc₁⟩ := ih e (by simp) h hv
    obtain ⟨x, w, hw, hr₂⟩ := bind_ok.mp hr₁
    obtain ⟨-, rfl⟩ := lift_ok.mp hw
    obtain ⟨c₂, vs, r₂, rfl, he₂, hc₂⟩ := ihs (fun t ht => ih t (by simp [ht])) he₁.here hr₂
    have hext : w.module.Extends t.module :=
      Emitted.module he₁.here (emitting_arguments (fun t _ => emitting_expression t) c _) hr₂
    refine ⟨c₁ ++ c₂, v :: vs, r₂, by simp, he₁.trans he₂, fun m hm => ?_⟩
    have htail := hc₂ m hm
    rw [he₁.scope] at htail
    exact .cons (hc₁ m (hext.trans hm)) htail

theorem functionCall_linear {site : Site} {ts : List Tree} (hkind : site.kind = .functionCall)
    (ih : ∀ t ∈ ts, ExpressionLinear t) {v : Value} (h : s.At id f b k)
    (hr : functionCall (.node site ts) s = .ok (some v) t) :
    ∃ code r, Emitted id f b k s t code r ∧
      ∀ m, t.module.Extends m →
        Linear m s.scope (.one (.node site ts)) (tally f s) code [v]
          (tally (f.emit b code r) t) := by
  obtain ⟨c, u, hu, hr₁⟩ := bind_ok.mp hr
  obtain ⟨he, g, hloc⟩ := callee_emits h hu
  obtain ⟨hlead, hformats⟩ := callee_lead hu hloc.reaches.function
  obtain ⟨args, w, hw, hr₂⟩ := bind_ok.mp hr₁
  have hat := he.here
  rw [emit_nil, List.append_nil] at hat
  obtain ⟨code, vs, r, rfl, he₁, hc₁⟩ := arguments_linear ih hat hw
  have hext : u.module.Extends w.module :=
    Emitted.module hat (emitting_arguments (fun t _ => emitting_expression t) c _) hw
  have hext' : w.module.Extends t.module := Emitted.module he₁.here (emitting_call _ _) hr₂
  obtain ⟨g', hg', hgg⟩ := hext.functions _ _ hloc.reaches.function
  have he₀ : Emitted id f b k s w code r :=
    ⟨he₁.here, he₁.scope.trans he.scope, he₁.loops.trans he.loops⟩
  rcases call_emits he₁.here hg' hr₂ with ⟨-, hnone, -⟩ | ⟨-, hv, he₂⟩
  · cases hnone
  · cases hv
    refine ⟨_, _, he₀.trans he₂, fun m hm => ?_⟩
    -- The callee keeps its signature in every later module.
    obtain ⟨g₀, hreach, hsame⟩ := hloc.reaches.mono (hext.trans (hext'.trans hm))
    have hlead₀ : c.leading = g₀.formatOf site.name (tally f s).formats := by
      rw [hsame]
      exact hlead
    have hstart : tally f u =
        (tally f s).addFormats (g₀.formatOf site.name (tally f s).formats).length := by
      rw [← hlead₀, tally, hformats]
      rfl
    have hargs := hc₁ m (hext'.trans hm)
    rw [he.scope, hstart] at hargs
    rw [hlead₀] at hreach
    have hcall := Linear.call hkind hreach hargs
    have hret : g₀.ret = g'.ret := congrArg Signature.ret (hsame.trans hgg.signature.symm)
    rw [← hlead₀, hret] at hcall
    have hend : tally (f.emit b (code ++ [.call (some r) c.id (c.leading ++ vs)]) (r + 1)) t =
        (tally (f.emit b code r) w).next := by
      rw [tally, call_globals hr₂]
      rfl
    exact hend ▸ hcall

theorem name_linear {site : Site} (hkind : site.kind = .identifier) {v : Value}
    (h : s.At id f b k) (hr : name site s = .ok v t) :
    ∃ code r, Emitted id f b k s t code r ∧
      ∀ m, Linear m s.scope (.one (.node site [])) (tally f s) code [v]
        (tally (f.emit b code r) t) := by
  rw [name_run] at hr
  cases hl : s.scope.lookup site.name with
  | none =>
    rw [hl] at hr
    cases hr
  | some binding =>
    rw [hl] at hr
    cases binding with
    | constant n =>
      cases hr
      exact ⟨[], _, .refl h ⟨rfl, rfl, rfl, rfl, rfl⟩, fun m => .constant hkind hl _⟩
    | stored storage =>
      cases storage with
      | register w =>
        cases hr
        exact ⟨[], _, .refl h ⟨rfl, rfl, rfl, rfl, rfl⟩, fun m => .register hkind hl _⟩
      | slot p ty =>
        obtain ⟨rfl, he⟩ := Emitted.define h hr
        refine ⟨_, _, he, fun m => ?_⟩
        rw [tally, tally, inBlock_globals hr]
        exact .slot hkind hl _

theorem expression_writes (t : Tree) : ExpressionLinear t := by
  induction t using Tree.induct with
  | node site ts ih =>
    intro s u id b f k v h hr
    obtain ⟨act, hform, heq⟩ := expression_form site ts
    rw [heq] at hr
    obtain ⟨-, w, hact, rfl⟩ := nested_ok.mp hr
    replace h : (deeper s).At id f b k := ⟨⟨h.function, h.found⟩, h.cursor, h.block⟩
    suffices hs : ∃ code r, Emitted id f b k (deeper s) w code r ∧
        ∀ m, w.module.Extends m → Linear m s.scope (.one (.node site ts)) (tally f s) code [v]
          (tally (f.emit b code r) w) by
      obtain ⟨code, r, he, hc⟩ := hs
      exact ⟨code, r, he.nested, hc⟩
    cases hform with
    | literal hkind =>
      obtain ⟨hlit, rfl⟩ := lift_ok.mp hact
      cases hn : site.literal with
      | error e =>
        rw [hn] at hlit
        cases hlit
      | ok n =>
        rw [hn] at hlit
        cases hlit
        exact ⟨[], _, .refl h ⟨rfl, rfl, rfl, rfl, rfl⟩, fun m _ => .literal hkind hn _⟩
    | name hkind =>
      obtain ⟨code, r, he, hc⟩ := name_linear hkind h hact
      exact ⟨code, r, he, fun m _ => hc m⟩
    | binary hkind l r =>
      obtain ⟨op, x, hx, hact₁⟩ := bind_ok.mp hact
      obtain ⟨hop, rfl⟩ := lift_ok.mp hx
      obtain ⟨a, y, ha, hact₂⟩ := bind_ok.mp hact₁
      obtain ⟨c₁, r₁, he₁, hc₁⟩ := ih l (by simp) h ha
      obtain ⟨c, z, hc, hact₃⟩ := bind_ok.mp hact₂
      obtain ⟨c₂, r₂, he₂, hc₂⟩ := ih r (by simp) he₁.here hc
      obtain ⟨-, rfl, he₃⟩ := operate_emits he₂.here hact₃
      have hx₂ := Emitted.module he₁.here (emitting_expression r) hc
      have hx₃ := Emitted.module he₂.here (emitting_operate site op a c) hact₃
      refine ⟨_, _, he₁.trans (he₂.trans he₃), fun m hm => ?_⟩
      have hright := hc₂ m (hx₃.trans hm)
      rw [he₁.scope] at hright
      rw [← List.append_assoc, tally, tally, operate_globals hact₃]
      exact .binary hkind hop (hc₁ m (hx₂.trans (hx₃.trans hm))) hright
    | call hkind =>
      rw [callValue_eq] at hact
      obtain ⟨out, x, hout, hact₁⟩ := bind_ok.mp hact
      cases out with
      | none => cases hact₁
      | some a =>
        cases hact₁
        exact functionCall_linear hkind ih h hout
    | refused _ c _ => cases hact

/-- The code that an expression leaves behind in the block under the cursor is the
expression in postorder: the one code of its value, one instruction for each node that
leaves one, with one register after the other. -/
theorem expression_linear {t : Tree} {v : Value} (here : s.At id f b k)
    (h : expression t s = .ok v u) :
    ∃ code : List Instr,
      u.At id (f.emit b code (f.registers + code.length)) b
          { k with instrs := k.instrs ++ code } ∧
      Linear u.module s.scope (.one t) ⟨f.registers, s.module.globals.length⟩ code [v]
          ⟨f.registers + code.length, u.module.globals.length⟩ ∧
      (∀ code' vs τ, Linear u.module s.scope (.one t) ⟨f.registers, s.module.globals.length⟩
          code' vs τ → code' = code ∧ vs = [v]) ∧
      List.Forall₂ (Site.Spells u.module s.scope) (t.postorder.filter (Site.emits s.scope)) code ∧
      code.map Instr.dest? = (List.range' f.registers code.length).map some := by
  obtain ⟨code, r, hemitted, hcode⟩ := expression_writes t here h
  have hlinear := hcode u.module (.refl u.module)
  obtain rfl : r = f.registers + code.length := hlinear.registers
  refine ⟨code, hemitted.here, hlinear, fun code' vs τ h' => ?_, hlinear.postorder, hlinear.dests⟩
  obtain ⟨hc, hvs, -⟩ := hlinear.unique h'
  exact ⟨hc, hvs⟩

def midway : LowerState :=
  let entry : Block := ⟨0, "entry", [], none⟩
  let f : Function :=
    { name := "f", ret := .i32, params := [⟨"p", .i32⟩], variadic := false, id := 0,
      slots := [⟨1, .i32⟩], seeds := [], bodies := [entry], registers := 2 }
  { module := ⟨none, [f], []⟩
    scope := ⟨[("x", .slot (.reg 1 (.ptr .i32)) .i32), ("p", .register (.reg 0 .i32))], [("k", 7)]⟩
    registered := [], function := some 0, block := some 0, loops := [], depth := 1, log := [] }

/-- `x - printf(printf(x), p * k)` -/
def nestedCalls : Tree :=
  let x := Tree.bare .identifier "x" []
  .bare .binaryExpression "-" [x, .bare .functionCall "printf" [.bare .functionCall "printf" [x],
    .bare .binaryExpression "*" [.bare .identifier "p" [], .bare .identifier "k" []]]]

def nestedCode : List Instr :=
  [.load 2 .i32 (.reg 1 (.ptr .i32)),
    .load 3 .i32 (.reg 1 (.ptr .i32)),
    .call (some 4) 1 [Module.address 1, .reg 3 .i32],
    .binary 5 .mul (.reg 0 .i32) (.int 7),
    .call (some 6) 1 [Module.address 0, .reg 4 .i32, .reg 5 .i32],
    .binary 7 .sub (.reg 2 .i32) (.reg 6 .i32)]

theorem nestedCalls_linear :
    ∃ u, expression nestedCalls midway = .ok (.reg 7 .i32) u ∧
      Linear u.module midway.scope (.one nestedCalls) ⟨2, 0⟩ nestedCode [.reg 7 .i32] ⟨8, 2⟩ := by
  obtain ⟨u, hrun⟩ := ok_of_run' (show (expression nestedCalls).run' midway = some (.reg 7 .i32) by
    decide +kernel)
  have hglobals : (last (expression nestedCalls midway)).module.globals.length = 2 := by
    decide +kernel
  have hbodies : (last (expression nestedCalls midway)).module.functions[0]?.map (·.bodies) =
      some [⟨0, "entry", nestedCode, none⟩] := by decide +kernel
  obtain ⟨code, hat, hlinear, -⟩ := expression_linear ⟨⟨rfl, rfl⟩, rfl, rfl⟩ hrun
  rw [hrun] at hglobals hbodies
  obtain rfl : code = nestedCode := by
    have hfound : u.module.functions[0]? = some _ := hat.found
    simp only [last, hfound] at hbodies
    simpa [Function.emit] using hbodies
  simp only [last] at hglobals
  rw [hglobals] at hlinear
  exact ⟨u, hrun, hlinear⟩

end Lower

end TreeFlow
