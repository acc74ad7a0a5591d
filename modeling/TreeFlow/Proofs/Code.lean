import TreeFlow.Proofs.Ready
import TreeFlow.Proofs.Source

/-!
# The code of an expression

Lowering an expression appends a straight piece of code to the open block under
the cursor. `Emits` says which code: it relates a piece of source to the first
register it may use, its instructions, the values it leaves and the next
register. Callees are looked up in a module, which may be any later version of
the one that was being built.
-/

set_option autoImplicit false

namespace TreeFlow

def Operator.instr (op : Operator) (d : Nat) (l r : Value) : Instr :=
  match op with
  | .arith op => .binary d op l r
  | .compare test => .icmp d test l r

def Operator.ty (op : Operator) (l : Value) : Ty :=
  match op with
  | .arith _ => l.ty
  | .compare _ => .i1

/-- A call by a name reaches function `f`, with `lead` in front of the
arguments that are written. -/
structure Module.Reaches (m : Module) (name : String) (id : Nat) (f : Function)
    (lead : List Value) : Prop where
  found : m.find? name = some id
  function : m.function? id = some f
  leading :
    if f.variadic && name == Intrinsic.name then
      ∃ g, m.globals[g]? = some (Module.byteArray g Intrinsic.format) ∧ lead = [Module.address g]
    else lead = []

theorem Module.Reaches.mono {m m' : Module} {name : String} {id : Nat} {f : Function}
    {lead : List Value} (h : m.Reaches name id f lead) (he : m.Extends m') :
    ∃ f', m'.Reaches name id f' lead ∧ f'.toSignature = f.toSignature := by
  obtain ⟨g, hg, hfg⟩ := he.functions id f h.function
  refine ⟨g, ⟨he.find? h.found, hg, ?_⟩, hfg.signature⟩
  have hlead := h.leading
  rw [show g.variadic = f.variadic from congrArg Signature.variadic hfg.signature]
  split
  · rename_i hi
    rw [if_pos hi] at hlead
    obtain ⟨j, hj, hl⟩ := hlead
    exact ⟨j, getElem?_of_extended he.globals hj, hl⟩
  · rename_i hi
    rwa [if_neg hi] at hlead

theorem Module.find?_declare {m : Module} {sig : Signature} (h : m.find? sig.name = none) :
    (m.declare sig).find? sig.name = some m.functions.length := by
  simp only [Module.find?, Option.map_eq_none_iff] at h
  simp [Module.find?, Module.declare, List.find?_append, h, Function.declare]

structure Signature.Accepts (f : Signature) (lead args : List Value) : Prop where
  enough : f.params.length - lead.length ≤ args.length
  notMore : f.variadic = false → args.length ≤ f.params.length - lead.length
  types : ∀ (i : Nat) (v : Value) (p : Param), args[i]? = some v →
    f.params[lead.length + i]? = some p → v.ty = p.ty

inductive Emits (m : Module) (scope : Scope) :
    Piece → Nat → List Instr → List Value → Nat → Prop
  | literal {site : Site} {n : Int} (kind : site.kind = .literal)
      (value : site.literal = .ok n) (r : Nat) :
      Emits m scope (.one (.node site [])) r [] [.int n] r
  | register {site : Site} {v : Value} (kind : site.kind = .identifier)
      (bound : scope.lookup site.name = some (.stored (.register v))) (r : Nat) :
      Emits m scope (.one (.node site [])) r [] [v] r
  | slot {site : Site} {p : Value} {ty : Ty} (kind : site.kind = .identifier)
      (bound : scope.lookup site.name = some (.stored (.slot p ty))) (r : Nat) :
      Emits m scope (.one (.node site [])) r [.load r ty p] [.reg r ty] (r + 1)
  | constant {site : Site} {n : Int} (kind : site.kind = .identifier)
      (bound : scope.lookup site.name = some (.constant n)) (r : Nat) :
      Emits m scope (.one (.node site [])) r [] [.int n] r
  | binary {site : Site} {a b : Tree} {op : Operator} {r r₁ r₂ : Nat} {c₁ c₂ : List Instr}
      {u v : Value} (kind : site.kind = .binaryExpression)
      (operator : Operator.ofSite site = .ok op)
      (left : Emits m scope (.one a) r c₁ [u] r₁) (right : Emits m scope (.one b) r₁ c₂ [v] r₂)
      (same : u.ty = v.ty) :
      Emits m scope (.one (.node site [a, b])) r (c₁ ++ c₂ ++ [op.instr r₂ u v])
        [.reg r₂ (op.ty u)] (r₂ + 1)
  | call {site : Site} {ts : List Tree} {id r r₁ : Nat} {f : Function} {lead args : List Value}
      {c : List Instr} (kind : site.kind = .functionCall) (callee : m.Reaches site.name id f lead)
      (operands : Emits m scope (.many ts) r c args r₁) (fits : f.Accepts lead args)
      (returns : f.ret.isVoid = false) :
      Emits m scope (.one (.node site ts)) r (c ++ [.call (some r₁) id (lead ++ args)])
        [.reg r₁ f.ret] (r₁ + 1)
  | command {site : Site} {ts : List Tree} {id r r₁ : Nat} {f : Function} {lead args : List Value}
      {c : List Instr} (kind : site.kind = .functionCall) (callee : m.Reaches site.name id f lead)
      (operands : Emits m scope (.many ts) r c args r₁) (fits : f.Accepts lead args)
      (returns : f.ret.isVoid = true) :
      Emits m scope (.one (.node site ts)) r (c ++ [.call none id (lead ++ args)]) [] r₁
  | nil (r : Nat) : Emits m scope (.many []) r [] [] r
  | cons {t : Tree} {ts : List Tree} {r r₁ r₂ : Nat} {c₁ c₂ : List Instr} {v : Value}
      {vs : List Value} (head : Emits m scope (.one t) r c₁ [v] r₁)
      (tail : Emits m scope (.many ts) r₁ c₂ vs r₂) :
      Emits m scope (.many (t :: ts)) r (c₁ ++ c₂) (v :: vs) r₂

/-- The code of a branch condition: integers are compared with zero. -/
inductive Tests (m : Module) (scope : Scope) (t : Tree) : Nat → List Instr → Value → Nat → Prop
  | truth {r r₁ : Nat} {c : List Instr} {v : Value} (code : Emits m scope (.one t) r c [v] r₁)
      (ty : v.ty = .i1) : Tests m scope t r c v r₁
  | nonzero {r r₁ : Nat} {c : List Instr} {v : Value} (code : Emits m scope (.one t) r c [v] r₁)
      (ty : v.ty = .i32) :
      Tests m scope t r (c ++ [.icmp r₁ .ne v (.int 0)]) (.reg r₁ .i1) (r₁ + 1)

/-! ## Registers of code -/

theorem Operator.dest_instr (op : Operator) (d : Nat) (l r : Value) :
    (op.instr d l r).dest? = some d := by
  cases op <;> rfl

theorem Emits.registers_le {m : Module} {scope : Scope} {p : Piece} {r r' : Nat} {c : List Instr}
    {vs : List Value} (h : Emits m scope p r c vs r') : r ≤ r' := by
  induction h with
  | slot => exact Nat.le_succ _
  | binary _ _ _ _ _ ihl ihr => exact Nat.le_succ_of_le (Nat.le_trans ihl ihr)
  | call _ _ _ _ _ ih => exact Nat.le_succ_of_le ih
  | command _ _ _ _ _ ih => exact ih
  | cons _ _ ihh iht => exact Nat.le_trans ihh iht
  | _ => exact Nat.le_refl _

theorem Emits.dest {m : Module} {scope : Scope} {p : Piece} {r r' : Nat} {c : List Instr}
    {vs : List Value} (h : Emits m scope p r c vs r') {i : Instr} (hi : i ∈ c) {d : Nat}
    (hd : i.dest? = some d) : r ≤ d ∧ d < r' := by
  induction h with
  | slot =>
    obtain rfl := List.mem_singleton.mp hi
    cases hd
    omega
  | binary _ _ left right _ ihl ihr =>
    have hl := left.registers_le
    have hr := right.registers_le
    rcases List.mem_append.mp hi with hi | hi
    · rcases List.mem_append.mp hi with hi | hi
      · have := ihl hi
        omega
      · have := ihr hi
        omega
    · obtain rfl := List.mem_singleton.mp hi
      rw [Operator.dest_instr] at hd
      cases hd
      omega
  | call _ _ operands _ _ ih =>
    have hle := operands.registers_le
    rcases List.mem_append.mp hi with hi | hi
    · have := ih hi
      omega
    · obtain rfl := List.mem_singleton.mp hi
      cases hd
      omega
  | command _ _ _ _ _ ih =>
    rcases List.mem_append.mp hi with hi | hi
    · exact ih hi
    · obtain rfl := List.mem_singleton.mp hi
      cases hd
  | cons head tail ihh iht =>
    have hh := head.registers_le
    have ht := tail.registers_le
    rcases List.mem_append.mp hi with hi | hi
    · have := ihh hi
      omega
    · have := iht hi
      omega
  | _ => cases hi

theorem Tests.registers_le {m : Module} {scope : Scope} {t : Tree} {r r' : Nat} {c : List Instr}
    {v : Value} (h : Tests m scope t r c v r') : r ≤ r' := by
  cases h with
  | truth code => exact code.registers_le
  | nonzero code => exact Nat.le_succ_of_le code.registers_le

/-! ## Appended code -/

def Function.emit (f : Function) (b : Nat) (code : List Instr) (r : Nat) : Function :=
  { f with
    bodies := f.bodies.modify b fun k => { k with instrs := k.instrs ++ code }
    registers := r }

namespace Lower

variable {α β : Type} {s t u : LowerState} {id b r r' : Nat} {f : Function} {k : Block}
  {code code' : List Instr}

/-- The run appended `code` to the block under the cursor and changed nothing
else of the function but its register counter. -/
structure Emitted (id : Nat) (f : Function) (b : Nat) (k : Block) (s t : LowerState)
    (code : List Instr) (r : Nat) : Prop where
  here : t.At id (f.emit b code r) b { k with instrs := k.instrs ++ code }
  scope : t.scope = s.scope
  loops : t.loops = s.loops

theorem emit_nil (f : Function) (b : Nat) : f.emit b [] f.registers = f := by
  have hid : f.bodies.modify b (fun k => k) = f.bodies := List.modify_id b f.bodies
  simp only [Function.emit, List.append_nil, hid]

theorem emit_emit (f : Function) (b : Nat) (code code' : List Instr) (r r' : Nat) :
    (f.emit b code r).emit b code' r' = f.emit b (code ++ code') r' := by
  simp [Function.emit, List.modify_modify_eq, Function.comp_def]

@[simp] theorem registers_emit (f : Function) (b : Nat) (code : List Instr) (r : Nat) :
    (f.emit b code r).registers = r := rfl

@[simp] theorem length_emit (f : Function) (b : Nat) (code : List Instr) (r : Nat) :
    (f.emit b code r).bodies.length = f.bodies.length := by
  simp [Function.emit]

theorem bodies_emit (hk : f.bodies[b]? = some k) (code : List Instr) (r : Nat) :
    (f.emit b code r).bodies[b]? = some { k with instrs := k.instrs ++ code } := by
  simp [Function.emit, hk]

theorem Emitted.refl (h : s.At id f b k) (hsame : t.module = s.module ∧ t.function = s.function ∧
    t.block = s.block ∧ t.scope = s.scope ∧ t.loops = s.loops) :
    Emitted id f b k s t [] f.registers := by
  obtain ⟨hm, hf, hb, hs, hl⟩ := hsame
  refine ⟨?_, hs, hl⟩
  rw [emit_nil, List.append_nil]
  exact ⟨⟨hf.trans h.function, hm ▸ h.found⟩, hb.trans h.cursor, h.block⟩

theorem Emitted.trans (h : Emitted id f b k s t code r)
    (h' : Emitted id (f.emit b code r) b { k with instrs := k.instrs ++ code } t u code' r') :
    Emitted id f b k s u (code ++ code') r' := by
  refine ⟨?_, h'.scope.trans h.scope, h'.loops.trans h.loops⟩
  have hh := h'.here
  rw [emit_emit] at hh
  simpa only [List.append_assoc] using hh

theorem Emitted.nested (h : Emitted id f b k (deeper s) t code r) :
    Emitted id f b k s (shallower t) code r :=
  ⟨⟨⟨h.here.function, h.here.found⟩, h.here.cursor, h.here.block⟩, h.scope, h.loops⟩

theorem Emitted.define {ty : Ty} {make : Nat → Instr} {v : Value} (h : s.At id f b k)
    (hr : inBlock (fun b => Build.define b ty make) s = .ok v t) :
    v = .reg f.registers ty ∧ Emitted id f b k s t [make f.registers] (f.registers + 1) := by
  obtain ⟨id', f', b', k', hat, -, rfl, rfl⟩ := define_ok.mp hr
  obtain ⟨rfl, rfl, rfl, rfl⟩ := h.unique hat
  refine ⟨rfl, ⟨h.toIn.put _, h.cursor, ?_⟩, rfl, rfl⟩
  exact bodies_emit h.block _ _

theorem Emitted.perform {i : Instr} {x : Unit} (h : s.At id f b k)
    (hr : inBlock (fun b => Build.perform b i) s = .ok x t) :
    Emitted id f b k s t [i] f.registers := by
  obtain ⟨id', f', b', k', hat, -, rfl⟩ := perform_ok.mp hr
  obtain ⟨rfl, rfl, rfl, rfl⟩ := h.unique hat
  exact ⟨⟨h.toIn.put _, h.cursor, bodies_emit h.block _ _⟩, rfl, rfl⟩

/-! ## Calls -/

theorem checkCount_ok {site : Site} {variadic : Bool} {expected given : Nat} {x : Unit}
    (h : checkCount site variadic expected given = .ok x) :
    expected ≤ given ∧ (variadic = false → given ≤ expected) := by
  unfold checkCount at h
  split at h
  · cases h
  · rename_i hc
    rw [not_or, Nat.not_lt] at hc
    refine ⟨hc.1, fun hv => ?_⟩
    have := hc.2
    simp only [hv, true_and] at this
    omega

structure Located (s : LowerState) (site : Site) (n : Nat) (c : Callee) (f : Function) : Prop where
  reaches : s.module.Reaches site.name c.id f c.leading
  params : c.params = f.params.map (·.ty)
  enough : f.params.length - c.leading.length ≤ n
  notMore : f.variadic = false → n ≤ f.params.length - c.leading.length

theorem findCallee_emits {site : Site} {j : Nat} (h : s.At id f b k)
    (hr : findCallee site s = .ok j t) :
    Emitted id f b k s t [] f.registers ∧ t.module.find? site.name = some j := by
  cases hf : s.module.find? site.name with
  | some i =>
    rw [findCallee_of_some hf] at hr
    cases hr
    exact ⟨.refl h ⟨rfl, rfl, rfl, rfl, rfl⟩, hf⟩
  | none =>
    by_cases hn : site.name = Intrinsic.name
    · rw [findCallee_of_intrinsic hf hn] at hr
      cases hr
      refine ⟨⟨?_, rfl, rfl⟩, ?_⟩
      · rw [emit_nil, List.append_nil]
        refine ⟨⟨h.function, ?_⟩, h.cursor, h.block⟩
        rw [← h.found]
        exact List.getElem?_append_left (List.getElem?_eq_some_iff.mp h.found).1
      · rw [hn] at hf ⊢
        exact Module.find?_declare hf
    · rw [findCallee_of_none hf hn] at hr
      cases hr

theorem callee_emits {site : Site} {n : Nat} {c : Callee} (h : s.At id f b k)
    (hr : callee site n s = .ok c t) :
    Emitted id f b k s t [] f.registers ∧ ∃ g, Located t site n c g := by
  obtain ⟨j, u, hj, hr'⟩ := bind_ok.mp hr
  obtain ⟨he, hfind⟩ := findCallee_emits h hj
  rw [get_bind] at hr'
  cases hg : u.module.function? j with
  | none =>
    rw [hg] at hr'
    cases hr'
  | some g =>
    cases hi : g.variadic && site.name == Intrinsic.name with
    | true =>
      rw [callee_of_intrinsic hj hg hi] at hr
      split at hr
      · rename_i x hcount
        cases hr
        refine ⟨⟨⟨⟨he.here.function, he.here.found⟩, he.here.cursor, he.here.block⟩, he.scope,
          he.loops⟩, g, ⟨⟨hfind, hg, ?_⟩, rfl, (checkCount_ok hcount).1, (checkCount_ok hcount).2⟩⟩
        rw [if_pos hi]
        exact ⟨u.module.globals.length, List.getElem?_concat_length .., rfl⟩
      · cases hr
    | false =>
      rw [callee_of_plain hj hg hi] at hr
      split at hr
      · rename_i x hcount
        cases hr
        refine ⟨he, g, ⟨⟨hfind, hg, ?_⟩, rfl, (checkCount_ok hcount).1, (checkCount_ok hcount).2⟩⟩
        rw [if_neg (by simp [hi])]
      · cases hr

theorem call_emits {j : Nat} {args : List Value} {out : Option Value} {g : Function}
    (h : s.At id f b k) (hg : s.module.function? j = some g) (hr : call j args s = .ok out t) :
    g.ret.isVoid = true ∧ out = none ∧ Emitted id f b k s t [.call none j args] f.registers ∨
      g.ret.isVoid = false ∧ out = some (.reg f.registers g.ret) ∧
        Emitted id f b k s t [.call (some f.registers) j args] (f.registers + 1) := by
  unfold call at hr
  rw [get_bind, hg] at hr
  obtain ⟨id', f', b', g', hin, hb, hrun, rfl⟩ := inBlock_ok.mp hr
  obtain ⟨k', hk, -, hrun⟩ := Build.call_ok.mp hrun
  obtain ⟨rfl, rfl, rfl, rfl⟩ := h.unique ⟨hin, hb, hk⟩
  split at hrun
  · obtain ⟨rfl, rfl⟩ := hrun
    refine .inl ⟨‹_›, rfl, ⟨h.toIn.put _, h.cursor, bodies_emit h.block _ _⟩, rfl, rfl⟩
  · obtain ⟨rfl, rfl⟩ := hrun
    refine .inr ⟨by simp_all, rfl, ⟨h.toIn.put _, h.cursor, ?_⟩, rfl, rfl⟩
    exact bodies_emit h.block _ _

theorem checkArgument_ok {c : Callee} {site : Site} {i : Nat} {v : Value} {x : Unit} {ty : Ty}
    (h : checkArgument c site i v = .ok x) (hi : c.params[i]? = some ty) : v.ty = ty := by
  unfold checkArgument at h
  rw [hi] at h
  dsimp only at h
  split at h
  · assumption
  · cases h

def ExpressionEmits (t : Tree) : Prop :=
  ∀ {s u : LowerState} {id b : Nat} {f : Function} {k : Block} {v : Value}, s.At id f b k →
    expression t s = .ok v u → ∃ code r, Emitted id f b k s u code r ∧
      ∀ m, u.module.Extends m → Emits m s.scope (.one t) f.registers code [v] r

theorem Emitted.module {act : Lower α} {a : α} (h : s.At id f b k) (he : Emitting act)
    (hr : act s = .ok a t) : s.module.Extends t.module :=
  Emissions.extends (he.run hr) h.toIn

theorem Emitted.grows (he : Emitted id f b k s t code r) (h : s.At id f b k)
    (hs : Emissions s t) : f.Extends (f.emit b code r) := by
  obtain ⟨g, hg⟩ := Steps.kept (n := 0) (steps_of_emissions hs) h.toIn (Nat.zero_le _)
  obtain ⟨-, rfl⟩ := he.here.toIn.unique hg.inside
  exact hg.grows

theorem arguments_emits {ts : List Tree} (ih : ∀ t ∈ ts, ExpressionEmits t) {c : Callee}
    {args all : List Value} (h : s.At id f b k) (hr : arguments c args ts s = .ok all t) :
    ∃ code vs r, all = args ++ vs ∧ vs.length = ts.length ∧ Emitted id f b k s t code r ∧
      (∀ m, t.module.Extends m → Emits m s.scope (.many ts) f.registers code vs r) ∧
        ∀ (i : Nat) (v : Value) (ty : Ty), vs[i]? = some v →
          c.params[args.length + i]? = some ty → v.ty = ty := by
  induction ts generalizing s f k args with
  | nil =>
    rw [arguments] at hr
    cases hr
    exact ⟨[], [], f.registers, by simp, rfl, .refl h ⟨rfl, rfl, rfl, rfl, rfl⟩,
      fun m _ => .nil _, by simp⟩
  | cons e es ihs =>
    rw [arguments] at hr
    obtain ⟨v, u, hv, hr₁⟩ := bind_ok.mp hr
    obtain ⟨c₁, r₁, he₁, hc₁⟩ := ih e (by simp) h hv
    obtain ⟨x, w, hw, hr₂⟩ := bind_ok.mp hr₁
    obtain ⟨hcheck, rfl⟩ := lift_ok.mp hw
    obtain ⟨c₂, vs, r₂, rfl, hlen, he₂, hc₂, htys⟩ :=
      ihs (fun t ht => ih t (by simp [ht])) he₁.here hr₂
    have hext : w.module.Extends t.module :=
      Emitted.module he₁.here (emitting_arguments (fun t _ => emitting_expression t) c _) hr₂
    refine ⟨c₁ ++ c₂, v :: vs, r₂, by simp, by simp [hlen], he₁.trans he₂, fun m hm => ?_, ?_⟩
    · have htail := hc₂ m hm
      rw [he₁.scope] at htail
      exact .cons (hc₁ m (hext.trans hm)) htail
    · intro i a ty ha hty
      cases i with
      | zero =>
        obtain rfl : v = a := by simpa using ha
        exact checkArgument_ok hcheck hty
      | succ i =>
        refine htys i a ty (by simpa using ha) ?_
        rw [← hty]
        simp only [List.length_append, List.length_cons, List.length_nil]
        congr 1
        omega

theorem functionCall_emits {site : Site} {ts : List Tree} (hkind : site.kind = .functionCall)
    (ih : ∀ t ∈ ts, ExpressionEmits t) {out : Option Value} (h : s.At id f b k)
    (hr : functionCall (.node site ts) s = .ok out t) :
    ∃ code r, Emitted id f b k s t code r ∧
      ∀ m, t.module.Extends m →
        Emits m s.scope (.one (.node site ts)) f.registers code out.toList r := by
  obtain ⟨c, u, hu, hr₁⟩ := bind_ok.mp hr
  obtain ⟨he, g, hloc⟩ := callee_emits h hu
  obtain ⟨args, w, hw, hr₂⟩ := bind_ok.mp hr₁
  have hat := he.here
  rw [emit_nil, List.append_nil] at hat
  obtain ⟨code, vs, r, rfl, hlen, he₁, hc₁, htys⟩ := arguments_emits ih hat hw
  have hext : u.module.Extends w.module :=
    Emitted.module hat (emitting_arguments (fun t _ => emitting_expression t) c _) hw
  have hext' : w.module.Extends t.module := Emitted.module he₁.here (emitting_call _ _) hr₂
  obtain ⟨g', hg', hgg⟩ := hext.functions _ _ hloc.reaches.function
  have he₀ : Emitted id f b k s w code r := by
    refine ⟨he₁.here, he₁.scope.trans he.scope, he₁.loops.trans he.loops⟩
  have hcode : ∀ m, t.module.Extends m → ∃ g₀ : Function, m.Reaches site.name c.id g₀ c.leading ∧
      g₀.toSignature = g.toSignature ∧ g₀.toSignature.Accepts c.leading vs ∧
        Emits m s.scope (.many ts) f.registers code vs r := by
    intro m hm
    obtain ⟨g₀, hreach, hsig⟩ := hloc.reaches.mono (hext.trans (hext'.trans hm))
    refine ⟨g₀, hreach, hsig, ?_, ?_⟩
    · rw [hsig]
      refine ⟨hlen ▸ hloc.enough, fun hv => hlen ▸ hloc.notMore hv, fun i v p hv hp => ?_⟩
      refine htys i v p.ty hv ?_
      rw [hloc.params, List.getElem?_map, hp]
      rfl
    · have htail := hc₁ m (hext'.trans hm)
      rwa [he.scope] at htail
  have hret : ∀ g₀ : Function, g₀.toSignature = g.toSignature → g₀.ret = g'.ret :=
    fun g₀ hsig => congrArg Signature.ret (hsig.trans hgg.signature.symm)
  rcases call_emits he₁.here hg' hr₂ with ⟨hvoid, rfl, he₂⟩ | ⟨hvoid, rfl, he₂⟩
  · refine ⟨_, _, he₀.trans he₂, fun m hm => ?_⟩
    obtain ⟨g₀, hreach, hsig, hacc, hargs⟩ := hcode m hm
    exact .command hkind hreach hargs hacc (by rw [hret g₀ hsig, hvoid])
  · refine ⟨_, _, he₀.trans he₂, fun m hm => ?_⟩
    obtain ⟨g₀, hreach, hsig, hacc, hargs⟩ := hcode m hm
    rw [← hret g₀ hsig] at hvoid ⊢
    exact .call hkind hreach hargs hacc hvoid

theorem name_emits {site : Site} (hkind : site.kind = .identifier) {v : Value}
    (h : s.At id f b k) (hr : name site s = .ok v t) :
    ∃ code r, Emitted id f b k s t code r ∧
      ∀ m, Emits m s.scope (.one (.node site [])) f.registers code [v] r := by
  rw [name_run] at hr
  cases hl : s.scope.lookup site.name with
  | none =>
    rw [hl] at hr
    cases hr
  | some binding =>
    rw [hl] at hr
    cases binding with
    | constant n =>
      cases hr
      exact ⟨[], _, .refl h ⟨rfl, rfl, rfl, rfl, rfl⟩, fun m => .constant hkind hl _⟩
    | stored storage =>
      cases storage with
      | register w =>
        cases hr
        exact ⟨[], _, .refl h ⟨rfl, rfl, rfl, rfl, rfl⟩, fun m => .register hkind hl _⟩
      | slot p ty =>
        obtain ⟨rfl, he⟩ := Emitted.define h hr
        exact ⟨_, _, he, fun m => .slot hkind hl _⟩

theorem operate_emits {site : Site} {op : Operator} {l r v : Value} (h : s.At id f b k)
    (hr : operate site op l r s = .ok v t) :
    l.ty = r.ty ∧ v = .reg f.registers (op.ty l) ∧
      Emitted id f b k s t [op.instr f.registers l r] (f.registers + 1) := by
  unfold operate at hr
  split at hr
  · cases op with
    | arith op =>
      obtain ⟨hv, he⟩ := Emitted.define h hr
      exact ⟨‹_›, hv, he⟩
    | compare test =>
      obtain ⟨hv, he⟩ := Emitted.define h hr
      exact ⟨‹_›, hv, he⟩
  · cases hr

theorem expression_emits (t : Tree) : ExpressionEmits t := by
  induction t using Tree.induct with
  | node site ts ih =>
    intro s u id b f k v h hr
    obtain ⟨act, hform, heq⟩ := expression_form site ts
    rw [heq] at hr
    obtain ⟨-, w, hact, rfl⟩ := nested_ok.mp hr
    replace h : (deeper s).At id f b k := ⟨⟨h.function, h.found⟩, h.cursor, h.block⟩
    suffices hs : ∃ code r, Emitted id f b k (deeper s) w code r ∧
        ∀ m, w.module.Extends m → Emits m s.scope (.one (.node site ts)) f.registers code [v] r by
      obtain ⟨code, r, he, hc⟩ := hs
      exact ⟨code, r, he.nested, hc⟩
    cases hform with
    | literal hkind =>
      obtain ⟨hlit, rfl⟩ := lift_ok.mp hact
      cases hn : site.literal with
      | error e =>
        rw [hn] at hlit
        cases hlit
      | ok n =>
        rw [hn] at hlit
        cases hlit
        exact ⟨[], _, .refl h ⟨rfl, rfl, rfl, rfl, rfl⟩, fun m _ => .literal hkind hn _⟩
    | name hkind =>
      obtain ⟨code, r, he, hc⟩ := name_emits hkind h hact
      exact ⟨code, r, he, fun m _ => hc m⟩
    | binary hkind l r =>
      obtain ⟨op, x, hx, hact₁⟩ := bind_ok.mp hact
      obtain ⟨hop, rfl⟩ := lift_ok.mp hx
      obtain ⟨a, y, ha, hact₂⟩ := bind_ok.mp hact₁
      obtain ⟨c₁, r₁, he₁, hc₁⟩ := ih l (by simp) h ha
      obtain ⟨c, z, hc, hact₃⟩ := bind_ok.mp hact₂
      obtain ⟨c₂, r₂, he₂, hc₂⟩ := ih r (by simp) he₁.here hc
      obtain ⟨hty, rfl, he₃⟩ := operate_emits he₂.here hact₃
      have hx₂ := Emitted.module he₁.here (emitting_expression r) hc
      have hx₃ := Emitted.module he₂.here (emitting_operate site op a c) hact₃
      refine ⟨_, _, he₁.trans (he₂.trans he₃), fun m hm => ?_⟩
      have hright := hc₂ m (hx₃.trans hm)
      rw [he₁.scope] at hright
      rw [← List.append_assoc]
      exact .binary hkind hop (hc₁ m (hx₂.trans (hx₃.trans hm))) hright hty
    | call hkind =>
      rw [callValue_eq] at hact
      obtain ⟨out, x, hout, hact₁⟩ := bind_ok.mp hact
      obtain ⟨code, r, he, hc⟩ := functionCall_emits hkind ih h hout
      cases out with
      | none => cases hact₁
      | some a =>
        cases hact₁
        exact ⟨code, r, he, hc⟩
    | refused _ c _ => cases hact

theorem condition_emits {test : Tree} {v : Value} (h : s.At id f b k)
    (hr : condition test s = .ok v t) :
    ∃ code r, Emitted id f b k s t code r ∧
      ∀ m, t.module.Extends m → Tests m s.scope test f.registers code v r := by
  obtain ⟨w, u, hw, -⟩ := bind_ok.mp hr
  obtain ⟨code, r, he, hc⟩ := expression_emits test h hw
  rw [condition_of hw] at hr
  split at hr
  · cases hr
    exact ⟨code, r, he, fun m hm => .truth (hc m hm) ‹_›⟩
  · obtain ⟨rfl, he'⟩ := Emitted.define he.here hr
    have hext := Emitted.module he.here (emitting_icmp _ _ _) hr
    exact ⟨_, _, he.trans he', fun m hm => .nonzero (hc m (hext.trans hm)) ‹_›⟩
  · cases hr

end Lower

end TreeFlow
