import Mathlib.Tactic.Simps.Basic
import TreeFlow.Proofs.Code

/-!
# The layout of statements

`Lays` says where the code of a statement stands in a finished function. A mark
is a moment of lowering: the scope, the place of the cursor, and how many
blocks, registers, slots and seeds there are. A statement is laid out from one
mark to another, and the function may have grown since in any way that a
function can grow.
-/

set_option autoImplicit false

namespace TreeFlow

variable {x : Unit} {site : Site} {ts : List Tree}

structure Mark where
  scope : Scope
  block : Nat
  offset : Nat
  ended : Bool
  blocks : Nat
  registers : Nat
  slots : Nat
  seeds : Nat

namespace Mark

/-- The mark of a moment at which the cursor is on block `k` of `f`. -/
def of (scope : Scope) (f : Function) (b : Nat) (k : Block) : Mark where
  scope := scope
  block := b
  offset := k.instrs.length
  ended := k.terminated
  blocks := f.bodies.length
  registers := f.registers
  slots := f.slots.length
  seeds := f.seeds.length

@[simps]
def after (μ : Mark) (length r : Nat) : Mark :=
  { μ with offset := μ.offset + length, registers := r }

@[simps]
def stop (μ : Mark) : Mark := { μ with ended := true }

@[simps]
def grow (μ : Mark) (n : Nat) : Mark := { μ with blocks := μ.blocks + n }

@[simps]
def head (μ : Mark) (b : Nat) : Mark := { μ with block := b, offset := 0, ended := false }

def pointer (μ : Mark) (ty : Ty) : Value := .reg μ.registers (.ptr ty)

@[simps]
def rebind (μ : Mark) (name : String) (p : Value) (ty : Ty) : Mark :=
  { μ with scope := μ.scope.bind name (.slot p ty) }

@[simps]
def slot (μ : Mark) (name : String) (ty : Ty) : Mark :=
  { μ.rebind name (μ.pointer ty) ty with
    registers := μ.registers + 1
    slots := μ.slots + 1 }

@[simps]
def promote (μ : Mark) (name : String) (ty : Ty) : Mark :=
  { μ.slot name ty with seeds := μ.seeds + 1 }

end Mark

namespace Function

def Holds (g : Function) (μ : Mark) (code : List Instr) : Prop :=
  ∃ k, g.bodies[μ.block]? = some k ∧ code <+: k.instrs.drop μ.offset

def Ends (g : Function) (μ : Mark) (x : Terminator) : Prop :=
  ∃ k, g.bodies[μ.block]? = some k ∧ k.instrs.length = μ.offset ∧ k.terminator = some x

def HasSlot (g : Function) (μ : Mark) (ty : Ty) : Prop :=
  g.slots[μ.slots]? = some ⟨μ.registers, ty⟩

def HasSeed (g : Function) (μ : Mark) (v : Value) : Prop :=
  g.seeds[μ.seeds]? = some ⟨v, μ.pointer v.ty⟩

def Falls (g : Function) (μ : Mark) (target : Nat) : Prop :=
  μ.ended = false → g.Ends μ (.br target)

end Function

/-- The slot an assignment writes, and the mark from which its code goes on. -/
inductive Assigns (g : Function) (name : String) (μ : Mark) : Value → Ty → Mark → Prop
  | slot {p : Value} {ty : Ty} (bound : μ.scope.lookup name = some (.stored (.slot p ty))) :
      Assigns g name μ p ty μ
  | promote {v : Value} (bound : μ.scope.lookup name = some (.stored (.register v)))
      (slot : g.HasSlot μ v.ty) (seed : g.HasSeed μ v) :
      Assigns g name μ (μ.pointer v.ty) v.ty (μ.promote name v.ty)

def Update.code (u : Update) (old new p : Value) (r : Nat) : List Instr :=
  match u with
  | .replace => [.store new p]
  | .combine op => [.binary r op old new, .store (.reg r old.ty) p]

def Update.next (u : Update) (r : Nat) : Nat :=
  match u with
  | .replace => r
  | .combine _ => r + 1

inductive Lays (m : Module) (g : Function) : Piece → List LoopTargets → Mark → Mark → Prop
  | declare {site : Site} {type : Tree} {ls : List LoopTargets} {μ : Mark} {ty : Ty}
      (kind : site.kind = .variableDeclaration) (named : site.name.isEmpty = false)
      (typed : Ty.ofSite type.site = .ok ty) (sized : ty.isVoid = false) (slot : g.HasSlot μ ty) :
      Lays m g (.one (.node site [type])) ls μ (μ.slot site.name ty)
  | initialise {site : Site} {type init : Tree} {ls : List LoopTargets} {μ : Mark} {ty : Ty}
      {c : List Instr} {v : Value} {r : Nat}
      (kind : site.kind = .variableDeclaration) (named : site.name.isEmpty = false)
      (typed : Ty.ofSite type.site = .ok ty) (sized : ty.isVoid = false) (slot : g.HasSlot μ ty)
      (code : Emits m (μ.slot site.name ty).scope (.one init) (μ.registers + 1) c [v] r)
      (fits : v.ty = ty) (holds : g.Holds μ (c ++ [.store v (μ.pointer ty)])) :
      Lays m g (.one (.node site [type, init])) ls μ
        ((μ.slot site.name ty).after (c.length + 1) r)
  | assign {site : Site} {op rhs : Tree} {ls : List LoopTargets} {μ μ₁ : Mark} {update : Update}
      {p : Value} {ty : Ty} {c : List Instr} {v : Value} {r : Nat}
      (kind : site.kind = .assignment) (operator : op.kind = .identifier)
      (updates : Update.ofSite op.site = .ok update) (target : Assigns g site.name μ p ty μ₁)
      (code : Emits m μ₁.scope (.one rhs) (μ₁.registers + 1) c [v] r) (fits : v.ty = ty)
      (holds : g.Holds μ (.load μ₁.registers ty p :: c ++
        update.code (.reg μ₁.registers ty) v p r)) :
      Lays m g (.one (.node site [op, rhs])) ls μ
        ((μ₁.after (.load μ₁.registers ty p :: c ++
          update.code (.reg μ₁.registers ty) v p r).length (update.next r)).rebind site.name p ty)
  | returnNone {site : Site} {ls : List LoopTargets} {μ : Mark}
      (kind : site.kind = .returnStatement) (ends : g.Ends μ (.ret none)) :
      Lays m g (.one (.node site [])) ls μ μ.stop
  | returnValue {site : Site} {t : Tree} {ls : List LoopTargets} {μ : Mark} {c : List Instr}
      {v : Value} {r : Nat} (kind : site.kind = .returnStatement)
      (code : Emits m μ.scope (.one t) μ.registers c [v] r) (holds : g.Holds μ c)
      (ends : g.Ends (μ.after c.length r) (.ret (some v))) :
      Lays m g (.one (.node site [t])) ls μ (μ.after c.length r).stop
  | loop {site : Site} {test body : Tree} {ls : List LoopTargets} {μ μ₁ : Mark} {c : List Instr}
      {v : Value} {r : Nat} (kind : site.kind = .whileStatement) (blockBody : body.kind = .block)
      (enters : g.Ends μ (.br μ.blocks))
      (code : Tests m μ.scope test μ.registers c v r)
      (holds : g.Holds ((μ.grow 3).head μ.blocks) c)
      (branches : g.Ends (((μ.grow 3).head μ.blocks).after c.length r)
        (.condBr v (μ.blocks + 1) (μ.blocks + 2)))
      (inside : Lays m g (.many body.children) (⟨μ.blocks, μ.blocks + 2⟩ :: ls)
        ((((μ.grow 3).head μ.blocks).after c.length r).head (μ.blocks + 1)) μ₁)
      (back : g.Falls μ₁ μ.blocks) :
      Lays m g (.one (.node site [test, body])) ls μ (μ₁.head (μ.blocks + 2))
  | ifThen {site : Site} {test yes : Tree} {ls : List LoopTargets} {μ μ₁ : Mark} {c : List Instr}
      {v : Value} {r : Nat} (kind : site.kind = .statement) (named : site.name = "if")
      (blockYes : yes.kind = .block) (code : Tests m μ.scope test μ.registers c v r)
      (holds : g.Holds μ c)
      (branches : g.Ends (μ.after c.length r) (.condBr v μ.blocks (μ.blocks + 1)))
      (inside : Lays m g (.many yes.children) ls
        (((μ.after c.length r).grow 2).head μ.blocks) μ₁)
      (joins : g.Falls μ₁ (μ.blocks + 1)) :
      Lays m g (.one (.node site [test, yes])) ls μ (μ₁.head (μ.blocks + 1))
  | ifElse {site : Site} {test yes no : Tree} {ls : List LoopTargets} {μ μ₁ μ₂ : Mark}
      {c : List Instr} {v : Value} {r : Nat} (kind : site.kind = .statement)
      (named : site.name = "if") (blockYes : yes.kind = .block)
      (armNo : no.kind = .block ∨ no.kind = .statement ∧ no.name = "if")
      (code : Tests m μ.scope test μ.registers c v r) (holds : g.Holds μ c)
      (branches : g.Ends (μ.after c.length r) (.condBr v μ.blocks (μ.blocks + 2)))
      (inside : Lays m g (.many yes.children) ls
        (((μ.after c.length r).grow 3).head μ.blocks) μ₁)
      (joins : g.Falls μ₁ (μ.blocks + 1))
      (otherwise : Lays m g no.arm ls (μ₁.head (μ.blocks + 2)) μ₂)
      (joins' : g.Falls μ₂ (μ.blocks + 1)) :
      Lays m g (.one (.node site [test, yes, no])) ls μ (μ₂.head (μ.blocks + 1))
  | leave {site : Site} {l : LoopTargets} {ls : List LoopTargets} {μ : Mark}
      (kind : site.kind = .statement) (named : site.name = "break")
      (ends : g.Ends μ (.br l.onBreak)) : Lays m g (.one (.node site [])) (l :: ls) μ μ.stop
  | again {site : Site} {l : LoopTargets} {ls : List LoopTargets} {μ : Mark}
      (kind : site.kind = .statement) (named : site.name = "continue")
      (ends : g.Ends μ (.br l.onContinue)) : Lays m g (.one (.node site [])) (l :: ls) μ μ.stop
  | call {site : Site} {ts : List Tree} {ls : List LoopTargets} {μ : Mark} {c : List Instr}
      {vs : List Value} {r : Nat} (kind : site.kind = .functionCall)
      (code : Emits m μ.scope (.one (.node site ts)) μ.registers c vs r) (holds : g.Holds μ c) :
      Lays m g (.one (.node site ts)) ls μ (μ.after c.length r)
  | block {site : Site} {ts : List Tree} {ls : List LoopTargets} {μ μ₁ : Mark}
      (kind : site.kind = .block) (inside : Lays m g (.many ts) ls μ μ₁) :
      Lays m g (.one (.node site ts)) ls μ μ₁
  | nil {ls : List LoopTargets} {μ : Mark} : Lays m g (.many []) ls μ μ
  | skip {t : Tree} {ts : List Tree} {ls : List LoopTargets} {μ : Mark} (ended : μ.ended = true) :
      Lays m g (.many (t :: ts)) ls μ μ
  | cons {t : Tree} {ts : List Tree} {ls : List LoopTargets} {μ μ₁ μ₂ : Mark}
      (unended : μ.ended = false) (first : Lays m g (.one t) ls μ μ₁)
      (rest : Lays m g (.many ts) ls μ₁ μ₂) : Lays m g (.many (t :: ts)) ls μ μ₂

theorem Lays.stopped {m : Module} {g : Function} {ls : List LoopTargets} {μ μ' : Mark}
    (h : Lays m g (.many ts) ls μ μ') (hμ : μ.ended = true) : μ' = μ := by
  cases h with
  | nil => rfl
  | skip => rfl
  | cons unended =>
    rw [hμ] at unended
    cases unended

/-! ## A layout survives growth -/

section Growing

variable {f g : Function} {μ : Mark}

theorem Function.Holds.mono {code : List Instr} (h : f.Holds μ code) (hg : f.Extends g) :
    g.Holds μ code := by
  obtain ⟨k, hk, hp⟩ := h
  obtain ⟨l, hl, hkl⟩ := hg.blocks _ _ hk
  obtain ⟨rest, hrest⟩ := hkl.instrs
  refine ⟨l, hl, hp.trans ?_⟩
  rw [← hrest, List.drop_append]
  exact List.prefix_append _ _

theorem Function.Ends.mono {x : Terminator} (h : f.Ends μ x) (hg : f.Extends g) : g.Ends μ x := by
  obtain ⟨k, hk, ho, hx⟩ := h
  obtain ⟨l, hl, hkl⟩ := hg.blocks _ _ hk
  obtain rfl := hkl.ended (by simp [hx])
  exact ⟨l, hl, ho, hx⟩

theorem Function.HasSlot.mono {ty : Ty} (h : f.HasSlot μ ty) (hg : f.Extends g) :
    g.HasSlot μ ty := getElem?_of_extended hg.slots h

end Growing

/-! ## Marks of changed functions -/

namespace Mark

variable (scope : Scope) (f : Function) (b : Nat) (k : Block)

theorem of_emit (code : List Instr) (r : Nat) :
    of scope (f.emit b code r) b { k with instrs := k.instrs ++ code } =
      (of scope f b k).after code.length r := by
  simp [of, after, Function.emit, Block.terminated]

theorem of_close (x : Terminator) :
    of scope (f.close b x) b { k with terminator := some x } = (of scope f b k).stop := by
  simp [of, stop, Function.close, Block.terminated]

theorem of_addBlock (label : String) :
    of scope (f.addBlock label) b k = (of scope f b k).grow 1 := by
  simp [of, grow, Function.addBlock]

theorem of_addSlot (name : String) (ty : Ty) :
    of (scope.bind name (.slot (.reg f.registers (.ptr ty)) ty)) (f.addSlot ty) b k =
      (of scope f b k).slot name ty := by
  simp [of, slot, rebind, pointer, Function.addSlot, Function.takeRegister]

theorem of_promote (name : String) (v : Value) :
    of (scope.bind name (.slot (.reg f.registers (.ptr v.ty)) v.ty))
        ((f.addSlot v.ty).addSeed v (.reg f.registers (.ptr v.ty))) b k =
      (of scope f b k).promote name v.ty := by
  simp [of, promote, slot, rebind, pointer, Function.addSlot, Function.addSeed,
    Function.takeRegister]

theorem of_head {c : Nat} {l : Block} (hi : l.instrs = []) (ht : l.terminator = none) :
    of scope f c l = (of scope f b k).head c := by
  simp [of, head, hi, ht, Block.terminated]

end Mark

namespace Lower

variable {s t u : LowerState} {id b r : Nat} {f g : Function} {k : Block} {code : List Instr}

theorem holds_emit (hk : f.bodies[b]? = some k) (scope : Scope) (code : List Instr) (r : Nat) :
    (f.emit b code r).Holds (Mark.of scope f b k) code :=
  ⟨_, bodies_emit hk code r, by simp [Mark.of]⟩

theorem hasSlot_addSlot (scope : Scope) (b : Nat) (k : Block) (ty : Ty) :
    (f.addSlot ty).HasSlot (Mark.of scope f b k) ty := by
  simp [Function.HasSlot, Function.addSlot, Mark.of]

theorem hasSeed_promote (scope : Scope) (b : Nat) (k : Block) (v : Value) :
    ((f.addSlot v.ty).addSeed v (.reg f.registers (.ptr v.ty))).HasSeed
      (Mark.of scope f b k) v := by
  simp [Function.HasSeed, Function.addSeed, Function.addSlot, Function.takeRegister, Mark.of,
    Mark.pointer]

theorem ends_close (hk : f.bodies[b]? = some k) (scope : Scope) (x : Terminator) :
    (f.close b x).Ends (Mark.of scope f b k) x := by
  refine ⟨{ k with terminator := some x }, ?_, rfl, rfl⟩
  simp [Mark.of, Function.close, hk]

/-- The statements of a piece have been laid out from where the cursor was to
where it is. -/
def LaidOut (p : Piece) (id : Nat) (f : Function) (b : Nat) (k : Block) (s u : LowerState) : Prop :=
  ∃ f' b' k', u.At id f' b' k' ∧ u.loops = s.loops ∧ ∀ m g, u.module.Extends m → f'.Extends g →
    Lays m g p s.loops (Mark.of s.scope f b k) (Mark.of u.scope f' b' k')

structure Closed (id : Nat) (f : Function) (b : Nat) (k : Block) (s t : LowerState)
    (x : Terminator) : Prop where
  here : t.At id (f.close b x) b { k with terminator := some x }
  scope : t.scope = s.scope
  loops : t.loops = s.loops
  grows : f.Extends (f.close b x)
  module : s.module.Extends t.module

theorem terminate_closes {x : Terminator} {y : Unit} (h : s.At id f b k)
    (hr : inBlock (fun b => Build.terminate b x) s = .ok y t) : Closed id f b k s t x := by
  obtain ⟨id', f', b', k', hat, ho, -, rfl⟩ := terminate_ok.mp hr
  obtain ⟨rfl, rfl, rfl, rfl⟩ := h.unique hat
  have hgrows := Function.extends_close _ h.block ho x
  refine ⟨⟨h.toIn.put _, h.cursor, ?_⟩, rfl, rfl, hgrows, ?_⟩
  · simp [Function.close, h.block]
  · exact Module.extends_setFunction h.found hgrows

/-! ## Simple statements -/

theorem variableSlot_at {site type : Site} {p : Value × Ty} (h : s.At id f b k)
    (hr : variableSlot site type s = .ok p t) :
    site.name.isEmpty = false ∧ Ty.ofSite type = .ok p.2 ∧ p.2.isVoid = false ∧
      p.1 = .reg f.registers (.ptr p.2) ∧ t = withSlot s site.name id f p.2 ∧
        t.At id (f.addSlot p.2) b k := by
  obtain ⟨hname, htype, hvoid, id', f', hin, -, hp, rfl⟩ := variableSlot_ok hr
  obtain ⟨rfl, rfl⟩ := h.toIn.unique hin
  refine ⟨hname, htype, hvoid, hp, rfl, ⟨h.function, ?_⟩, h.cursor, h.block⟩
  exact (h.toIn.put (Function.addSlot _ p.2)).found

theorem checkStore_ok {got slot : Ty} (h : checkStore site got slot = .ok x) : got = slot := by
  unfold checkStore at h
  split at h
  · assumption
  · cases h

theorem variableDeclaration_lays (hkind : site.kind = .variableDeclaration) (h : s.At id f b k)
    (hr : variableDeclaration site ts s = .ok x u) :
    LaidOut (.one (.node site ts)) id f b k s u := by
  unfold variableDeclaration at hr
  split at hr
  · obtain ⟨p, t, ht, hr₁⟩ := bind_ok.mp hr
    cases hr₁
    obtain ⟨hname, htype, hvoid, -, rfl, hat⟩ := variableSlot_at h ht
    refine ⟨_, b, k, hat, rfl, fun m g _ hg => ?_⟩
    rw [withSlot, Mark.of_addSlot]
    exact .declare hkind hname htype hvoid ((hasSlot_addSlot s.scope b k p.2).mono hg)
  · obtain ⟨p, t, ht, hr₁⟩ := bind_ok.mp hr
    obtain ⟨hname, htype, hvoid, hp, rfl, hat⟩ := variableSlot_at h ht
    obtain ⟨v, t₂, hv, hr₂⟩ := bind_ok.mp hr₁
    obtain ⟨c, r, he, hc⟩ := expression_emits _ hat hv
    obtain ⟨y, t₃, hy, hr₃⟩ := bind_ok.mp hr₂
    obtain ⟨hcheck, rfl⟩ := lift_ok.mp hy
    have he' := he.trans (Emitted.perform he.here hr₃)
    have hext := Emitted.module he.here (emitting_store v p.1) hr₃
    refine ⟨_, b, _, he'.here, he'.loops, fun m g hm hg => ?_⟩
    have hslot : g.HasSlot (Mark.of s.scope f b k) p.2 :=
      getElem?_of_extended hg.slots (hasSlot_addSlot s.scope b k p.2)
    have hholds : g.Holds (Mark.of s.scope f b k) (c ++ [.store v p.1]) :=
      Function.Holds.mono (holds_emit hat.block s.scope _ r) hg
    rw [hp] at hholds
    rw [he'.scope, Mark.of_emit, withSlot, Mark.of_addSlot]
    simpa using Lays.initialise hkind hname htype hvoid hslot (hc m (hext.trans hm))
      (checkStore_ok hcheck) hholds
  · cases hr

theorem assignedSlot_at {p : Value × Ty} (h : s.At id f b k) (hr : assignedSlot site s = .ok p t) :
    ∃ f₁, t.At id f₁ b k ∧ t.loops = s.loops ∧ f.Extends f₁ ∧
      ∀ g, f₁.slots <+: g.slots → f₁.seeds <+: g.seeds →
        Assigns g site.name (Mark.of s.scope f b k) p.1 p.2 (Mark.of t.scope f₁ b k) := by
  rcases assignedSlot_ok hr with ⟨hl, rfl⟩ | ⟨v, hl, hp⟩
  · exact ⟨f, h, rfl, .refl f, fun g _ _ => .slot hl⟩
  · obtain ⟨id', f', hin, -, rfl, rfl⟩ := promote_ok hp
    obtain ⟨rfl, rfl⟩ := h.toIn.unique hin
    have hin := h.toIn.put ((f'.addSlot v.ty).addSeed v (.reg f'.registers (.ptr v.ty)))
    refine ⟨_, ⟨⟨h.function, hin.found⟩, h.cursor, h.block⟩, rfl, ?_, fun g hs hd => ?_⟩
    · exact (f'.extends_addSlot v.ty).trans (Function.extends_addSeed _ _ _)
    · rw [withPromoted, Mark.of_promote]
      exact .promote hl (getElem?_of_extended hs (hasSlot_addSlot s.scope b k v.ty))
        (getElem?_of_extended hd (hasSeed_promote s.scope b k v))

theorem assignment_ends {op rhs : Tree} {update : Update} {p : Value} {ty : Ty} {f₁ : Function}
    {c : List Instr} {v : Value} (hkind : site.kind = .assignment) (hop : op.kind = .identifier)
    (hupdate : Update.ofSite op.site = .ok update) (hloops : t.loops = s.loops)
    (htarget : ∀ g, f₁.slots <+: g.slots → f₁.seeds <+: g.seeds →
      Assigns g site.name (Mark.of s.scope f b k) p ty (Mark.of t.scope f₁ b k))
    (hk : f₁.bodies[b]? = some k) (he : Emitted id f₁ b k t u (.load f₁.registers ty p :: c ++
      update.code (.reg f₁.registers ty) v p r) (update.next r))
    (hc : ∀ m, u.module.Extends m → Emits m t.scope (.one rhs) (f₁.registers + 1) c [v] r)
    (hfits : v.ty = ty) :
    LaidOut (.one (.node site [op, rhs])) id f b k s
      { u with scope := u.scope.bind site.name (.slot p ty) } := by
  have hat := he.here
  refine ⟨_, b, _, ⟨⟨hat.function, hat.found⟩, hat.cursor, hat.block⟩, he.loops.trans hloops,
    fun m g hm hg => ?_⟩
  have hholds := Function.Holds.mono (holds_emit hk t.scope _ _) hg
  rw [show Mark.of (u.scope.bind site.name (.slot p ty)) _ b _ =
      (Mark.of u.scope _ b _).rebind site.name p ty from rfl, Mark.of_emit, he.scope]
  exact .assign hkind hop hupdate (htarget g hg.slots hg.seeds) (hc m hm) hfits hholds

theorem assignment_lays (hkind : site.kind = .assignment) (h : s.At id f b k)
    (hr : assignment site ts s = .ok x u) : LaidOut (.one (.node site ts)) id f b k s u := by
  unfold assignment at hr
  split at hr
  · rename_i op rhs
    obtain ⟨_, t₁, ht₁, hr₁⟩ := bind_ok.mp hr
    obtain ⟨hreq, rfl⟩ := lift_ok.mp ht₁
    obtain ⟨update, t₂, ht₂, hr₂⟩ := bind_ok.mp hr₁
    obtain ⟨hupdate, rfl⟩ := lift_ok.mp ht₂
    obtain ⟨p, t₃, ht₃, hr₃⟩ := bind_ok.mp hr₂
    obtain ⟨f₁, hat, hloops, -, htarget⟩ := assignedSlot_at h ht₃
    obtain ⟨old, t₄, ht₄, hr₄⟩ := bind_ok.mp hr₃
    obtain ⟨rfl, he₁⟩ := Emitted.define hat ht₄
    obtain ⟨new, t₅, ht₅, hr₅⟩ := bind_ok.mp hr₄
    obtain ⟨c, r, he₂, hc⟩ := expression_emits rhs he₁.here ht₅
    rw [he₁.scope] at hc
    obtain ⟨_, t₆, ht₆, hr₆⟩ := bind_ok.mp hr₅
    obtain ⟨hcheck, rfl⟩ := lift_ok.mp ht₆
    have hfits := checkStore_ok hcheck
    have he := he₁.trans he₂
    cases update with
    | replace =>
      obtain ⟨_, t₇, ht₇, hr₇⟩ := bind_ok.mp hr₆
      cases ht₇
      obtain ⟨_, t₈, ht₈, hr₈⟩ := bind_ok.mp hr₇
      cases hr₈
      have he' := he.trans (Emitted.perform he.here ht₈)
      have hext := Emitted.module he.here (emitting_store _ _) ht₈
      exact assignment_ends hkind (require_ok hreq) hupdate hloops htarget hat.block he'
        (fun m hm => hc m (hext.trans hm)) hfits
    | combine op =>
      obtain ⟨_, t₇, ht₇, hr₇⟩ := bind_ok.mp hr₆
      obtain ⟨rfl, he₃⟩ := Emitted.define he.here ht₇
      obtain ⟨_, t₈, ht₈, hr₈⟩ := bind_ok.mp hr₇
      cases hr₈
      have he' := he.trans (he₃.trans (Emitted.perform he₃.here ht₈))
      have hext := (Emitted.module he.here (emitting_binary _ _ _) ht₇).trans
        (Emitted.module he₃.here (emitting_store _ _) ht₈)
      exact assignment_ends hkind (require_ok hreq) hupdate hloops htarget hat.block he'
        (fun m hm => hc m (hext.trans hm)) hfits
  · cases hr

theorem returnStatement_lays (hkind : site.kind = .returnStatement) (h : s.At id f b k)
    (hr : returnStatement site ts s = .ok x u) : LaidOut (.one (.node site ts)) id f b k s u := by
  unfold returnStatement at hr
  split at hr
  · have hclosed := terminate_closes h hr
    refine ⟨_, b, _, hclosed.here, hclosed.loops, fun m g _ hg => ?_⟩
    rw [hclosed.scope, Mark.of_close]
    exact .returnNone hkind ((ends_close h.block s.scope _).mono hg)
  · obtain ⟨v, t, ht, hr₁⟩ := bind_ok.mp hr
    obtain ⟨c, r, he, hc⟩ := expression_emits _ h ht
    have hclosed := terminate_closes he.here hr₁
    refine ⟨_, b, _, hclosed.here, hclosed.loops.trans he.loops, fun m g hm hg => ?_⟩
    have hholds := (holds_emit h.block s.scope c r).mono (hclosed.grows.trans hg)
    have hends := (ends_close he.here.block s.scope (.ret (some v))).mono hg
    rw [hclosed.scope, he.scope, Mark.of_close, Mark.of_emit]
    rw [Mark.of_emit] at hends
    exact .returnValue hkind (hc m (hclosed.module.trans hm)) hholds hends
  · cases hr

theorem jump_lays {outside : Cause} {target : LoopTargets → Nat} (h : s.At id f b k)
    (hr : jump site outside target ts s = .ok x u) :
    ts = [] ∧ ∃ l ls, s.loops = l :: ls ∧ Closed id f b k s u (.br (target l)) := by
  unfold jump at hr
  split at hr
  · obtain ⟨l, t, ht, hr₁⟩ := bind_ok.mp hr
    cases ht
    cases hl : s.loops with
    | nil =>
      simp only [hl] at hr₁
      cases hr₁
    | cons l ls =>
      simp only [hl] at hr₁
      exact ⟨rfl, l, ls, rfl, terminate_closes h hr₁⟩
  · cases hr

theorem functionCall_lays {out : Option Value} (hkind : site.kind = .functionCall)
    (h : s.At id f b k) (hr : functionCall (.node site ts) s = .ok out u) :
    LaidOut (.one (.node site ts)) id f b k s u := by
  obtain ⟨c, r, he, hc⟩ := functionCall_emits hkind (fun t _ => expression_emits t) h hr
  refine ⟨_, b, _, he.here, he.loops, fun m g hm hg => ?_⟩
  rw [he.scope, Mark.of_emit]
  exact .call hkind (hc m hm) ((holds_emit h.block s.scope c r).mono hg)

/-! ## Blocks -/

def Fresh (f : Function) (c : Nat) : Prop :=
  ∃ l, f.bodies[c]? = some l ∧ l.instrs = [] ∧ l.terminator = none

theorem Fresh.lt {c : Nat} (h : Fresh f c) : c < f.bodies.length := by
  obtain ⟨l, hl, -⟩ := h
  exact (List.getElem?_eq_some_iff.mp hl).1

theorem Fresh.congr {c : Nat} (h : Fresh f c) (hg : g.bodies[c]? = f.bodies[c]?) : Fresh g c := by
  obtain ⟨l, hl, hi, ht⟩ := h
  exact ⟨l, hg.trans hl, hi, ht⟩

theorem Fresh.addBlock {c : Nat} (h : Fresh f c) (label : String) : Fresh (f.addBlock label) c :=
  h.congr (by rw [Function.bodies_addBlock, if_neg (by have := h.lt; omega)])

theorem Fresh.close {c : Nat} (h : Fresh f c) (hc : b ≠ c) (x : Terminator) :
    Fresh (f.close b x) c :=
  h.congr (by rw [Function.bodies_close, if_neg hc])

theorem fresh_addBlock (f : Function) (label : String) :
    Fresh (f.addBlock label) f.bodies.length := by
  have hb := f.bodies_addBlock label f.bodies.length
  rw [if_pos rfl] at hb
  exact ⟨_, hb, rfl, rfl⟩

structure Widened (id : Nat) (f : Function) (b : Nat) (k : Block) (s t : LowerState) (n : Nat)
    (f' : Function) : Prop where
  here : t.At id f' b k
  scope : t.scope = s.scope
  loops : t.loops = s.loops
  module : s.module.Extends t.module
  grows : f.Extends f'
  length : f'.bodies.length = f.bodies.length + n
  fresh : ∀ j, f.bodies.length ≤ j → j < f.bodies.length + n → Fresh f' j
  mark : ∀ scope c l, Mark.of scope f' c l = (Mark.of scope f c l).grow n

theorem Widened.refl (h : s.At id f b k) : Widened id f b k s s 0 f where
  here := h
  scope := rfl
  loops := rfl
  module := .refl _
  grows := .refl f
  length := rfl
  fresh j hj hj' := by omega
  mark _ _ _ := rfl

theorem Widened.newBlock {label : String} {n c : Nat} {f' : Function}
    (h : Widened id f b k s t n f') (hr : newBlock label t = .ok c u) :
    c = f.bodies.length + n ∧ Widened id f b k s u (n + 1) (f'.addBlock label) := by
  obtain ⟨id', f'', hin, rfl, rfl⟩ := newBlock_ok.mp hr
  obtain ⟨rfl, rfl⟩ := h.here.toIn.unique hin
  have hput := h.here.toIn.put (f''.addBlock label)
  have hlt := (List.getElem?_eq_some_iff.mp h.here.block).1
  have hgrows := f''.extends_addBlock label
  refine ⟨h.length, ⟨⟨hput.function, hput.found⟩, h.here.cursor, ?_⟩, h.scope, h.loops,
    h.module.trans (Module.extends_setFunction h.here.found hgrows), h.grows.trans hgrows, ?_, ?_,
    fun scope c l => ?_⟩
  · rw [Function.bodies_addBlock, if_neg (by omega), h.here.block]
  · rw [Function.length_addBlock, h.length, Nat.add_assoc]
  · intro j hj hj'
    by_cases hlast : j = f''.bodies.length
    · exact hlast ▸ fresh_addBlock f'' label
    · have hlen := h.length
      exact (h.fresh j hj (by omega)).addBlock label
  · rw [Mark.of_addBlock, h.mark]
    rfl

/-- One arm of a conditional or a loop: its statements, started in block `y`
inside the loops `ls`, and the jump to block `e` behind them. -/
structure ArmLaid (p : Piece) (ls : List LoopTargets) (id : Nat) (f : Function)
    (s u : LowerState) (y e : Nat) (f' : Function) (μ : Mark) : Prop where
  inside : u.In id f'
  loops : u.loops = s.loops
  grows : f.Extends f'
  module : s.module.Extends u.module
  elsewhere : ∀ j, j < f.bodies.length → y ≠ j → f'.bodies[j]? = f.bodies[j]?
  mark : ∀ j l, l.instrs = [] → l.terminator = none → Mark.of u.scope f' j l = μ.head j
  code : ∀ m g, u.module.Extends m → f'.Extends g → ∀ l, f.bodies[y]? = some l →
    Lays m g p ls (Mark.of s.scope f y l) μ ∧ g.Falls μ e

theorem fallThrough_at {e : Nat} (h : s.At id f b k) (hr : fallThrough e s = .ok x t) :
    k.terminated = true ∧ t = s ∨ k.terminated = false ∧ Closed id f b k s t (.br e) := by
  obtain ⟨c, w, hw, hr₁⟩ := bind_ok.mp hr
  obtain ⟨id', f', b', k', hat, rfl, rfl⟩ := terminated_ok.mp hw
  obtain ⟨rfl, rfl, rfl, rfl⟩ := h.unique hat
  cases hk : k'.terminated with
  | true =>
    simp only [hk] at hr₁
    cases hr₁
    exact .inl ⟨rfl, rfl⟩
  | false =>
    simp only [hk] at hr₁
    exact .inr ⟨rfl, terminate_closes h hr₁⟩

theorem armLaid_of {p : Piece} {y e : Nat} {l : Block} {w : LowerState} (hy : f.bodies[y]? = some l)
    (ht : t.At id f y l) (hscope : t.scope = s.scope) (hmod : t.module = s.module)
    (hsteps : Steps f.bodies.length t w) (hlaid : LaidOut p id f y l t w)
    (hr : fallThrough e { w with loops := s.loops } = .ok x u) :
    ∃ f' μ, ArmLaid p t.loops id f s u y e f' μ := by
  obtain ⟨f₁, b₁, k₁, hat, hl, hcode⟩ := hlaid
  obtain ⟨f₁', hkept⟩ := hsteps.kept ht.toIn (Nat.le_refl _)
  obtain ⟨-, rfl⟩ := hat.toIn.unique hkept.inside
  have helse : ∀ j, j < f.bodies.length → y ≠ j → f₁'.bodies[j]? = f.bodies[j]? := by
    intro j hj hne
    refine hkept.elsewhere j hj ?_
    rw [ht.cursor, ne_eq, Option.some.injEq]
    exact hne
  have haway : ∀ j, j < f.bodies.length → y ≠ j → b₁ ≠ j := by
    intro j hj hne
    rcases hkept.cursor with hb | ⟨c, hc, hb⟩
    · rw [hat.cursor, ht.cursor, Option.some.injEq] at hb
      omega
    · rw [hat.cursor, Option.some.injEq] at hb
      omega
  have hext : s.module.Extends w.module := hmod ▸ hkept.extends ht.toIn
  have hat' : LowerState.At { w with loops := s.loops } id f₁' b₁ k₁ :=
    ⟨⟨hat.function, hat.found⟩, hat.cursor, hat.block⟩
  rcases fallThrough_at hat' hr with ⟨hended, rfl⟩ | ⟨-, hclosed⟩
  · refine ⟨f₁', Mark.of w.scope f₁' b₁ k₁, hat'.toIn, rfl, hkept.grows, hext, helse,
      fun j l' hi ht => Mark.of_head _ _ _ _ hi ht, fun m g hm hg l' hl' => ?_⟩
    obtain rfl : l = l' := by simpa [hy] using hl'
    have hlays := hcode m g hm hg
    rw [hscope] at hlays
    exact ⟨hlays, fun hf => by simp [Mark.of, hended] at hf⟩
  · refine ⟨_, Mark.of w.scope f₁' b₁ k₁, hclosed.here.toIn, hclosed.loops,
      hkept.grows.trans hclosed.grows, hext.trans hclosed.module, fun j hj hne => ?_,
      fun j l' hi ht => ?_, fun m g hm hg l' hl' => ?_⟩
    · rw [Function.bodies_close, if_neg (haway j hj hne), helse j hj hne]
    · rw [hclosed.scope, Mark.of_head _ _ b₁ { k₁ with terminator := some (.br e) } hi ht,
        Mark.of_close]
      rfl
    · obtain rfl : l = l' := by simpa [hy] using hl'
      have hlays := hcode m g (hclosed.module.trans hm) (hclosed.grows.trans hg)
      rw [hscope] at hlays
      exact ⟨hlays, fun _ => (ends_close hat.block w.scope (.br e)).mono hg⟩

def StatementsLay (ts : List Tree) : Prop :=
  ∀ {s u : LowerState} {id b : Nat} {f : Function} {k : Block} {x : Unit}, s.At id f b k →
    statements ts s = .ok x u → LaidOut (.many ts) id f b k s u

def StatementLays (t : Tree) : Prop :=
  ∀ {s u : LowerState} {id b : Nat} {f : Function} {k : Block} {x : Unit}, s.At id f b k →
    k.terminator = none → statement t s = .ok x u → LaidOut (.one t) id f b k s u

theorem block_ok {y : Nat} {c : Tree} (h : block y c s = .ok x u) :
    c.kind = .block ∧ ∃ t, setBlock y s = .ok () t ∧ statements c.children t = .ok x u := by
  cases c with
  | node site ts =>
    rw [block.eq_1] at h
    split at h
    · obtain ⟨⟨⟩, t, ht, h₁⟩ := bind_ok.mp h
      exact ⟨‹_›, t, ht, h₁⟩
    · cases h

theorem setBlock_at {y : Nat} {l : Block} (hin : s.In id f) (hy : f.bodies[y]? = some l)
    (h : setBlock y s = .ok x t) :
    t.At id f y l ∧ t.scope = s.scope ∧ t.loops = s.loops ∧ t.module = s.module := by
  cases h
  exact ⟨⟨⟨hin.function, hin.found⟩, rfl, hy⟩, rfl, rfl, rfl⟩

theorem grown_at (h : s.At id f b k) : Grown f.bodies.length s := ⟨id, f, h.toIn, Nat.le_refl _⟩

theorem armLaid_block {y e : Nat} {c : Tree} {w : LowerState} {x x' : Unit}
    (ih : StatementsLay c.children) (hin : s.In id f) (hy : y < f.bodies.length)
    (hr : block y c s = .ok x w) (hr' : fallThrough e w = .ok x' u) :
    c.kind = .block ∧ ∃ f' μ, ArmLaid (.many c.children) s.loops id f s u y e f' μ := by
  obtain ⟨hkind, t, ht, hstmts⟩ := block_ok hr
  have hy' := List.getElem?_eq_getElem hy
  obtain ⟨hat, hscope, hloops, hmod⟩ := setBlock_at hin hy' ht
  have hlaid := ih hat hstmts
  have hsteps :=
    (steps_statements (fun t _ _ hn => steps_statement t hn) (grown_at hat)).of_ok hstmts
  have hw : { w with loops := s.loops } = w := by
    obtain ⟨_, _, _, -, hl, -⟩ := hlaid
    rw [← hloops, ← hl]
  rw [← hw] at hr'
  rw [← hloops]
  exact ⟨hkind, armLaid_of hy' hat hscope hmod hsteps hlaid hr'⟩

/-! ## Conditionals -/

theorem setBlock_end {p : Piece} {id : Nat} {e y c : Nat} {ls : List LoopTargets} {w : LowerState}
    {f' : Function} {μ : Mark} (harm : ArmLaid p ls id f s w y c f' μ) (he : Fresh f e)
    (hne : y ≠ e) (hr : setBlock e w = .ok x u) :
    ∃ l, u.At id f' e l ∧ u.loops = s.loops ∧ u.module = w.module ∧
      Mark.of u.scope f' e l = μ.head e := by
  obtain ⟨l, hl, hi, hterm⟩ := he.congr (harm.elsewhere e he.lt hne)
  obtain ⟨hat, hscope, hloops, hmod⟩ := setBlock_at harm.inside hl hr
  exact ⟨l, hat, hloops.trans harm.loops, hmod, by rw [hscope, harm.mark e l hi hterm]⟩

structure Branched (id : Nat) (f : Function) (b : Nat) (k : Block) (s t : LowerState) (n : Nat)
    (x : Terminator) (f' : Function) : Prop where
  inside : t.In id f'
  scope : t.scope = s.scope
  loops : t.loops = s.loops
  module : s.module.Extends t.module
  grows : f.Extends f'
  length : f'.bodies.length = f.bodies.length + n
  fresh : ∀ j, f.bodies.length ≤ j → j < f.bodies.length + n → Fresh f' j
  mark : ∀ scope j l, l.instrs = [] → l.terminator = none →
    Mark.of scope f' j l = ((Mark.of scope f b k).grow n).head j
  ends : ∀ scope, f'.Ends (Mark.of scope f b k) x

theorem Widened.terminate {n : Nat} {f' : Function} {x : Terminator} {y : Unit}
    (h : Widened id f b k s t n f') (hb : b < f.bodies.length)
    (hr : inBlock (fun b => Build.terminate b x) t = .ok y u) :
    Branched id f b k s u n x (f'.close b x) := by
  have hclosed := terminate_closes h.here hr
  refine ⟨hclosed.here.toIn, hclosed.scope.trans h.scope, hclosed.loops.trans h.loops,
    h.module.trans hclosed.module, h.grows.trans hclosed.grows, ?_, fun j hj hj' => ?_,
    fun scope j l hi ht => ?_, fun scope => ends_close h.here.block scope x⟩
  · rw [Function.length_close, h.length]
  · exact (h.fresh j hj hj').close (by omega) x
  · rw [Mark.of_head _ _ b { k with terminator := some x } hi ht, Mark.of_close, h.mark]
    rfl

theorem ifThen_lays {test yes : Tree} (hkind : site.kind = .statement) (hname : site.name = "if")
    (ih : StatementsLay yes.children) (h : s.At id f b k)
    (hr : conditional test (fun b => block b yes) none s = .ok x u) :
    LaidOut (.one (.node site [test, yes])) id f b k s u := by
  rw [conditional_none] at hr
  obtain ⟨v, t₁, ht₁, hr₁⟩ := bind_ok.mp hr
  obtain ⟨c, r, he, hc⟩ := condition_emits h ht₁
  have hn : (f.emit b c r).bodies.length = f.bodies.length := length_emit ..
  obtain ⟨y, t₂, ht₂, hr₂⟩ := bind_ok.mp hr₁
  obtain ⟨hyn, hw₁⟩ := (Widened.refl he.here).newBlock ht₂
  obtain ⟨e, t₃, ht₃, hr₃⟩ := bind_ok.mp hr₂
  obtain ⟨hen, hw₂⟩ := hw₁.newBlock ht₃
  obtain rfl : y = f.bodies.length := hyn.trans hn
  obtain rfl : e = f.bodies.length + 1 := by rw [hen, hn]
  obtain ⟨_, t₄, ht₄, hr₄⟩ := bind_ok.mp hr₃
  have hb := (List.getElem?_eq_some_iff.mp he.here.block).1
  have hbr := hw₂.terminate hb ht₄
  obtain ⟨_, t₅, ht₅, hr₅⟩ := bind_ok.mp hr₄
  obtain ⟨_, t₆, ht₆, hr₆⟩ := bind_ok.mp hr₅
  have hfresh := hbr.fresh
  generalize Function.close _ _ _ = f₄ at hbr hfresh
  rw [hn] at hfresh
  obtain ⟨ly, hly, hi, hterm⟩ := hfresh f.bodies.length (by omega) (by omega)
  have hlt := (List.getElem?_eq_some_iff.mp hly).1
  obtain ⟨hyes, f₅, μ, harm⟩ := armLaid_block ih hbr.inside hlt ht₅ ht₆
  obtain ⟨l, hat, hloops, hmod, hmark⟩ :=
    setBlock_end harm (hfresh _ (by omega) (by omega)) (by omega) hr₆
  refine ⟨f₅, _, l, hat, hloops.trans (hbr.loops.trans he.loops), fun m g hm hg => ?_⟩
  obtain ⟨hin, hfalls⟩ := harm.code m g (hmod ▸ hm) hg ly hly
  have hgrows := harm.grows.trans hg
  have hholds := (holds_emit h.block s.scope c r).mono (hbr.grows.trans hgrows)
  have hends := (hbr.ends s.scope).mono hgrows
  rw [hbr.mark _ _ _ hi hterm, hbr.scope, hbr.loops, he.scope, he.loops] at hin
  rw [Mark.of_emit] at hin hends
  rw [hmark]
  exact .ifThen hkind hname hyes (hc m (hbr.module.trans (harm.module.trans (hmod ▸ hm)))) hholds
    hends hin hfalls

theorem armLaid_else {z e : Nat} {no : Tree} {w : LowerState} {x x' : Unit}
    (ihs : StatementsLay no.children) (ih : StatementLays no) (hin : s.In id f)
    (hz : Fresh f z) (hr : elseArm no z s = .ok x w) (hr' : fallThrough e w = .ok x' u) :
    (no.kind = .block ∨ no.kind = .statement ∧ no.name = "if") ∧
      ∃ f' μ, ArmLaid no.arm s.loops id f s u z e f' μ := by
  unfold elseArm at hr
  split at hr
  · rename_i hblock
    obtain ⟨-, f', μ, harm⟩ := armLaid_block ihs hin hz.lt hr hr'
    refine ⟨.inl hblock, f', μ, ?_⟩
    rwa [Tree.arm, if_pos hblock]
  · rename_i hblock
    split at hr
    · obtain ⟨⟨⟩, t, ht, hr₁⟩ := bind_ok.mp hr
      obtain ⟨l, hl, hi, hterm⟩ := hz
      obtain ⟨hat, hscope, hloops, hmod⟩ := setBlock_at hin hl ht
      have hlaid := ih hat hterm hr₁
      have hsteps := (steps_statement no (grown_at hat)).of_ok hr₁
      have hw : { w with loops := s.loops } = w := by
        obtain ⟨_, _, _, -, hl, -⟩ := hlaid
        rw [← hloops, ← hl]
      rw [← hw] at hr'
      rw [← hloops, Tree.arm, if_neg hblock]
      exact ⟨.inr ‹_›, armLaid_of hl hat hscope hmod hsteps hlaid hr'⟩
    · cases hr

theorem ArmLaid.fresh {p : Piece} {ls : List LoopTargets} {y e j : Nat} {f' : Function} {μ : Mark}
    (h : ArmLaid p ls id f s u y e f' μ) (hj : Fresh f j) (hne : y ≠ j) : Fresh f' j :=
  hj.congr (h.elsewhere j hj.lt hne)

theorem ifElse_lays {test yes no : Tree} (hkind : site.kind = .statement) (hname : site.name = "if")
    (ih : StatementsLay yes.children) (ihs : StatementsLay no.children) (ihno : StatementLays no)
    (h : s.At id f b k)
    (hr : conditional test (fun b => block b yes) (some (elseArm no)) s = .ok x u) :
    LaidOut (.one (.node site [test, yes, no])) id f b k s u := by
  rw [conditional_some] at hr
  obtain ⟨v, t₁, ht₁, hr₁⟩ := bind_ok.mp hr
  obtain ⟨c, r, he, hc⟩ := condition_emits h ht₁
  have hn : (f.emit b c r).bodies.length = f.bodies.length := length_emit ..
  obtain ⟨y, t₂, ht₂, hr₂⟩ := bind_ok.mp hr₁
  obtain ⟨hyn, hw₁⟩ := (Widened.refl he.here).newBlock ht₂
  obtain ⟨e, t₃, ht₃, hr₃⟩ := bind_ok.mp hr₂
  obtain ⟨hen, hw₂⟩ := hw₁.newBlock ht₃
  obtain ⟨z, t₄, ht₄, hr₄⟩ := bind_ok.mp hr₃
  obtain ⟨hzn, hw₃⟩ := hw₂.newBlock ht₄
  obtain rfl : y = f.bodies.length := hyn.trans hn
  obtain rfl : e = f.bodies.length + 1 := by rw [hen, hn]
  obtain rfl : z = f.bodies.length + 2 := by rw [hzn, hn]
  obtain ⟨_, t₅, ht₅, hr₅⟩ := bind_ok.mp hr₄
  have hb := (List.getElem?_eq_some_iff.mp he.here.block).1
  have hbr := hw₃.terminate hb ht₅
  obtain ⟨_, t₆, ht₆, hr₆⟩ := bind_ok.mp hr₅
  obtain ⟨_, t₇, ht₇, hr₇⟩ := bind_ok.mp hr₆
  obtain ⟨_, t₈, ht₈, hr₈⟩ := bind_ok.mp hr₇
  obtain ⟨_, t₉, ht₉, hr₉⟩ := bind_ok.mp hr₈
  have hfresh := hbr.fresh
  generalize Function.close _ _ _ = f₅ at hbr hfresh
  rw [hn] at hfresh
  obtain ⟨ly, hly, hi, hterm⟩ := hfresh f.bodies.length (by omega) (by omega)
  have hlt := (List.getElem?_eq_some_iff.mp hly).1
  obtain ⟨hyes, f₇, μ₁, harm⟩ := armLaid_block ih hbr.inside hlt ht₆ ht₇
  -- The first arm leaves the two blocks that wait alone.
  have hz := harm.fresh (hfresh (f.bodies.length + 2) (by omega) (by omega)) (by omega)
  have he' := harm.fresh (hfresh (f.bodies.length + 1) (by omega) (by omega)) (by omega)
  obtain ⟨hno, f₉, μ₂, harm'⟩ := armLaid_else ihs ihno harm.inside hz ht₈ ht₉
  obtain ⟨l, hat, hloops, hmod, hmark⟩ := setBlock_end harm' he' (by omega) hr₉
  refine ⟨f₉, _, l, hat, hloops.trans (harm.loops.trans (hbr.loops.trans he.loops)),
    fun m g hm hg => ?_⟩
  have hgrows' := harm'.grows.trans hg
  have hm' := harm'.module.trans (hmod ▸ hm)
  obtain ⟨hin, hfalls⟩ := harm.code m g hm' hgrows' ly hly
  obtain ⟨lz, hlz, hiz, htermz⟩ := hz
  obtain ⟨hin', hfalls'⟩ := harm'.code m g (hmod ▸ hm) hg lz hlz
  have hgrows := harm.grows.trans hgrows'
  have hholds := (holds_emit h.block s.scope c r).mono (hbr.grows.trans hgrows)
  have hends := (hbr.ends s.scope).mono hgrows
  rw [hbr.mark _ _ _ hi hterm, hbr.scope, hbr.loops, he.scope, he.loops] at hin
  rw [harm.mark _ _ hiz htermz, harm.loops, hbr.loops, he.loops] at hin'
  rw [Mark.of_emit] at hin hends
  rw [hmark]
  exact .ifElse hkind hname hyes hno (hc m (hbr.module.trans (harm.module.trans hm'))) hholds
    hends hin hfalls hin' hfalls'

/-! ## Loops -/

theorem inLoop_ok {l : LoopTargets} {act : Lower Unit} (h : inLoop l act s = .ok x u) :
    ∃ w, act { s with loops := l :: s.loops } = .ok x w ∧ u = { w with loops := w.loops.tail } := by
  obtain ⟨_, t, ht, h₁⟩ := bind_ok.mp h
  cases ht
  exact ensuring_ok.mp h₁

theorem armLaid_body {l : LoopTargets} {y e : Nat} {c : Tree} {w : LowerState} {x x' : Unit}
    (ih : StatementsLay c.children) (hin : s.In id f) (hy : y < f.bodies.length)
    (hr : inLoop l (block y c) s = .ok x w) (hr' : fallThrough e w = .ok x' u) :
    c.kind = .block ∧ ∃ f' μ, ArmLaid (.many c.children) (l :: s.loops) id f s u y e f' μ := by
  obtain ⟨v, hv, rfl⟩ := inLoop_ok hr
  obtain ⟨hkind, t, ht, hstmts⟩ := block_ok hv
  have hy' := List.getElem?_eq_getElem hy
  have hin' : LowerState.In { s with loops := l :: s.loops } id f := ⟨hin.function, hin.found⟩
  obtain ⟨hat, hscope, hloops, hmod⟩ := setBlock_at hin' hy' ht
  have hlaid := ih hat hstmts
  have hsteps :=
    (steps_statements (fun t _ _ hn => steps_statement t hn) (grown_at hat)).of_ok hstmts
  have hw : v.loops.tail = s.loops := by
    obtain ⟨_, _, _, -, hl, -⟩ := hlaid
    rw [hl, hloops]
    rfl
  rw [hw] at hr'
  rw [show l :: s.loops = t.loops from hloops.symm]
  exact ⟨hkind, armLaid_of hy' hat hscope hmod hsteps hlaid hr'⟩

theorem loop_lays {test body : Tree} (hkind : site.kind = .whileStatement)
    (ih : StatementsLay body.children) (h : s.At id f b k)
    (hr : loop test (fun b => block b body) s = .ok x u) :
    LaidOut (.one (.node site [test, body])) id f b k s u := by
  unfold loop at hr
  obtain ⟨c, t₁, ht₁, hr₁⟩ := bind_ok.mp hr
  obtain ⟨hcn, hw₁⟩ := (Widened.refl h).newBlock ht₁
  obtain ⟨y, t₂, ht₂, hr₂⟩ := bind_ok.mp hr₁
  obtain ⟨hyn, hw₂⟩ := hw₁.newBlock ht₂
  obtain ⟨e, t₃, ht₃, hr₃⟩ := bind_ok.mp hr₂
  obtain ⟨hen, hw₃⟩ := hw₂.newBlock ht₃
  obtain rfl : c = f.bodies.length := hcn
  obtain rfl : y = f.bodies.length + 1 := hyn
  obtain rfl : e = f.bodies.length + 2 := hen
  obtain ⟨_, t₄, ht₄, hr₄⟩ := bind_ok.mp hr₃
  have hbr := hw₃.terminate (List.getElem?_eq_some_iff.mp h.block).1 ht₄
  have hfresh := hbr.fresh
  generalize Function.close _ _ _ = f₄ at hbr hfresh
  obtain ⟨_, t₅, ht₅, hr₅⟩ := bind_ok.mp hr₄
  obtain ⟨lc, hlc, hic, htermc⟩ := hfresh f.bodies.length (by omega) (by omega)
  obtain ⟨hat₅, hs₅, hl₅, hm₅⟩ := setBlock_at hbr.inside hlc ht₅
  obtain ⟨v, t₆, ht₆, hr₆⟩ := bind_ok.mp hr₅
  obtain ⟨code, r, he, hc⟩ := condition_emits hat₅ ht₆
  have hgrows₅ := he.grows hat₅ ((emitting_condition test).run ht₆)
  obtain ⟨_, t₇, ht₇, hr₇⟩ := bind_ok.mp hr₆
  have hbr' := (Widened.refl he.here).terminate (List.getElem?_eq_some_iff.mp he.here.block).1 ht₇
  have hlater : ∀ j, f.bodies.length < j → j < f.bodies.length + 3 → Fresh ((f₄.emit f.bodies.length
      code r).close f.bodies.length (.condBr v (f.bodies.length + 1) (f.bodies.length + 2))) j := by
    intro j hj hj'
    refine Fresh.close ((hfresh j (by omega) hj').congr ?_) (by omega) _
    simp [Function.emit, Nat.ne_of_lt hj]
  generalize Function.close _ _ _ = f₇ at hbr' hlater
  obtain ⟨_, t₈, ht₈, hr₈⟩ := bind_ok.mp hr₇
  obtain ⟨_, t₉, ht₉, hr₉⟩ := bind_ok.mp hr₈
  obtain ⟨ly, hly, hi, hterm⟩ := hlater (f.bodies.length + 1) (by omega) (by omega)
  have hlt := (List.getElem?_eq_some_iff.mp hly).1
  obtain ⟨hbody, f₉, μ, harm⟩ := armLaid_body ih hbr'.inside hlt ht₈ ht₉
  obtain ⟨l, hat, hloops, hmod, hmark⟩ :=
    setBlock_end harm (hlater (f.bodies.length + 2) (by omega) (by omega)) (by omega) hr₉
  have hs₇ : t₇.scope = s.scope := hbr'.scope.trans (he.scope.trans (hs₅.trans hbr.scope))
  have hl₇ : t₇.loops = s.loops := hbr'.loops.trans (he.loops.trans (hl₅.trans hbr.loops))
  refine ⟨f₉, _, l, hat, hloops.trans hl₇, fun m g hm hg => ?_⟩
  obtain ⟨hin, hfalls⟩ := harm.code m g (hmod ▸ hm) hg ly hly
  have hgrows := harm.grows.trans hg
  have hholds := (holds_emit hlc s.scope code r).mono (hbr'.grows.trans hgrows)
  have hends := (hbr'.ends s.scope).mono hgrows
  have henters := (hbr.ends s.scope).mono (hgrows₅.trans (hbr'.grows.trans hgrows))
  have htests := hc m (hbr'.module.trans (harm.module.trans (hmod ▸ hm)))
  rw [hbr'.mark _ _ _ hi hterm, hs₇, hl₇, Mark.of_emit, hbr.mark _ _ _ hic htermc] at hin
  rw [Mark.of_emit, hbr.mark _ _ _ hic htermc] at hends
  rw [hbr.mark _ _ _ hic htermc] at hholds
  have hreg : f₄.registers = f.registers :=
    congrArg Mark.registers (hbr.mark s.scope f.bodies.length lc hic htermc)
  rw [hs₅, hbr.scope, hreg] at htests
  rw [hmark]
  exact .loop hkind hbody henters htests hholds hends hin hfalls

/-! ## Statements -/

theorem statements_lay (ih : ∀ t ∈ ts, StatementLays t) : StatementsLay ts := by
  induction ts with
  | nil =>
    intro s u id b f k x h hr
    rw [statements] at hr
    cases hr
    exact ⟨f, b, k, h, rfl, fun m g _ _ => .nil⟩
  | cons t ts ihs =>
    intro s u id b f k x h hr
    rw [statements] at hr
    obtain ⟨c, w, hw, hr₁⟩ := bind_ok.mp hr
    obtain ⟨id', f', b', k', hat, rfl, rfl⟩ := terminated_ok.mp hw
    obtain ⟨rfl, rfl, rfl, rfl⟩ := h.unique hat
    cases hk : k'.terminated with
    | true =>
      rw [if_pos hk] at hr₁
      cases hr₁
      refine ⟨f', b', k', ⟨⟨h.function, h.found⟩, h.cursor, h.block⟩, rfl, fun m g _ _ => ?_⟩
      exact .skip hk
    | false =>
      rw [if_neg (by simp [hk])] at hr₁
      obtain ⟨_, v, hv, hr₂⟩ := bind_ok.mp hr₁
      have hopen : k'.terminator = none := by simpa [Block.terminated] using hk
      obtain ⟨f₁, b₁, k₁, hat₁, hl₁, hcode₁⟩ := ih t (by simp) h hopen hv
      obtain ⟨f₂, b₂, k₂, hat₂, hl₂, hcode₂⟩ := ihs (fun t ht => ih t (by simp [ht])) hat₁ hr₂
      have hsteps := (steps_statements (fun t _ _ hn => steps_statement t hn)
        (grown_at hat₁)).of_ok hr₂
      obtain ⟨f₂', hkept⟩ := hsteps.kept hat₁.toIn (Nat.le_refl _)
      obtain ⟨-, rfl⟩ := hat₂.toIn.unique hkept.inside
      refine ⟨f₂', b₂, k₂, hat₂, hl₂.trans hl₁, fun m g hm hg => ?_⟩
      have hfirst := hcode₁ m g ((hkept.extends hat₁.toIn).trans hm) (hkept.grows.trans hg)
      have hrest := hcode₂ m g hm hg
      rw [hl₁] at hrest
      exact .cons hk hfirst hrest

theorem LaidOut.nested {p : Piece} (h : LaidOut p id f b k (deeper s) u) :
    LaidOut p id f b k s (shallower u) := by
  obtain ⟨f', b', k', hat, hl, hcode⟩ := h
  exact ⟨f', b', k', ⟨⟨hat.function, hat.found⟩, hat.cursor, hat.block⟩, hl, hcode⟩

/-- Every successful run of a statement from an open block lays it out. -/
theorem statement_lays (t : Tree) : StatementLays t ∧ StatementsLay t.children := by
  induction t using Tree.induct with
  | node site ts ih =>
    refine ⟨?_, statements_lay fun t ht => (ih t ht).1⟩
    intro s u id b f k x h ho hr
    obtain ⟨act, hform, heq⟩ := statement_form site ts
    rw [heq] at hr
    obtain ⟨-, w, hact, rfl⟩ := nested_ok.mp hr
    refine LaidOut.nested ?_
    replace h : (deeper s).At id f b k := ⟨⟨h.function, h.found⟩, h.cursor, h.block⟩
    cases hform with
    | declare hkind => exact variableDeclaration_lays hkind h hact
    | assign hkind => exact assignment_lays hkind h hact
    | returns hkind => exact returnStatement_lays hkind h hact
    | loop hkind test body =>
      obtain ⟨_, v, hv, hact₁⟩ := bind_ok.mp hact
      obtain ⟨-, rfl⟩ := lift_ok.mp hv
      exact loop_lays hkind (ih body (by simp)).2 h hact₁
    | ifThen hkind hname test yes =>
      obtain ⟨_, v, hv, hact₁⟩ := bind_ok.mp hact
      obtain ⟨-, rfl⟩ := lift_ok.mp hv
      exact ifThen_lays hkind hname (ih yes (by simp)).2 h hact₁
    | ifElse hkind hname test yes no =>
      obtain ⟨_, v, hv, hact₁⟩ := bind_ok.mp hact
      obtain ⟨-, rfl⟩ := lift_ok.mp hv
      have hno := ih no (by simp)
      exact ifElse_lays hkind hname (ih yes (by simp)).2 hno.2 hno.1 h hact₁
    | leave hkind hname ts =>
      obtain ⟨rfl, l, ls, hl, hclosed⟩ := jump_lays h hact
      refine ⟨_, b, _, hclosed.here, hclosed.loops, fun m g _ hg => ?_⟩
      rw [hclosed.scope, Mark.of_close, hl]
      exact .leave hkind hname ((ends_close h.block s.scope _).mono hg)
    | again hkind hname ts =>
      obtain ⟨rfl, l, ls, hl, hclosed⟩ := jump_lays h hact
      refine ⟨_, b, _, hclosed.here, hclosed.loops, fun m g _ hg => ?_⟩
      rw [hclosed.scope, Mark.of_close, hl]
      exact .again hkind hname ((ends_close h.block s.scope _).mono hg)
    | call hkind ts =>
      obtain ⟨out, v, hv, hact₁⟩ := bind_ok.mp hact
      cases hact₁
      exact functionCall_lays hkind h hv
    | block hkind ts =>
      obtain ⟨f', b', k', hat, hl, hcode⟩ := statements_lay (fun t ht => (ih t ht).1) h hact
      exact ⟨f', b', k', hat, hl, fun m g hm hg => .block hkind (hcode m g hm hg)⟩
    | refused => cases hact

end Lower

end TreeFlow
