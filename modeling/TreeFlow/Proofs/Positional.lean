import TreeFlow.Proofs.Run

/-!
# Lowering by position

The lowering once more, over flat functions and with every access to a list
spelled out. Children are read by index, behind a check of their number. The
entry block of a function is one list of instructions: a slot is inserted
behind the slots counted so far, and a seed behind the whole prologue. An
index or a position outside of its list stops the run, and that stop is not an
error of the lowering.
-/

set_option autoImplicit false

namespace TreeFlow

/-- The function with its prologue written into the entry block. Its lists of
slots and seeds remain as counts. -/
def Function.flat (f : Function) : Function := { f with bodies := f.blocks }

def Module.flat (m : Module) : Module := { m with functions := m.functions.map Function.flat }

theorem Tree.sizeOf_child {t c : Tree} (h : c ∈ t.children) : sizeOf c < sizeOf t := by
  cases t with
  | node site ts =>
    have hlt : sizeOf c < sizeOf ts := List.sizeOf_lt_of_mem h
    rw [Tree.node.sizeOf_spec]
    omega

theorem Tree.sizeOf_children (t : Tree) : sizeOf t.children < sizeOf t := by
  cases t
  simp only [Tree.children, Tree.node.sizeOf_spec]
  omega

theorem Tree.child_mem {t c : Tree} {i : Nat} {k : Kind} (h : t.child i k = .ok c) :
    c ∈ t.children := by
  unfold Tree.child at h
  cases hi : t.children[i]? with
  | none => simp [hi] at h
  | some d =>
    cases hr : t.site.require i k d with
    | error e => simp [hi, hr, Except.map] at h
    | ok u =>
      simp only [hi, hr, Except.map, Except.ok.injEq] at h
      exact h ▸ List.mem_of_getElem? hi

namespace Build

def register : Build Nat := fun f => .ok f.registers f.takeRegister

def setBodies (bodies : List Block) : Build Unit := fun f => .ok () { f with bodies }

def countSlot (s : Slot) : Build Value := fun f => .ok s.pointer { f with slots := f.slots ++ [s] }

def countSeed (s : Seed) : Build Unit := fun f => .ok () { f with seeds := f.seeds ++ [s] }

end Build

inductive Stop where
  | error (e : LowerError)
  | outside (position length : Nat)
  deriving DecidableEq, Repr

abbrev Positional := EStateM Stop LowerState

namespace Positional

variable {α : Type}

def of (x : Lower α) : Positional α := fun s =>
  match x s with
  | .ok a t => .ok a t
  | .error e t => .error (.error e) t

def check (x : Except LowerError α) : Positional α := of (Lower.lift x)

def fail (e : LowerError) : Positional α := of (throw e)

def read (xs : List α) (i : Nat) : Positional {x // x ∈ xs} :=
  if h : i < xs.length then pure ⟨xs[i], List.getElem_mem h⟩ else throw (.outside i xs.length)

def expect (t : Tree) (i : Nat) (k : Kind) : Positional {c // c ∈ t.children} :=
  match h : t.child i k with
  | .ok c => pure ⟨c, Tree.child_mem h⟩
  | .error e => fail e

def insert (xs : List α) (i : Nat) (x : α) : Positional (List α) :=
  if i ≤ xs.length then pure (xs.insertIdx i x) else throw (.outside i xs.length)

def ensuring (act : Positional α) (after : LowerState → LowerState) : Positional α := fun s =>
  match act s with
  | .ok a t => .ok a (after t)
  | .error e t => .error e (after t)

def nested (site : Site) (act : Positional α) : Positional α := do
  of (Lower.descend site)
  ensuring act fun s => { s with depth := s.depth - 1 }

def inLoop (l : LoopTargets) (act : Positional α) : Positional α := do
  of (Lower.pushLoop l)
  ensuring act fun s => { s with loops := s.loops.tail }

/-! ## The entry block -/

def insertEntry (i : Nat) (x : Instr) : Positional Unit := do
  let f ← of Lower.currentFunction
  match f.bodies with
  | [] => of (Lower.refuse (.noEntryBlock f.name))
  | b :: bs => do
    let instrs ← insert b.instrs i x
    of (Lower.inFunction (Build.setBodies ({ b with instrs := instrs } :: bs)))

def alloca (ty : Ty) : Positional Value := do
  let d ← of (Lower.inFunction Build.register)
  let f ← of Lower.currentFunction
  insertEntry f.slotCount (.alloca d ty)
  of (Lower.inFunction (Build.countSlot ⟨d, ty⟩))

def seed (value pointer : Value) : Positional Unit := do
  let f ← of Lower.currentFunction
  insertEntry f.prologueLength (.store value pointer)
  of (Lower.inFunction (Build.countSeed ⟨value, pointer⟩))

/-! ## Expressions -/

mutual

def expression (t : Tree) : Positional Value := nested t.site <|
  match t.kind with
  | .literal => do
    check (t.checkArity 0 0)
    check (t.site.literal.map .int)
  | .identifier => do
    check (t.checkArity 0 0)
    of (Lower.name t.site)
  | .binaryExpression => do
    check (t.checkArity 2 2)
    let op ← check (Operator.ofSite t.site)
    let l ← read t.children 0
    let lhs ← expression l.1
    let r ← read t.children 1
    let rhs ← expression r.1
    of (Lower.operate t.site op lhs rhs)
  | .functionCall => do
    let c ← of (Lower.callee t.site t.children.length)
    let args ← arguments c c.leading t.children
    match ← of (Lower.call c.id args) with
    | some v => return v
    | none => fail (t.site.fault (.noValue t.name))
  | k => fail (t.site.fault (.notExpression k))
termination_by sizeOf t
decreasing_by
  · exact Tree.sizeOf_child (Subtype.property _)
  · exact Tree.sizeOf_child (Subtype.property _)
  · exact Tree.sizeOf_children t

def arguments (c : Callee) (args : List Value) : List Tree → Positional (List Value)
  | [] => return args
  | t :: ts => do
    let v ← expression t
    check (Lower.checkArgument c t.site args.length v)
    arguments c (args ++ [v]) ts
termination_by ts => sizeOf ts

end

def functionCall (t : Tree) : Positional (Option Value) := do
  let c ← of (Lower.callee t.site t.children.length)
  let args ← arguments c c.leading t.children
  of (Lower.call c.id args)

def condition (t : Tree) : Positional Value := do
  let v ← expression t
  match v.ty with
  | .i1 => return v
  | .i32 => of (Lower.icmp .ne v (.int 0))
  | ty => fail (t.site.fault (.notCondition ty))

/-! ## Statements -/

def variableSlot (t : Tree) : Positional (Value × Ty) := do
  if t.name.isEmpty then fail (t.site.fault .namelessVariable)
  let type ← read t.children 0
  let ty ← check (Ty.ofSite type.1.site)
  if ty.isVoid then fail (type.1.site.fault (.voidVariable t.name))
  let p ← alloca ty
  of (Lower.bind t.name (.slot p ty))
  return (p, ty)

def variableDeclaration (t : Tree) : Positional Unit := do
  check (t.checkArity 1 2)
  let (p, ty) ← variableSlot t
  match t.children[1]? with
  | none => pure ()
  | some init => do
    let v ← expression init
    check (Lower.checkStore init.site v.ty ty)
    of (Lower.store v p)

def promote (name : String) (v : Value) : Positional (Value × Ty) := do
  let p ← alloca v.ty
  seed v p
  of (Lower.bind name (.slot p v.ty))
  of (Lower.note (.parameterPromoted name))
  return (p, v.ty)

def assignedSlot (site : Site) : Positional (Value × Ty) := do
  match ← of (Lower.lookup site.name) with
  | some (.stored (.slot p ty)) => return (p, ty)
  | some (.stored (.register v)) => promote site.name v
  | some (.constant _) => fail (site.fault (.assignmentToConstant site.name))
  | none => fail (site.fault (.undefinedSymbol site.name))

def assignment (t : Tree) : Positional Unit := do
  check (t.checkArity 2 2)
  let op ← expect t 0 .identifier
  let update ← check (Update.ofSite op.1.site)
  let (p, ty) ← assignedSlot t.site
  let old ← of (Lower.load ty p)
  let rhs ← read t.children 1
  let new ← expression rhs.1
  check (Lower.checkStore rhs.1.site new.ty ty)
  let result ←
    match update with
    | .replace => pure new
    | .combine op => of (Lower.binary op old new)
  of (Lower.store result p)
  of (Lower.bind t.name (.slot p ty))

def returnStatement (t : Tree) : Positional Unit := do
  check (t.checkArity 0 1)
  match t.children[0]? with
  | none => of (Lower.ret none)
  | some value => do
    let v ← expression value
    of (Lower.ret (some v))

def jump (t : Tree) (outside : Cause) (target : LoopTargets → Nat) : Positional Unit := do
  check (t.checkArity 0 0)
  match ← of Lower.innermostLoop with
  | some l => of (Lower.br (target l))
  | none => fail (t.site.fault outside)

def conditional (t : Tree) (yes : Nat → Positional Unit) (no : Option (Nat → Positional Unit)) :
    Positional Unit := do
  let test ← read t.children 0
  let c ← condition test.1
  let yesBlock ← of (Lower.newBlock "if.then")
  let endBlock ← of (Lower.newBlock "if.end")
  let noBlock ← if no.isSome then of (Lower.newBlock "if.else") else pure endBlock
  of (Lower.condBr c yesBlock noBlock)
  yes yesBlock
  of (Lower.fallThrough endBlock)
  match no with
  | some arm => do
    arm noBlock
    of (Lower.fallThrough endBlock)
  | none => pure ()
  of (Lower.setBlock endBlock)

def loop (t : Tree) (body : Nat → Positional Unit) : Positional Unit := do
  let testBlock ← of (Lower.newBlock "while.cond")
  let bodyBlock ← of (Lower.newBlock "while.body")
  let endBlock ← of (Lower.newBlock "while.end")
  of (Lower.br testBlock)
  of (Lower.setBlock testBlock)
  let test ← read t.children 0
  let c ← condition test.1
  of (Lower.condBr c bodyBlock endBlock)
  inLoop ⟨testBlock, endBlock⟩ (body bodyBlock)
  of (Lower.fallThrough testBlock)
  of (Lower.setBlock endBlock)

mutual

def statement (t : Tree) : Positional Unit := nested t.site <|
  match t.kind with
  | .variableDeclaration => variableDeclaration t
  | .assignment => assignment t
  | .returnStatement => returnStatement t
  | .whileStatement => do
    check (t.checkArity 2 2)
    let body ← expect t 1 .block
    loop t fun b => block b body.1
  | .statement =>
    if t.name = "if" then do
      check (t.checkArity 2 3)
      let yes ← expect t 1 .block
      conditional t (fun b => block b yes.1) <|
        match h : t.children[2]? with
        | none => none
        | some no => some fun b =>
          if no.kind = .block then block b no
          else if no.kind = .statement ∧ no.name = "if" then do
            of (Lower.setBlock b)
            statement no
          else fail (no.site.fault (.notElse no.kind))
    else if t.name = "break" then jump t .breakOutsideLoop (·.onBreak)
    else if t.name = "continue" then jump t .continueOutsideLoop (·.onContinue)
    else fail (t.site.fault (.unknownStatement t.name))
  | .functionCall => do
    let _ ← functionCall t
  | .block => statements t.children
  | k => fail (t.site.fault (.notStatement k))
termination_by sizeOf t
decreasing_by
  · exact Tree.sizeOf_child (Subtype.property _)
  · exact Tree.sizeOf_child (Subtype.property _)
  · exact Tree.sizeOf_child (List.mem_of_getElem? h)
  · exact Tree.sizeOf_child (List.mem_of_getElem? h)
  · exact Tree.sizeOf_children t

def block (b : Nat) (t : Tree) : Positional Unit :=
  if t.kind = .block then do
    of (Lower.setBlock b)
    statements t.children
  else fail (t.site.fault (.notBlock t.kind))
termination_by sizeOf t
decreasing_by exact Tree.sizeOf_children t

def statements : List Tree → Positional Unit
  | [] => pure ()
  | t :: ts => do
    if ← of Lower.terminated then of (Lower.note (.unreachableSkipped (ts.length + 1)))
    else do
      statement t
      statements ts
termination_by ts => sizeOf ts

end

/-! ## Programs -/

def parameter (t : Tree) : Positional Param :=
  if t.kind = .variableDeclaration ∧ t.name.isEmpty = false then do
    check (t.checkArity 1 1)
    let type ← read t.children 0
    let ty ← check (Ty.ofSite type.1.site)
    if ty.isVoid then fail (t.site.fault (.voidParameter t.name)) else return ⟨t.name, ty⟩
  else fail (t.site.fault .namelessParameter)

def signature (t : Tree) : Positional Signature := do
  check (t.checkArity 3 3)
  let result ← expect t 0 .identifier
  let ret ← check (Ty.ofSite result.1.site)
  let params ← expect t 1 .parameters
  let _ ← expect t 2 .block
  let params ← params.1.children.mapM parameter
  return ⟨t.name, ret, params, false⟩

def declareFunction (t : Tree) : Positional Nat := do
  let sig ← signature t
  if ((← get).module.find? t.name).isSome then fail (t.site.fault (.duplicateFunction t.name))
  let id ← of (Lower.declare sig)
  of (Lower.note (.functionDeclared t.name))
  return id

def declareFrom : Nat → List Tree → Positional Unit
  | _, [] => pure ()
  | k, t :: ts => do
    if t.kind = .functionDeclaration then
      let id ← declareFunction t
      of (Lower.register k id)
    declareFrom (k + 1) ts

def body (t : Tree) (id : Nat) : Positional Unit := do
  of (Lower.note (.bodyStarted t.name))
  let entry ← of (Lower.enter id)
  let f ← of Lower.currentFunction
  of (Lower.bindAll f.arguments)
  let code ← read t.children 2
  block entry code.1
  if !(← of Lower.terminated) then
    of (Lower.note (.bodyFellOff t.name))
    of (Lower.ret (Lower.defaultReturn f.ret))
  of Lower.leave

/-- The children of a function that is already registered are not counted
again. -/
def function (t : Tree) (registered : Option Nat) : Positional Unit := do
  let id ←
    match registered with
    | some id => pure id
    | none => declareFunction t
  body t id

def directive (t : Tree) : Positional Unit :=
  if t.name = "#define" then do
    check (t.checkArity 2 2)
    let name ← expect t 0 .identifier
    let value ← read t.children 1
    if value.1.kind ≠ .literal then
      fail (value.1.site.fault (.defineValue name.1.name value.1.kind))
    let n ← check value.1.site.literal
    of (Lower.note (.constantDefined name.1.name n))
    of (Lower.define name.1.name n)
  else fail (t.site.fault (.unknownDirective t.name))

def item (t : Tree) (registered : Option Nat) : Positional Unit :=
  match t.kind with
  | .preprocessorDirective => directive t
  | .functionDeclaration => function t registered
  | k => fail (t.site.fault (.notTopLevel k))

def itemsFrom : Nat → List Tree → Positional Unit
  | _, [] => pure ()
  | k, t :: ts => do
    item t (← of (Lower.registered? k))
    itemsFrom (k + 1) ts

def program (singlePass : Bool) (t : Tree) : Positional Module :=
  if t.kind = .program then do
    of (Lower.note (.programStarted t.name t.children.length))
    if !singlePass then declareFrom 0 t.children
    itemsFrom 0 t.children
    let m := (← get).module
    of (Lower.note (.programFinished m.functions.length m.globals.length))
    return m
  else fail (t.site.fault (.notProgram t.kind))

end Positional

def Tree.lowerByPosition (singlePass : Bool) (t : Tree) : Except Stop Module :=
  match Positional.program singlePass t .initial with
  | .ok m _ => .ok m
  | .error e _ => .error e

end TreeFlow
