import TreeFlow.Lowering.Expression

/-!
# Lowering statements

Statements go into the block under the cursor. An `if` or a `while` creates
its blocks, wires them together and leaves the cursor on the block where
execution continues. Statements behind a terminator are skipped.

The first assignment to a parameter gives it a stack slot, seeded with the
incoming value at the head of the entry block.
-/

set_option autoImplicit false

namespace TreeFlow.Lower

def checkStore (site : Site) (got slot : Ty) : Except LowerError Unit :=
  if got = slot then .ok () else .error (site.fault (.storeMismatch got slot))

/-! ## Variables -/

def variableSlot (site type : Site) : Lower (Value × Ty) := do
  if site.name.isEmpty then throw (site.fault .namelessVariable)
  let ty ← lift (Ty.ofSite type)
  if ty.isVoid then throw (type.fault (.voidVariable site.name))
  let p ← alloca ty
  bind site.name (.slot p ty)
  return (p, ty)

def variableDeclaration (site : Site) : List Tree → Lower Unit
  | [type] => do
    let _ ← variableSlot site type.site
  | [type, init] => do
    let (p, ty) ← variableSlot site type.site
    let v ← expression init
    lift (checkStore init.site v.ty ty)
    store v p
  | ts => throw (site.wrongArity 1 2 ts.length)

/-- Gives a parameter a stack slot that starts with the incoming value. -/
def promote (name : String) (v : Value) : Lower (Value × Ty) := do
  let p ← alloca v.ty
  seed v p
  bind name (.slot p v.ty)
  note (.parameterPromoted name)
  return (p, v.ty)

def assignedSlot (site : Site) : Lower (Value × Ty) := do
  match ← lookup site.name with
  | some (.stored (.slot p ty)) => return (p, ty)
  | some (.stored (.register v)) => promote site.name v
  | some (.constant _) => throw (site.fault (.assignmentToConstant site.name))
  | none => throw (site.fault (.undefinedSymbol site.name))

/-- Every assignment loads the old value, also when it is only replaced. -/
def assignment (site : Site) : List Tree → Lower Unit
  | [op, rhs] => do
    lift (site.require 0 .identifier op)
    let update ← lift (Update.ofSite op.site)
    let (p, ty) ← assignedSlot site
    let old ← load ty p
    let new ← expression rhs
    lift (checkStore rhs.site new.ty ty)
    let result ←
      match update with
      | .replace => pure new
      | .combine op => binary op old new
    store result p
    bind site.name (.slot p ty)
  | ts => throw (site.wrongArity 2 2 ts.length)

/-! ## Transfers of control -/

def returnStatement (site : Site) : List Tree → Lower Unit
  | [] => ret none
  | [t] => do
    let v ← expression t
    ret (some v)
  | ts => throw (site.wrongArity 0 1 ts.length)

def jump (site : Site) (outside : Cause) (target : LoopTargets → Nat) : List Tree → Lower Unit
  | [] => do
    match ← innermostLoop with
    | some l => br (target l)
    | none => throw (site.fault outside)
  | ts => throw (site.wrongArity 0 0 ts.length)

/-- Wires a conditional. Each arm is given the block it starts in. -/
def conditional (test : Tree) (yes : Nat → Lower Unit) (no : Option (Nat → Lower Unit)) :
    Lower Unit := do
  let c ← condition test
  let yesBlock ← newBlock "if.then"
  let endBlock ← newBlock "if.end"
  let noBlock ← if no.isSome then newBlock "if.else" else pure endBlock
  condBr c yesBlock noBlock
  yes yesBlock
  fallThrough endBlock
  match no with
  | some arm => do
    arm noBlock
    fallThrough endBlock
  | none => pure ()
  setBlock endBlock

/-- Wires a loop. The body is given the block it starts in. -/
def loop (test : Tree) (body : Nat → Lower Unit) : Lower Unit := do
  let testBlock ← newBlock "while.cond"
  let bodyBlock ← newBlock "while.body"
  let endBlock ← newBlock "while.end"
  br testBlock
  setBlock testBlock
  let c ← condition test
  condBr c bodyBlock endBlock
  inLoop ⟨testBlock, endBlock⟩ (body bodyBlock)
  fallThrough testBlock
  setBlock endBlock

/-! ## Statements -/

mutual

def statement : Tree → Lower Unit
  | .node site children => nested site <|
    match site.kind, children with
    | .variableDeclaration, ts => variableDeclaration site ts
    | .assignment, ts => assignment site ts
    | .returnStatement, ts => returnStatement site ts
    | .whileStatement, [test, body] => do
      lift (site.require 1 .block body)
      loop test fun b => block b body
    | .whileStatement, ts => throw (site.wrongArity 2 2 ts.length)
    | .statement, ts =>
      if site.name = "if" then
        match ts with
        | [test, yes] => do
          lift (site.require 1 .block yes)
          conditional test (fun b => block b yes) none
        | [test, yes, no] => do
          lift (site.require 1 .block yes)
          conditional test (fun b => block b yes) <| some fun b =>
            if no.kind = .block then block b no
            else if no.kind = .statement ∧ no.name = "if" then do
              setBlock b
              statement no
            else throw (no.site.fault (.notElse no.kind))
        | ts => throw (site.wrongArity 2 3 ts.length)
      else if site.name = "break" then jump site .breakOutsideLoop (·.onBreak) ts
      else if site.name = "continue" then jump site .continueOutsideLoop (·.onContinue) ts
      else throw (site.fault (.unknownStatement site.name))
    | .functionCall, ts => do
      let _ ← functionCall (.node site ts)
    | .block, ts => statements ts
    | k, _ => throw (site.fault (.notStatement k))

def block (b : Nat) : Tree → Lower Unit
  | .node site children =>
    if site.kind = .block then do
      setBlock b
      statements children
    else throw (site.fault (.notBlock site.kind))

def statements : List Tree → Lower Unit
  | [] => pure ()
  | t :: ts => do
    if ← terminated then note (.unreachableSkipped (ts.length + 1))
    else do
      statement t
      statements ts

end

end TreeFlow.Lower
