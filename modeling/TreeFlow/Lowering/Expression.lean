import TreeFlow.Lowering.Shape
import TreeFlow.Lowering.State

/-!
# Lowering expressions

An expression becomes one value: a constant, a parameter that was never
assigned, or the register of the last instruction emitted for it. Operands
are lowered from left to right.

The one function that need not be declared is `printf`. The first call
declares it, and each call adds a format of its own as the first argument,
before its arguments are counted.
-/

set_option autoImplicit false

namespace TreeFlow

namespace Intrinsic

def name : String := "printf"

def signature : Signature := ⟨name, .i32, [⟨"format", .ptr .i8⟩], true⟩

def format : List UInt8 := [37, 100, 10, 0]

end Intrinsic

/-- A function that is about to be called, and the arguments that precede the
ones written in the source. -/
structure Callee where
  id : Nat
  name : String
  params : List Ty
  leading : List Value
  deriving DecidableEq, Repr

namespace Lower

/-- The function with a name, which for the intrinsic is declared on
demand. -/
def findCallee (site : Site) : Lower Nat := do
  match (← get).module.find? site.name with
  | some id => return id
  | none =>
    if site.name = Intrinsic.name then do
      note (.intrinsicDeclared site.name)
      declare Intrinsic.signature
    else throw (site.fault (.undefinedFunction site.name))

def checkCount (site : Site) (variadic : Bool) (expected given : Nat) : Except LowerError Unit :=
  if given < expected ∨ (variadic = false ∧ expected < given) then
    .error (site.fault (.argumentCount site.name expected given))
  else .ok ()

/-- Finds the callee, adds the format of an intrinsic call and counts the
arguments. -/
def callee (site : Site) (given : Nat) : Lower Callee := do
  let id ← findCallee site
  match (← get).module.function? id with
  | none => refuse (.unknownFunction id)
  | some f =>
    let leading ←
      if f.variadic && site.name == Intrinsic.name then do
        let format ← addBytes Intrinsic.format
        pure [format]
      else pure []
    lift (checkCount site f.variadic (f.params.length - leading.length) given)
    return ⟨id, site.name, f.params.map (·.ty), leading⟩

def checkArgument (c : Callee) (site : Site) (i : Nat) (v : Value) : Except LowerError Unit :=
  match c.params[i]? with
  | none => .ok ()
  | some t =>
    if v.ty = t then .ok () else .error (site.fault (.argumentMismatch i c.name v.ty t))

def name (site : Site) : Lower Value := do
  match ← lookup site.name with
  | some (.stored (.register v)) => return v
  | some (.stored (.slot p t)) => load t p
  | some (.constant n) => return .int n
  | none => throw (site.fault (.undefinedSymbol site.name))

def operate (site : Site) (op : Operator) (lhs rhs : Value) : Lower Value :=
  if lhs.ty = rhs.ty then
    match op with
    | .arith op => binary op lhs rhs
    | .compare test => icmp test lhs rhs
  else throw (site.fault (.mixedOperands site.name lhs.ty rhs.ty))

mutual

def expression : Tree → Lower Value
  | .node site children => nested site <|
    match site.kind, children with
    | .literal, [] => lift (site.literal.map .int)
    | .literal, ts => throw (site.wrongArity 0 0 ts.length)
    | .identifier, [] => name site
    | .identifier, ts => throw (site.wrongArity 0 0 ts.length)
    | .binaryExpression, [l, r] => do
      let op ← lift (Operator.ofSite site)
      let lhs ← expression l
      let rhs ← expression r
      operate site op lhs rhs
    | .binaryExpression, ts => throw (site.wrongArity 2 2 ts.length)
    | .functionCall, ts => do
      let c ← callee site ts.length
      let args ← arguments c c.leading ts
      match ← call c.id args with
      | some v => return v
      | none => throw (site.fault (.noValue site.name))
    | k, _ => throw (site.fault (.notExpression k))

def arguments (c : Callee) : List Value → List Tree → Lower (List Value)
  | args, [] => return args
  | args, t :: ts => do
    let v ← expression t
    lift (checkArgument c t.site args.length v)
    arguments c (args ++ [v]) ts

end

def functionCall : Tree → Lower (Option Value)
  | .node site children => do
    let c ← callee site children.length
    let args ← arguments c c.leading children
    call c.id args

/-- Lowers a branch condition to a truth value. Integers are compared with
zero. -/
def condition (t : Tree) : Lower Value := do
  let v ← expression t
  match v.ty with
  | .i1 => return v
  | .i32 => icmp .ne v (.int 0)
  | ty => throw (t.site.fault (.notCondition ty))

end Lower

end TreeFlow
