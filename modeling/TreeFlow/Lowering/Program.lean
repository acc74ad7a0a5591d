import TreeFlow.Lowering.Statement

/-!
# Lowering a program

The items of a program are constant definitions and functions. In the default
mode every signature is registered before any body is lowered, so a call may
name a function further down. In single-pass mode a function is registered
when its body is reached. Lowering stops at the first error.
-/

set_option autoImplicit false

namespace TreeFlow

namespace Lower

def parameter (t : Tree) : Except LowerError Param :=
  if t.kind = .variableDeclaration ∧ t.name.isEmpty = false then
    match t.children with
    | [type] => do
      let ty ← Ty.ofSite type.site
      if ty.isVoid then .error (t.site.fault (.voidParameter t.name)) else .ok ⟨t.name, ty⟩
    | ts => .error (t.site.wrongArity 1 1 ts.length)
  else .error (t.site.fault .namelessParameter)

/-- The signature that a declaration states. The shape of the whole
declaration is checked, its body included. -/
def signature (site : Site) : List Tree → Except LowerError Signature
  | [result, params, body] => do
    site.require 0 .identifier result
    let ret ← Ty.ofSite result.site
    site.require 1 .parameters params
    site.require 2 .block body
    let params ← params.children.mapM parameter
    return ⟨site.name, ret, params, false⟩
  | ts => .error (site.wrongArity 3 3 ts.length)

def declareFunction (site : Site) (children : List Tree) : Lower Nat := do
  let sig ← lift (signature site children)
  if ((← get).module.find? site.name).isSome then
    throw (site.fault (.duplicateFunction site.name))
  let id ← declare sig
  note (.functionDeclared site.name)
  return id

def declareFrom : Nat → List Tree → Lower Unit
  | _, [] => pure ()
  | index, t :: ts => do
    if t.kind = .functionDeclaration then
      register index (← declareFunction t.site t.children)
    declareFrom (index + 1) ts

def bindAll : List (String × Value) → Lower Unit
  | [] => pure ()
  | (n, v) :: rest => do
    bind n (.register v)
    bindAll rest

/-- What a function returns when its body runs off its end. -/
def defaultReturn (ret : Ty) : Option Value := if ret.isVoid then none else some (.const ret 0)

def body (site : Site) (id : Nat) (t : Tree) : Lower Unit := do
  note (.bodyStarted site.name)
  let entry ← enter id
  let f ← currentFunction
  bindAll f.arguments
  block entry t
  if !(← terminated) then
    note (.bodyFellOff site.name)
    ret (defaultReturn f.ret)
  leave

/-- Lowers a function that may already be registered. -/
def function (site : Site) (registered : Option Nat) (children : List Tree) : Lower Unit := do
  let id ←
    match registered with
    | some id => pure id
    | none => declareFunction site children
  match children with
  | [_, _, t] => body site id t
  | ts => throw (site.wrongArity 3 3 ts.length)

def directive (site : Site) (children : List Tree) : Lower Unit :=
  if site.name = "#define" then
    match children with
    | [name, value] => do
      lift (site.require 0 .identifier name)
      if value.kind ≠ .literal then
        throw (value.site.fault (.defineValue name.name value.kind))
      let n ← lift value.site.literal
      note (.constantDefined name.name n)
      define name.name n
    | ts => throw (site.wrongArity 2 2 ts.length)
  else throw (site.fault (.unknownDirective site.name))

def item (t : Tree) (registered : Option Nat) : Lower Unit :=
  match t.kind with
  | .preprocessorDirective => directive t.site t.children
  | .functionDeclaration => function t.site registered t.children
  | k => throw (t.site.fault (.notTopLevel k))

def itemsFrom : Nat → List Tree → Lower Unit
  | _, [] => pure ()
  | index, t :: ts => do
    item t (← registered? index)
    itemsFrom (index + 1) ts

def program (singlePass : Bool) : Tree → Lower Module
  | .node site children =>
    if site.kind = .program then do
      note (.programStarted site.name children.length)
      if !singlePass then declareFrom 0 children
      itemsFrom 0 children
      let m := (← get).module
      note (.programFinished m.functions.length m.globals.length)
      return m
    else throw (site.fault (.notProgram site.kind))

end Lower

structure Lowered where
  result : Except LowerError Module
  log : List Event

def Tree.lower (singlePass : Bool) (t : Tree) : Lowered :=
  match Lower.program singlePass t .initial with
  | .ok m s => ⟨.ok m, s.log⟩
  | .error e s => ⟨.error e, s.log⟩

end TreeFlow
