import TreeFlow.Proofs.Ready

/-!
# Items of a program

Between two items no function is open. Declaring a function adds it to the
module, lowering its body extends it, and a constant definition leaves the
module alone, so the module only grows from item to item.
-/

set_option autoImplicit false

namespace TreeFlow

variable {site : Site} {ts : List Tree}

namespace Lower

open Relation (ReflTransGen)

variable {s : LowerState}

/-- The changes of a module: a function is declared or its body opened, or a
step is taken inside a body. -/
inductive Change : Module → Module → Prop
  | declare {m : Module} (sig : Signature) (absent : m.find? sig.name = none) :
      Change m (m.declare sig)
  | enter {m : Module} {id : Nat} {f : Function} (found : m.function? id = some f) :
      Change m (m.setFunction id (f.addBlock "entry"))
  | step {s t : LowerState} {id : Nat} {f : Function} (inside : s.In id f) (h : Step 0 s t) :
      Change s.module t.module

abbrev Changes := ReflTransGen Change

theorem Change.extends {m m' : Module} (h : Change m m') : m.Extends m' := by
  cases h with
  | declare sig => exact m.extends_declare sig
  | enter hf => exact Module.extends_setFunction hf (Function.extends_addBlock _ "entry")
  | step hin h =>
    obtain ⟨g, hg⟩ := h.kept hin (Nat.zero_le _)
    exact hg.extends hin

theorem Changes.extends {m m' : Module} (h : Changes m m') : m.Extends m' := by
  induction h with
  | refl => exact .refl m
  | tail _ hstep ih => exact ih.trans hstep.extends

theorem Changes.numbered {m m' : Module} (h : Changes m m') (hm : m.Numbered) : m'.Numbered := by
  induction h with
  | refl => exact hm
  | tail _ hstep ih =>
    cases hstep with
    | declare sig => exact ih.declare sig
    | enter hf => exact ih.setFunction hf rfl
    | step _ h => exact h.numbered ih

end Lower

def Module.Distinct (m : Module) : Prop :=
  ∀ i j f g, m.function? i = some f → m.function? j = some g → f.name = g.name → i = j

namespace Module.Distinct

variable {m : Module}

theorem declare {sig : Signature} (h : m.Distinct) (absent : m.find? sig.name = none) :
    (m.declare sig).Distinct := by
  have hnew : ∀ {i f}, m.function? i = some f → f.name ≠ sig.name := by
    intro i f hf hname
    have hfind :=
      List.find?_eq_none.mp (Option.map_eq_none_iff.mp absent) f (List.mem_of_getElem? hf)
    simp [hname] at hfind
  intro i j f g hf hg hname
  rw [Module.function?_declare] at hf hg
  split at hf <;> split at hg
  · simp_all
  · cases hf
    exact absurd hname.symm (hnew hg)
  · cases hg
    exact absurd hname (hnew hf)
  · exact h i j f g hf hg hname

theorem setFunction {id : Nat} {f₀ g₀ : Function} (h : m.Distinct) (hf₀ : m.function? id = some f₀)
    (hg₀ : g₀.name = f₀.name) : (m.setFunction id g₀).Distinct := by
  have hold : ∀ {i f}, (m.setFunction id g₀).function? i = some f →
      ∃ f', m.function? i = some f' ∧ f'.name = f.name := by
    intro i f hf
    rw [Module.function?_setFunction hf₀] at hf
    split at hf
    · cases hf
      exact ⟨f₀, ‹i = id› ▸ hf₀, hg₀.symm⟩
    · exact ⟨f, hf, rfl⟩
  intro i j f g hf hg hname
  obtain ⟨f', hf', hfname⟩ := hold hf
  obtain ⟨g', hg', hgname⟩ := hold hg
  exact h i j f' g' hf' hg' (hfname.trans (hname.trans hgname.symm))

theorem find? (h : m.Distinct) (hn : m.Numbered) {id : Nat} {f : Function}
    (hf : m.function? id = some f) : m.find? f.name = some id := by
  cases hfind : m.find? f.name with
  | none =>
    have hnone :=
      List.find?_eq_none.mp (Option.map_eq_none_iff.mp hfind) f (List.mem_of_getElem? hf)
    simp at hnone
  | some id' =>
    obtain ⟨f', hf', hname⟩ := hn.find? hfind
    rw [h id' id f' f hf' hf hname]

theorem step {n : Nat} {s t : LowerState} (h : s.module.Distinct) (hstep : Lower.Step n s t) :
    t.module.Distinct := by
  cases hstep with
  | emission hstep =>
    cases hstep with
    | intrinsic absent => exact h.declare absent
    | define hat => exact h.setFunction hat.found rfl
    | perform hat => exact h.setFunction hat.found rfl
    | _ => exact h
  | block _ hin => exact h.setFunction hin.found rfl
  | slot _ hin => exact h.setFunction hin.found rfl
  | burn hin => exact h.setFunction hin.found rfl
  | seed _ _ hin => exact h.setFunction hin.found rfl
  | close hat => exact h.setFunction hat.found rfl
  | _ => exact h

end Module.Distinct

namespace Lower

variable {s : LowerState}

theorem Changes.distinct {m m' : Module} (h : Changes m m') (hm : m.Distinct) : m'.Distinct := by
  induction h with
  | refl => exact hm
  | tail _ hchange ih =>
    cases hchange with
    | declare sig absent => exact ih.declare absent
    | enter hf => exact ih.setFunction hf rfl
    | step _ h => exact ih.step h

/-- A property of functions that no change destroys. -/
structure Stable (P : Function → Prop) : Prop where
  declare : ∀ id sig, P (.declare id sig)
  define : ∀ {f : Function} {b : Nat} {k : Block} {i : Instr}, f.bodies[b]? = some k →
    k.terminator = none → i.dest? = some f.registers → i.isAlloca = false → P f →
      P (f.takeRegister.append b i)
  perform : ∀ {f : Function} {b : Nat} {k : Block} {i : Instr}, f.bodies[b]? = some k →
    k.terminator = none → i.dest? = none → P f → P (f.append b i)
  block : ∀ {f : Function} (label : String), P f → P (f.addBlock label)
  slot : ∀ {f : Function} (ty : Ty), f.bodies ≠ [] → P f → P (f.addSlot ty)
  burn : ∀ {f : Function}, P f → P f.takeRegister
  seed : ∀ {f : Function} (v p : Value), P f → P (f.addSeed v p)
  close : ∀ {f : Function} {b : Nat} {k : Block} {x : Terminator}, f.bodies[b]? = some k →
    k.terminator = none → (∀ j ∈ x.successors, j < f.bodies.length) → P f → P (f.close b x)

def Each (P : Function → Prop) (m : Module) : Prop := ∀ j f, m.function? j = some f → P f

section Stability

variable {P : Function → Prop} {m m' : Module}

theorem Each.set {id : Nat} {f g : Function} (h : Each P m) (hf : m.function? id = some f)
    (hg : P f → P g) : Each P (m.setFunction id g) := by
  intro j e he
  rw [Module.function?_setFunction hf] at he
  split at he
  · cases he
    exact hg (h id f hf)
  · exact h j e he

theorem Each.declare (h : Each P m) (sig : Signature)
    (hnew : P (.declare m.functions.length sig)) : Each P (m.declare sig) := by
  intro j e he
  rw [Module.function?_declare] at he
  split at he
  · cases he
    exact ‹j = _› ▸ hnew
  · exact h j e he

theorem Step.stable {n : Nat} {t : LowerState} (hP : Stable P) (h : Step n s t)
    (hs : Each P s.module) : Each P t.module := by
  cases h with
  | emission h =>
    cases h with
    | intrinsic => exact hs.declare _ (hP.declare _ _)
    | define hat ho hd ha => exact hs.set hat.found (hP.define hat.block ho hd ha)
    | perform hat ho hd => exact hs.set hat.found (hP.perform hat.block ho hd)
    | _ => exact hs
  | block label hin => exact hs.set hin.found (hP.block label)
  | slot ty hin hne => exact hs.set hin.found (hP.slot ty hne)
  | burn hin => exact hs.set hin.found hP.burn
  | seed v p hin => exact hs.set hin.found (hP.seed v p)
  | close hat ho ht => exact hs.set hat.found (hP.close hat.block ho ht)
  | _ => exact hs

theorem Changes.stable (hP : Stable P) (h : Changes m m') (hm : Each P m) : Each P m' := by
  induction h with
  | refl => exact hm
  | tail _ hchange ih =>
    cases hchange with
    | declare sig => exact ih.declare sig (hP.declare _ _)
    | enter hf => exact ih.set hf (hP.block "entry")
    | step _ h => exact h.stable hP ih

end Stability

theorem Steps.changes {t : LowerState} {id : Nat} {f : Function} (h : Steps 0 s t)
    (hin : s.In id f) : Changes s.module t.module := by
  induction h with
  | refl => exact .refl
  | tail hrun hstep ih =>
    obtain ⟨g, hg⟩ := Steps.kept hrun hin (Nat.zero_le _)
    exact ih.tail (.step hg.inside hstep)

theorem declareFunction_ok {id : Nat} {t : LowerState} (h : declareFunction site ts s = .ok id t) :
    ∃ sig, signature site ts = .ok sig ∧ s.module.find? site.name = none ∧
      id = s.module.functions.length ∧ t.module = s.module.declare sig ∧
        t.scope = s.scope := by
  obtain ⟨sig, u, hu, h₁⟩ := bind_ok.mp h
  obtain ⟨hsig, rfl⟩ := lift_ok.mp hu
  rw [get_bind] at h₁
  dsimp only at h₁
  split at h₁
  · cases h₁
  · cases h₁
    exact ⟨sig, hsig, by simp_all, rfl, rfl, rfl⟩

theorem signature_ok {sig : Signature} (h : signature site ts = .ok sig) :
    ∃ result params body, ts = [result, params, body] ∧ body.kind = .block ∧
      Ty.ofSite result.site = .ok sig.ret ∧ params.children.mapM parameter = .ok sig.params ∧
        sig.name = site.name ∧ sig.variadic = false := by
  unfold signature at h
  split at h
  · rename_i result params body
    obtain ⟨_, -, h₁⟩ := except_bind_ok.mp h
    obtain ⟨ret, hret, h₂⟩ := except_bind_ok.mp h₁
    obtain ⟨_, -, h₃⟩ := except_bind_ok.mp h₂
    obtain ⟨_, hbody, h₄⟩ := except_bind_ok.mp h₃
    obtain ⟨ps, hps, h₅⟩ := except_bind_ok.mp h₄
    cases h₅
    exact ⟨result, params, body, rfl, require_ok hbody, hret, hps, rfl, rfl⟩
  · cases h

theorem declareFunction_changes {id : Nat} {t : LowerState}
    (h : declareFunction site ts s = .ok id t) :
    Changes s.module t.module ∧ ∃ f, t.module.function? id = some f := by
  obtain ⟨sig, hsig, habsent, rfl, hm, -⟩ := declareFunction_ok h
  rw [hm]
  refine ⟨.single (.declare sig ?_), .declare s.module.functions.length sig, ?_⟩
  · obtain ⟨_, _, _, -, -, -, -, hname, -⟩ := signature_ok hsig
    rw [hname]
    exact habsent
  · exact List.getElem?_concat_length ..

theorem opened_in {id : Nat} {f : Function} (hf : s.module.function? id = some f) :
    (opened site s id f).In id (f.addBlock "entry") := by
  refine ⟨rfl, ?_⟩
  have hput := LowerState.function?_put hf (f.addBlock "entry") id
  rwa [if_pos rfl] at hput

theorem opened_ready {id : Nat} {f : Function} (hf : s.module.function? id = some f)
    (hn : s.module.Numbered) :
    Ready (opened site s id f) where
  here := by
    have hb := f.bodies_addBlock "entry" f.bodies.length
    rw [if_pos rfl] at hb
    exact ⟨id, _, f.bodies.length, _, opened_in hf, rfl, hb⟩
  loops _ hl := by cases hl
  numbered := numbered_put (s := { s with function := some id }) ⟨rfl, hf⟩ rfl hn

theorem opened_grown {id : Nat} {f : Function} (hf : s.module.function? id = some f) :
    Grown (f.bodies.length + 1) (opened site s id f) :=
  ⟨id, _, opened_in hf, by simp⟩

theorem steps_body {id : Nat} {f : Function} {t : Tree} {u : Unit} {v : LowerState}
    (hf : s.module.function? id = some f) (h : body site id t s = .ok u v) :
    ∃ w, Steps 0 (opened site s id f) w ∧ v = { w with function := none, block := none } := by
  rw [body_run hf] at h
  have hm : Made 0 [f.bodies.length] (opened site s id f) :=
    ⟨⟨id, _, opened_in hf, Nat.zero_le _⟩, by simpa using opened_grown hf⟩
  obtain ⟨_, w, hw, h₁⟩ := bind_ok.mp h
  have hsteps := Steps.of_ok (steps_block t _ _ hm) hw
  obtain ⟨c, x, hx, h₂⟩ := bind_ok.mp h₁
  replace hsteps := hsteps.trans (steps_terminated.of_ok hx)
  cases c with
  | true =>
    cases h₂
    exact ⟨x, hsteps, rfl⟩
  | false =>
    obtain ⟨_, y, hy, h₃⟩ := bind_ok.mp h₂
    cases hy
    obtain ⟨_, z, hz, h₄⟩ := bind_ok.mp h₃
    cases h₄
    exact ⟨z, (hsteps.tail (.emission (.note _))).trans ((steps_ret _).of_ok hz), rfl⟩

theorem body_changes {id : Nat} {f : Function} {t : Tree} {u : Unit} {v : LowerState}
    (hf : s.module.function? id = some f) (h : body site id t s = .ok u v) :
    Changes s.module v.module := by
  obtain ⟨w, hsteps, rfl⟩ := steps_body hf h
  exact .head (.enter hf) (hsteps.changes (opened_in hf))

def Registered (s : LowerState) (registered : Option Nat) : Prop :=
  ∀ id, registered = some id → ∃ f, s.module.function? id = some f

theorem Changes.registered {t : LowerState} (h : Changes s.module t.module) {r : Option Nat}
    (hr : Registered s r) : Registered t r := by
  intro id hid
  obtain ⟨f, hf⟩ := hr id hid
  obtain ⟨g, hg, -⟩ := h.extends.functions id f hf
  exact ⟨g, hg⟩

theorem function_ok {r : Option Nat} {u : Unit} {v : LowerState} (hr : Registered s r)
    (h : function site r ts s = .ok u v) :
    ∃ result params t id f w, ts = [result, params, t] ∧
      (r = some id ∧ w = s ∨ r = none ∧ declareFunction site ts s = .ok id w) ∧
        w.module.function? id = some f ∧ body site id t w = .ok u v := by
  cases r with
  | some id =>
    obtain ⟨f, hf⟩ := hr id rfl
    obtain ⟨result, params, t, rfl, hb⟩ := bodyOf_ok (function_some site id ts ▸ h)
    exact ⟨result, params, t, id, f, s, rfl, .inl ⟨rfl, rfl⟩, hf, hb⟩
  | none =>
    rw [function_none] at h
    obtain ⟨id, w, hid, h₁⟩ := bind_ok.mp h
    obtain ⟨-, f, hf⟩ := declareFunction_changes hid
    obtain ⟨result, params, t, rfl, hb⟩ := bodyOf_ok h₁
    exact ⟨result, params, t, id, f, w, rfl, .inr ⟨rfl, hid⟩, hf, hb⟩

theorem function_changes {r : Option Nat} {u : Unit} {v : LowerState} (hr : Registered s r)
    (h : function site r ts s = .ok u v) : Changes s.module v.module := by
  obtain ⟨-, -, t, id, f, w, -, hw, hf, hb⟩ := function_ok hr h
  rcases hw with ⟨-, rfl⟩ | ⟨-, hw⟩
  · exact body_changes hf hb
  · exact (declareFunction_changes hw).1.trans (body_changes hf hb)

theorem directive_module {u : Unit} {t : LowerState} (h : directive site ts s = .ok u t) :
    t.module = s.module := by
  unfold directive at h
  split at h
  · split at h
    · obtain ⟨_, v, hv, h₁⟩ := bind_ok.mp h
      obtain ⟨-, rfl⟩ := lift_ok.mp hv
      dsimp only at h₁
      split at h₁
      · cases h₁
      · obtain ⟨n, w, hw, h₂⟩ := bind_ok.mp h₁
        obtain ⟨-, rfl⟩ := lift_ok.mp hw
        cases h₂
        rfl
    · cases h
  · cases h

theorem item_changes {t : Tree} {r : Option Nat} {u : Unit} {v : LowerState} (hr : Registered s r)
    (h : item t r s = .ok u v) : Changes s.module v.module := by
  rcases item_form t r with ⟨-, hi⟩ | ⟨-, hi⟩ | hi
  · rw [hi] at h
    rw [directive_module h]
  · rw [hi] at h
    exact function_changes hr h
  · rw [hi] at h
    cases h

end Lower

end TreeFlow
