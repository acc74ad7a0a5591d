import TreeFlow.Proofs.Step

/-!
# Where the cursor stands

In the body of a function the cursor is always on a block that exists, every
enclosing loop has targets that exist, and the identity of a function is its
position. No step changes that. While an expression is lowered, the block under
the cursor stays open.
-/

set_option autoImplicit false

namespace TreeFlow

def Module.Numbered (m : Module) : Prop := ∀ j f, m.function? j = some f → f.id = j

theorem Module.Numbered.declare {m : Module} (h : m.Numbered) (sig : Signature) :
    (m.declare sig).Numbered := by
  intro j e he
  rw [Module.function?_declare] at he
  split at he
  · cases he
    rfl
  · exact h j e he

theorem Module.Numbered.setFunction {m : Module} {id : Nat} {f g : Function} (h : m.Numbered)
    (hf : m.function? id = some f) (hg : g.id = f.id) : (m.setFunction id g).Numbered := by
  intro j e he
  rw [Module.function?_setFunction hf] at he
  split at he
  · cases he
    rw [hg, h id f hf]
    exact (‹j = id›).symm
  · exact h j e he

theorem Module.Numbered.find? {m : Module} (h : m.Numbered) {name : String} {id : Nat}
    (hf : m.find? name = some id) : ∃ f, m.function? id = some f ∧ f.name = name := by
  obtain ⟨f, hfind, rfl⟩ := Option.map_eq_some_iff.mp hf
  obtain ⟨hp, i, hi, rfl, -⟩ := List.find?_eq_some_iff_getElem.mp hfind
  have hi := List.getElem?_eq_getElem hi
  exact ⟨_, by rw [h i _ hi]; exact hi, by simpa using hp⟩

namespace Lower

variable {α : Type} {n : Nat} {s t : LowerState}

structure Ready (s : LowerState) : Prop where
  here : ∃ id f b k, s.At id f b k
  loops : ∀ l ∈ s.loops, Grown (l.onContinue + 1) s ∧ Grown (l.onBreak + 1) s
  numbered : s.module.Numbered

def Unended (s : LowerState) : Prop := ∃ id f b k, s.At id f b k ∧ k.terminator = none

theorem Ready.grown (h : Ready s) : Grown 0 s := by
  obtain ⟨id, f, b, k, hat⟩ := h.here
  exact ⟨id, f, hat.toIn, Nat.zero_le _⟩

theorem numbered_put {id : Nat} {f g : Function} (hin : s.In id f) (hg : g.id = f.id)
    (h : s.module.Numbered) : (s.put id g).module.Numbered := h.setFunction hin.found hg

theorem Emission.numbered (h : Emission s t) (hs : s.module.Numbered) :
    t.module.Numbered := by
  cases h with
  | note e => exact hs
  | depth d => exact hs
  | intrinsic => exact hs.declare _
  | format => exact hs
  | define hat => exact numbered_put hat.toIn rfl hs
  | perform hat => exact numbered_put hat.toIn rfl hs

theorem Step.numbered (h : Step n s t) (hs : s.module.Numbered) :
    t.module.Numbered := by
  cases h with
  | emission h => exact h.numbered hs
  | cursor => exact hs
  | enterLoop => exact hs
  | leaveLoop => exact hs
  | bind => exact hs
  | block _ hin => exact numbered_put hin rfl hs
  | slot _ hin => exact numbered_put hin rfl hs
  | burn hin => exact numbered_put hin rfl hs
  | seed _ _ hin => exact numbered_put hin rfl hs
  | close hat => exact numbered_put hat.toIn rfl hs

theorem Step.loops_grown (h : Step n s t) (l : LoopTargets) (hl : l ∈ t.loops) :
    l ∈ s.loops ∨ Grown (l.onContinue + 1) s ∧ Grown (l.onBreak + 1) s := by
  cases h with
  | emission h => cases h <;> exact .inl hl
  | enterLoop l' hc hb =>
    rcases List.mem_cons.mp hl with rfl | hl
    · exact .inr ⟨hc, hb⟩
    · exact .inl hl
  | leaveLoop => exact .inl (List.mem_of_mem_tail hl)
  | _ => exact .inl hl

theorem grown_of_at {id b : Nat} {f : Function} {k : Block} (h : s.At id f b k) :
    Grown (b + 1) s :=
  ⟨id, f, h.toIn, (List.getElem?_eq_some_iff.mp h.block).1⟩

theorem at_of_grown {b : Nat} (h : Grown (b + 1) s) (hb : s.block = some b) :
    ∃ id f k, s.At id f b k := by
  obtain ⟨id, f, hin, hf⟩ := h
  exact ⟨id, f, f.bodies[b], hin, hb, List.getElem?_eq_getElem hf⟩

theorem Step.here (h : Step n s t) (hn : Grown n s) (hs : ∃ id f b k, s.At id f b k) :
    ∃ id f b k, t.At id f b k := by
  obtain ⟨id, f, b, k, hat⟩ := hs
  have hcursor : t.block = some b ∨ ∃ c, t.block = some c ∧ Grown (c + 1) s := by
    cases h with
    | emission h => cases h <;> exact .inl hat.cursor
    | cursor c _ hc => exact .inr ⟨c, rfl, hc⟩
    | _ => exact .inl hat.cursor
  have hsteps : Steps n s t := .single h
  obtain hb | ⟨c, hc, hg⟩ := hcursor
  · obtain ⟨id, f, k, h⟩ := at_of_grown (hsteps.grown hn (grown_of_at hat)) hb
    exact ⟨id, f, b, k, h⟩
  · obtain ⟨id, f, k, h⟩ := at_of_grown (hsteps.grown hn hg) hc
    exact ⟨id, f, c, k, h⟩

theorem Step.ready (h : Step n s t) (hn : Grown n s) (hs : Ready s) : Ready t where
  here := h.here hn hs.here
  loops l hl := by
    have hsteps : Steps n s t := .single h
    rcases h.loops_grown l hl with hl | ⟨hc, hb⟩
    · exact ⟨hsteps.grown hn (hs.loops l hl).1, hsteps.grown hn (hs.loops l hl).2⟩
    · exact ⟨hsteps.grown hn hc, hsteps.grown hn hb⟩
  numbered := h.numbered hs.numbered

theorem Steps.ready (h : Steps n s t) (hn : Grown n s) (hs : Ready s) : Ready t := by
  induction h with
  | refl => exact hs
  | tail hrun hstep ih => exact hstep.ready (Steps.grown hrun hn hn) ih

theorem Emission.unended (h : Emission s t) (hs : Unended s) : Unended t := by
  obtain ⟨id, f, b, k, hat, ho⟩ := hs
  cases h with
  | note e => exact ⟨id, f, b, k, ⟨⟨hat.function, hat.found⟩, hat.cursor, hat.block⟩, ho⟩
  | depth d => exact ⟨id, f, b, k, ⟨⟨hat.function, hat.found⟩, hat.cursor, hat.block⟩, ho⟩
  | intrinsic =>
    refine ⟨id, f, b, k, ⟨⟨hat.function, ?_⟩, hat.cursor, hat.block⟩, ho⟩
    rw [← hat.found]
    exact List.getElem?_append_left (List.getElem?_eq_some_iff.mp hat.found).1
  | format => exact ⟨id, f, b, k, ⟨⟨hat.function, hat.found⟩, hat.cursor, hat.block⟩, ho⟩
  | @define id' b' f' k' i hat' ho' =>
    refine ⟨id', _, b', { k' with instrs := k'.instrs ++ [i] },
      ⟨hat'.toIn.put _, hat'.cursor, ?_⟩, ho'⟩
    rw [Function.bodies_append, if_pos rfl]
    simp [Function.takeRegister, hat'.block]
  | @perform id' b' f' k' i hat' ho' =>
    refine ⟨id', _, b', { k' with instrs := k'.instrs ++ [i] },
      ⟨hat'.toIn.put _, hat'.cursor, ?_⟩, ho'⟩
    rw [Function.bodies_append, if_pos rfl]
    simp [hat'.block]

theorem Emissions.unended (h : Emissions s t) (hs : Unended s) : Unended t := by
  induction h with
  | refl => exact hs
  | tail _ hstep ih => exact hstep.unended ih

theorem Emissions.ready (h : Emissions s t) (hs : Ready s) : Ready t :=
  (steps_of_emissions h : Steps 0 s t).ready hs.grown hs

/-! ## Blocks away from the cursor -/

def OpenAt (c : Nat) (s : LowerState) : Prop :=
  ∃ id f k, s.In id f ∧ f.bodies[c]? = some k ∧ k.terminator = none

theorem OpenAt.grown {c : Nat} (h : OpenAt c s) : Grown (c + 1) s := by
  obtain ⟨id, f, k, hin, hk, -⟩ := h
  exact ⟨id, f, hin, (List.getElem?_eq_some_iff.mp hk).1⟩

theorem unended_iff : Unended s ↔ ∃ c, s.block = some c ∧ OpenAt c s := by
  constructor
  · rintro ⟨id, f, b, k, hat, ho⟩
    exact ⟨b, hat.cursor, id, f, k, hat.toIn, hat.block, ho⟩
  · rintro ⟨c, hc, id, f, k, hin, hk, ho⟩
    exact ⟨id, f, c, k, ⟨hin, hc, hk⟩, ho⟩

/-- A block that is neither under the cursor nor new stays open, and the
cursor stays away from it. -/
theorem Steps.openAt {c : Nat} (h : Steps n s t) (hn : Grown n s) (hc : c < n)
    (hb : s.block ≠ some c) (ho : OpenAt c s) : OpenAt c t ∧ t.block ≠ some c := by
  obtain ⟨id, f, k, hin, hk, ho⟩ := ho
  obtain ⟨id', f', hin', hf⟩ := hn
  obtain ⟨rfl, rfl⟩ := hin.unique hin'
  obtain ⟨g, hg⟩ := h.kept hin hf
  refine ⟨⟨_, g, k, hg.inside, by rw [hg.elsewhere c hc hb, hk], ho⟩, ?_⟩
  rcases hg.cursor with ht | ⟨b, hb', ht⟩
  · rwa [ht]
  · rw [ht, ne_eq, Option.some.injEq]
    omega

theorem newBlock_openAt {label : String} {c : Nat} (h : newBlock label s = .ok c t) :
    OpenAt c t := by
  obtain ⟨id, f, hin, rfl, rfl⟩ := newBlock_ok.mp h
  obtain ⟨hfun, hfound⟩ := hin.put (f.addBlock label)
  have hb := f.bodies_addBlock label f.bodies.length
  rw [if_pos rfl] at hb
  exact ⟨id, _, _, ⟨hfun, hfound⟩, hb, rfl⟩

theorem newBlock_block {label : String} {c : Nat} (h : newBlock label s = .ok c t) :
    t.block = s.block := by
  obtain ⟨id, f, hin, rfl, rfl⟩ := newBlock_ok.mp h
  rfl

theorem newBlock_away {label : String} {c : Nat} (h : newBlock label s = .ok c t)
    (hs : ∃ id f b k, s.At id f b k) : t.block ≠ some c := by
  obtain ⟨id, f, b, k, hat⟩ := hs
  obtain ⟨hlt, -⟩ := newBlock_grown h (grown_of_at hat)
  rw [newBlock_block h, hat.cursor, ne_eq, Option.some.injEq]
  omega

theorem newBlock_unended {label : String} {c : Nat} (h : newBlock label s = .ok c t)
    (hs : Unended s) : Unended t := by
  obtain ⟨id, f, b, k, hat, ho⟩ := hs
  obtain ⟨id', f', hin, rfl, rfl⟩ := newBlock_ok.mp h
  obtain ⟨rfl, rfl⟩ := hat.toIn.unique hin
  obtain ⟨hfun, hfound⟩ := hin.put (Function.addBlock _ label)
  obtain ⟨hlt, -⟩ := List.getElem?_eq_some_iff.mp hat.block
  refine ⟨_, _, b, k, ⟨⟨hfun, hfound⟩, hat.cursor, ?_⟩, ho⟩
  rw [Function.bodies_addBlock, if_neg (by omega), hat.block]

theorem unended_put {id : Nat} {f g : Function} (hin : s.In id f) (hg : g.bodies = f.bodies)
    (hs : Unended s) : Unended (s.put id g) := by
  obtain ⟨id', f', b, k, hat, ho⟩ := hs
  obtain ⟨rfl, rfl⟩ := hin.unique hat.toIn
  exact ⟨_, g, b, k, ⟨hin.put g, hat.cursor, by rw [hg, hat.block]⟩, ho⟩

/-! ## Runs between open blocks -/

theorem Emissions.extends {id : Nat} {f : Function} (h : Emissions s t) (hin : s.In id f) :
    s.module.Extends t.module := by
  obtain ⟨g, hg⟩ := Steps.kept (n := 0) (steps_of_emissions h) hin (Nat.zero_le _)
  exact hg.extends hin

/-- The cursor stands in the body of a function, on a block without a
terminator. -/
structure Poised (s : LowerState) : Prop where
  ready : Ready s
  unended : Unended s

theorem Emissions.poised {t : LowerState} (h : Emissions s t) (hs : Poised s) : Poised t :=
  ⟨Emissions.ready h hs.ready, Emissions.unended h hs.unended⟩

theorem Emitting.poised {act : Lower α} {a : α} {t : LowerState} (h : Emitting act)
    (hr : act s = .ok a t) (hs : Poised s) : Poised t := Emissions.poised (h.run hr) hs

theorem newBlock_poised {label : String} {c : Nat} {t : LowerState} (hs : Poised s)
    (h : newBlock label s = .ok c t) : Poised t :=
  ⟨((steps_newBlock label).of_ok h).ready hs.ready.grown hs.ready, newBlock_unended h hs.unended⟩

theorem alloca_poised {ty : Ty} {v : Value} {t : LowerState} (hs : Poised s)
    (h : alloca ty s = .ok v t) : Poised t := by
  refine ⟨((steps_alloca ty).of_ok h).ready hs.ready.grown hs.ready, ?_⟩
  obtain ⟨id, f, hin, -, -, rfl⟩ := alloca_ok.mp h
  exact unended_put hin rfl hs.unended

theorem terminated_false {t : LowerState} (h : terminated s = .ok false t) :
    t = s ∧ Unended s := by
  obtain ⟨id, f, b, k, hat, hk, rfl⟩ := terminated_ok.mp h
  exact ⟨rfl, id, f, b, k, hat, by simpa [Block.terminated] using hk.symm⟩

theorem variableSlot_poised {site type : Site} {r : Value × Ty} {t : LowerState} (hs : Poised s)
    (h : variableSlot site type s = .ok r t) : Poised t := by
  refine ⟨((steps_variableSlot site type).of_ok h).ready hs.ready.grown hs.ready, ?_⟩
  obtain ⟨-, -, -, id, f, hin, hb, -, rfl⟩ := variableSlot_ok h
  obtain ⟨id, g, b, k, hat, ho⟩ := unended_put (g := f.addSlot r.2) hin rfl hs.unended
  exact ⟨id, g, b, k, ⟨⟨hat.function, hat.found⟩, hat.cursor, hat.block⟩, ho⟩

theorem assignedSlot_poised {site : Site} {r : Value × Ty} {t : LowerState} (hs : Poised s)
    (h : assignedSlot site s = .ok r t) : Poised t := by
  refine ⟨((steps_assignedSlot site).of_ok h).ready hs.ready.grown hs.ready, ?_⟩
  rcases assignedSlot_ok h with ⟨-, rfl⟩ | ⟨v, -, h⟩
  · exact hs.unended
  · obtain ⟨id, f, hin, hb, -, rfl⟩ := promote_ok h
    have hu := unended_put (g := (f.addSlot v.ty).addSeed v (.reg f.registers (.ptr v.ty))) hin rfl
      hs.unended
    obtain ⟨id, g, b, k, hat, ho⟩ := hu
    exact ⟨id, g, b, k, ⟨⟨hat.function, hat.found⟩, hat.cursor, hat.block⟩, ho⟩

theorem setBlock_ready {b : Nat} {u : Unit} {t : LowerState} (hs : Ready s)
    (hb : Grown (b + 1) s) (h : setBlock b s = .ok u t) : Ready t :=
  ((steps_setBlock (Nat.zero_le b) hb).of_ok h).ready hs.grown hs

theorem setBlock_openAt {b c : Nat} {u : Unit} {t : LowerState} (h : setBlock b s = .ok u t)
    (ho : OpenAt c s) : OpenAt c t ∧ t.block = some b := by
  cases h
  obtain ⟨id, f, k, hin, hk, ho⟩ := ho
  exact ⟨⟨id, f, k, ⟨hin.function, hin.found⟩, hk, ho⟩, rfl⟩

theorem block_ready {t : Tree} {b : Nat} {u : Unit} {v : LowerState} (hs : Ready s)
    (hb : Grown (b + 1) s) (h : block b t s = .ok u v) : Ready v := by
  have hm : Made 0 [b] s := ⟨hs.grown, by simpa using hb⟩
  exact (Steps.of_ok (steps_block t b s hm) h).ready hs.grown hs

theorem block_openAt {t : Tree} {b c : Nat} {u : Unit} {v : LowerState} (hne : b ≠ c)
    (ho : OpenAt c s) (h : block b t s = .ok u v) : OpenAt c v ∧ v.block ≠ some c := by
  cases t with
  | node site ts =>
    rw [block.eq_1] at h
    split at h
    · obtain ⟨_, w, hw, h₁⟩ := bind_ok.mp h
      obtain ⟨how, hbw⟩ := setBlock_openAt hw ho
      have hsteps : Steps (c + 1) w (last (statements ts w)) :=
        steps_statements (fun t _ s hn => steps_statement t hn) how.grown
      refine (hsteps.of_ok h₁).openAt how.grown (Nat.lt_succ_self c) ?_ how
      rw [hbw, ne_eq, Option.some.injEq]
      exact hne
    · cases h

end Lower

end TreeFlow
