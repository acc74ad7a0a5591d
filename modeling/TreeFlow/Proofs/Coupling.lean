import TreeFlow.Proofs.Comparison

/-!
# Coupled runs

Two runs are coupled by a relation between their states. If each operation on
the state keeps the relation, so does the lowering of every statement, for it is
put together from these operations. The second run may have other values than
the first one, and of a value it only matters that it has the same type. A
relation of states to themselves is an invariant of one run.
-/

set_option autoImplicit false

namespace TreeFlow

/-! ## Other values -/

section Map

variable (σ : Value → Value)

def Instr.map : Instr → Instr
  | .alloca d ty => .alloca d ty
  | .load d ty p => .load d ty (σ p)
  | .store v p => .store (σ v) (σ p)
  | .binary d op l r => .binary d op (σ l) (σ r)
  | .icmp d test l r => .icmp d test (σ l) (σ r)
  | .call d callee args => .call d callee (args.map σ)

def Terminator.map : Terminator → Terminator
  | .br target => .br target
  | .condBr c yes no => .condBr (σ c) yes no
  | .ret v => .ret (v.map σ)

def Storage.map : Storage → Storage
  | .register v => .register (σ v)
  | .slot p ty => .slot (σ p) ty

def Binding.map : Binding → Binding
  | .stored storage => .stored (storage.map σ)
  | .constant n => .constant n

def Callee.map (c : Callee) : Callee := { c with leading := c.leading.map σ }

end Map

theorem Instr.map_id (i : Instr) : i.map id = i := by
  cases i <;> simp [Instr.map]

theorem Terminator.map_id (x : Terminator) : x.map id = x := by
  cases x <;> simp [Terminator.map]

theorem Storage.map_id (s : Storage) : s.map id = s := by
  cases s <;> rfl

theorem Binding.map_id (b : Binding) : b.map id = b := by
  cases b with
  | stored s => rw [Binding.map, Storage.map_id]
  | constant n => rfl

def Instr.isCall : Instr → Bool
  | .call _ _ _ => true
  | _ => false

section Related

variable {σ : Value → Value}

theorem Storage.Related.eq_map {s s' : Storage} (h : s.Related (fun v w => w = σ v) s') :
    s' = s.map σ := by
  cases h with
  | register h => rw [h]; rfl
  | slot h => rw [h]; rfl

theorem Binding.related_map (b : Binding) : b.Related (fun v w => w = σ v) (b.map σ) := by
  cases b with
  | constant => exact .constant
  | stored s =>
    cases s with
    | register => exact .stored (.register rfl)
    | slot => exact .stored (.slot rfl)

theorem Instr.Related.eq_map {i i' : Instr} (h : i.Related (fun v w => w = σ v) i') :
    i' = i.map σ ∧ i.isCall = false := by
  cases h with
  | load hp => exact ⟨by rw [hp]; rfl, rfl⟩
  | binary hl hr => exact ⟨by rw [hl, hr]; rfl, rfl⟩
  | icmp hl hr => exact ⟨by rw [hl, hr]; rfl, rfl⟩

theorem Terminator.Related.eq_map {x y : Terminator} (h : x.Related (fun v w => w = σ v) y) :
    y = x.map σ := by
  cases h with
  | br => rfl
  | condBr hc => rw [hc]; rfl
  | ret hv =>
    cases hv with
    | none => rfl
    | some hv => rw [hv]; rfl

end Related

namespace Lower

variable {ι α β γ δ : Type} {R : ι → LowerState → LowerState → Prop}

/-- Where the first action succeeds, so does the second one from a related
state, and the states stay related. -/
def Follows (R : ι → LowerState → LowerState → Prop) (view : α → β) (x : Lower α) (y : Lower β) :
    Prop :=
  ∀ ⦃i : ι⦄ ⦃s s' t : LowerState⦄ ⦃a : α⦄, R i s s' → x s = .ok a t →
    ∃ t', y s' = .ok (view a) t' ∧ R i t t'

theorem Follows.bind {f : α → β} {g : γ → δ} {x : Lower α} {y : Lower β} {k : α → Lower γ}
    {l : β → Lower δ} (hx : Follows R f x y) (hk : ∀ a, Follows R g (k a) (l (f a))) :
    Follows R g (x >>= k) (y >>= l) := by
  intro i s s' t c hrel hr
  obtain ⟨a, u, hu, hr⟩ := bind_ok.mp hr
  obtain ⟨u', hu', hrel'⟩ := hx hrel hu
  obtain ⟨t', ht', hrel''⟩ := hk a hrel' hr
  exact ⟨t', bind_ok.mpr ⟨f a, u', hu', ht'⟩, hrel''⟩

theorem follows_pure (view : α → β) (a : α) : Follows R view (pure a) (pure (view a)) := by
  intro i s s' t c hrel hr
  cases hr
  exact ⟨s', rfl, hrel⟩

theorem follows_throw (view : α → β) (e : LowerError) (y : Lower β) :
    Follows R view (throw e) y := by
  intro i s s' t a _ hr
  cases hr

theorem follows_lift (x : Except LowerError α) : Follows R id (lift x) (lift x) := by
  cases x with
  | ok a => exact follows_pure id a
  | error e => exact follows_throw id e _

theorem inLoop_of_ok {l : LoopTargets} {x : Lower α} {s t : LowerState} {a : α}
    (h : x { s with loops := l :: s.loops } = .ok a t) :
    inLoop l x s = .ok a { t with loops := t.loops.tail } :=
  bind_ok.mpr ⟨(), _, rfl, ensuring_ok.mpr ⟨t, h, rfl⟩⟩

/-- A relation between the states of two runs that the operations of the
lowering keep. -/
structure Coupling (ι : Type) where
  rel : ι → LowerState → LowerState → Prop
  value : Value → Value
  value_ty : ∀ v, (value v).ty = v.ty
  value_const : ∀ ty n, value (.const ty n) = .const ty n
  note : ∀ e, Follows rel id (note e) (note e)
  nested : ∀ {α β : Type} {view : α → β} {x : Lower α} {y : Lower β} (site : Site),
    Follows rel view x y → Follows rel view (nested site x) (nested site y)
  inLoop : ∀ {x y : Lower Unit} (l : LoopTargets),
    Follows rel id x y → Follows rel id (inLoop l x) (inLoop l y)
  innermostLoop : Follows rel id innermostLoop innermostLoop
  lookup : ∀ name, Follows rel (Option.map (Binding.map value)) (lookup name) (lookup name)
  bind : ∀ name storage, Follows rel id (bind name storage) (bind name (storage.map value))
  newBlock : ∀ label, Follows rel id (newBlock label) (newBlock label)
  setBlock : ∀ b, Follows rel id (setBlock b) (setBlock b)
  alloca : ∀ ty, Follows rel value (alloca ty) (alloca ty)
  seed : ∀ v p, Follows rel id (seed v p) (seed (value v) (value p))
  define : ∀ (ty : Ty) (make : Nat → Instr), (∀ d, (make d).isCall = false) →
    Follows rel value (inBlock fun b => Build.define b ty make)
      (inBlock fun b => Build.define b ty fun d => (make d).map value)
  store : ∀ v p, Follows rel id (store v p) (store (value v) (value p))
  terminate : ∀ x, Follows rel id (inBlock fun b => Build.terminate b x)
    (inBlock fun b => Build.terminate b (x.map value))
  terminated : Follows rel id terminated terminated
  /-- Calls are left to the relation, for they also change the module. -/
  functionCall : ∀ (site : Site) (ts : List Tree),
    (∀ t ∈ ts, Follows rel value (expression t) (expression t)) →
      Follows rel (Option.map value) (functionCall (.node site ts)) (functionCall (.node site ts))

theorem Follows.tracks {view : α → β} {P : α → β → Prop} {x : Lower α} {y : Lower β}
    (h : Follows R view x y) (hP : ∀ a, P a (view a)) : Tracks (fun _ => False) R P x y := by
  intro i s s' t a hrel hr
  obtain ⟨t', ht', hrel'⟩ := h hrel hr
  exact .inl ⟨view a, t', ht', hP a, hrel'⟩

theorem Tracks.follows {view : α → β} {P : α → β → Prop} {x : Lower α} {y : Lower β}
    (h : Tracks (fun _ => False) R P x y) (hP : ∀ a b, P a b → b = view a) :
    Follows R view x y := by
  intro i s s' t a hrel hr
  rcases h hrel hr with ⟨b, t', ht', hab, hrel'⟩ | ⟨_, _, -, h⟩
  · obtain rfl := hP a b hab
    exact ⟨t', ht', hrel'⟩
  · exact h.elim

theorem follows_arguments {σ : Value → Value} (hty : ∀ v, (σ v).ty = v.ty) {ts : List Tree}
    (h : ∀ t ∈ ts, Follows R σ (expression t) (expression t)) (c : Callee) (args : List Value) :
    Follows R (List.map σ) (arguments c args ts) (arguments (c.map σ) (args.map σ) ts) := by
  have hts := fun t ht => (h t ht).tracks (P := fun v w => w = σ v) fun _ => rfl
  refine (tracks_arguments hts args (args.map σ) fun i v w site hv hcheck => ?_).follows ?_
  · rw [hv, ← hcheck]
    simp only [checkArgument, Callee.map, List.length_map, hty]
  · rintro _ _ ⟨vs, ws, rfl, rfl, hvs⟩
    rw [List.map_append]
    refine congrArg (args.map σ ++ ·) ?_
    induction hvs with
    | nil => rfl
    | cons hv _ ih => rw [hv, ih, List.map_cons]

namespace Coupling

variable (C : Coupling ι)

def comparison : Comparison where
  holds := Tracks (fun _ => False) C.rel
  value v w := w = C.value v
  called _ := True
  value_ty h := by rw [h, C.value_ty]
  value_const n ty := (C.value_const ty n).symm
  pure := tracks_pure
  throw := tracks_throw
  bind := Tracks.bind
  note e := (C.note e).tracks fun _ => trivial
  nestedValue site h := (C.nested site (h.follows fun _ _ he => he)).tracks fun _ => rfl
  nested site h := by
    have hfollows : Follows C.rel id _ _ := h.follows fun _ _ _ => rfl
    exact (C.nested site hfollows).tracks fun _ => trivial
  inLoop l h := (C.inLoop l (h.follows fun _ _ _ => rfl)).tracks fun _ => trivial
  innermostLoop := C.innermostLoop.tracks fun _ => rfl
  lookup name := (C.lookup name).tracks fun b => by
    cases b with
    | none => exact .none
    | some b => exact .some b.related_map
  bindName name {storage _} h := by
    rw [h.eq_map]
    exact (C.bind name storage).tracks fun _ => trivial
  newBlock label := (C.newBlock label).tracks fun _ => rfl
  setBlock b := (C.setBlock b).tracks fun _ => trivial
  alloca ty := (C.alloca ty).tracks fun _ => rfl
  seed hv hp := by
    rw [hv, hp]
    exact (C.seed _ _).tracks fun _ => trivial
  define ty {make make'} h := by
    rw [show make' = fun d => (make d).map C.value from funext fun d => (h d).eq_map.1]
    exact (C.define ty make fun d => (h d).eq_map.2).tracks fun _ => rfl
  store hv hp := by
    rw [hv, hp]
    exact (C.store _ _).tracks fun _ => trivial
  terminate {x _} h := by
    rw [h.eq_map]
    exact (C.terminate x).tracks fun _ => trivial
  terminated := C.terminated.tracks fun _ => rfl
  functionCall site ts _ h := by
    have hts := fun t ht => (h t ht).follows fun _ _ he => he
    refine (C.functionCall site ts hts).tracks fun v a hv => ?_
    exact ⟨C.value a, by rw [hv]; rfl, rfl⟩

theorem bodyCode (site : Site) (b : Nat) (ty : Ty) (c : Tree) :
    Follows C.rel id (bodyCode site b ty c) (bodyCode site b ty c) :=
  Tracks.follows (C.comparison.bodyCode site b ty c fun _ _ _ => trivial) fun _ _ _ => rfl

end Coupling

end Lower

end TreeFlow
