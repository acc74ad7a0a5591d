import TreeFlow.Tree.Reader
import TreeFlow.Proofs.Blame

/-!
# What one character does to the reader

Blanks and comments apart, the reader is in one of a few phases: it waits for a
node, it has read a leaf, it opens a head, it spells a name, or it has failed.
`Turn` lists what a character can do to the phase and to the nodes that are
open. The names of the heads that have been read come in preorder, and a
finished outline has just these names.
-/

set_option autoImplicit false

namespace TreeFlow

/-! ## Names in preorder -/

namespace Outline

mutual

def names : Outline → List String
  | .node h os => h.name :: namesAll os

def namesAll : List Outline → List String
  | [] => []
  | o :: os => o.names ++ namesAll os

end

theorem namesAll_append (os os' : List Outline) :
    namesAll (os ++ os') = namesAll os ++ namesAll os' := by
  induction os with
  | nil => rfl
  | cons o os ih => simp only [List.cons_append, namesAll, ih, List.append_assoc]

mutual

theorem names_of_resolve {file : String} : ∀ {o : Outline} {t : Tree}, o.resolve file = .ok t →
    t.sites.map Site.name = o.names
  | .node h os, t, ht => by
    rw [resolve] at ht
    split at ht
    · cases ht
    · split at ht
      · rename_i ts hts
        cases ht
        rw [Tree.sites_node, List.map_cons, names, namesAll_of_resolve hts]
      · cases ht

theorem namesAll_of_resolve {file : String} : ∀ {os : List Outline} {ts : List Tree},
    resolveAll file os = .ok ts → (Tree.sitesAll ts).map Site.name = namesAll os
  | [], ts, hts => by
    rw [resolveAll] at hts
    cases hts
    rfl
  | o :: os, ts, hts => by
    rw [resolveAll] at hts
    split at hts
    · rename_i t ht
      split at hts
      · rename_i ts' hts'
        cases hts
        rw [Tree.sitesAll, List.flatMap_cons, List.map_append, names_of_resolve ht, namesAll,
          ← namesAll_of_resolve hts', Tree.sitesAll]
      · cases hts
    · cases hts

end

end Outline

namespace Reader

/-! ## Phases -/

inductive Phase where
  | fresh
  | leaf (head : Head)
  | opening
  | naming (name : List Char)
  | failed

def Gap.phase : Gap → Phase
  | .fresh => .fresh
  | .leaf h => .leaf h
  | .word _ | .paren _ => .opening
  | .named _ text => .naming text

def Mode.phase : Mode → Phase
  | .gap g | .slash g _ | .comment g => g.phase
  | .word _ => .opening
  | .name _ text => .naming text
  | .failed _ => .failed

def Phase.text? : Phase → Option (List Char)
  | .opening => some []
  | .naming name => some name
  | .fresh | .leaf _ | .failed => none

def Phase.names : Phase → List String
  | .leaf h => [h.name]
  | .fresh | .opening | .naming _ | .failed => []

theorem Phase.quiet_of_text? {p : Phase} {name : List Char} (h : p.text? = some name) :
    p ≠ .fresh ∧ p.names = [] := by
  cases p with
  | opening => exact ⟨nofun, rfl⟩
  | naming => exact ⟨nofun, rfl⟩
  | _ => cases h

def spelled (name : List Char) : String := String.ofList (Text.trim name.reverse)

namespace State

def settled (s : State) : State :=
  match s.mode.phase with
  | .leaf h => s.attach (.node h [])
  | _ => s

def AtNode (s : State) : Prop := s.mode.phase = .fresh ∨ ∃ h, s.mode.phase = .leaf h

inductive Turn (s : State) : State → Prop
  | fails {t : State} (phase : t.mode.phase = .failed) : Turn s t
  | stays {t : State} (frames : t.frames = s.frames) (root : t.root = s.root)
      (phase : t.mode.phase = s.mode.phase) : Turn s t
  | starts {t : State} (ready : s.AtNode) (frames : t.frames = s.settled.frames)
      (vacant : s.settled.root = none) (root : t.root = none)
      (phase : t.mode.phase = .opening) : Turn s t
  | closes {t u : State} (ready : s.AtNode) (closed : s.settled.close? = some u)
      (frames : t.frames = u.frames) (root : t.root = u.root)
      (phase : t.mode.phase = .fresh) : Turn s t
  | opens {t : State} {h : Head} (ready : s.mode.phase = .leaf h)
      (frames : t.frames = ⟨h, []⟩ :: s.frames) (root : t.root = s.root)
      (phase : t.mode.phase = .fresh) : Turn s t
  | grows {t : State} {name : List Char} (more : List Char)
      (ready : s.mode.phase.text? = some name)
      (legal : ∀ c ∈ more, isName c = true) (frames : t.frames = s.frames) (root : t.root = s.root)
      (phase : t.mode.phase = .naming (more ++ name)) : Turn s t
  | ends {t : State} {name : List Char} {h : Head} (more : List Char)
      (ready : s.mode.phase.text? = some name)
      (legal : ∀ c ∈ more, isName c = true) (frames : t.frames = s.frames) (root : t.root = s.root)
      (phase : t.mode.phase = .leaf h) (spelled : h.name = spelled (more ++ name)) : Turn s t

section Turning

variable {s t : State} {g : Gap} {c : Char}

theorem Turn.moved (h : s.Turn t) (p : Place) : s.Turn { t with place := p } := by
  cases h with
  | fails phase => exact .fails phase
  | stays frames root phase => exact .stays frames root phase
  | starts ready frames vacant root phase => exact .starts ready frames vacant root phase
  | closes ready closed frames root phase => exact .closes ready closed frames root phase
  | opens ready frames root phase => exact .opens ready frames root phase
  | grows more ready legal frames root phase => exact .grows more ready legal frames root phase
  | ends more ready legal frames root phase spelled =>
    exact .ends more ready legal frames root phase spelled

theorem settled_of_fresh (h : s.mode.phase = .fresh) : s.settled = s := by
  rw [settled, h]

theorem settled_of_leaf {h : Head} (hs : s.mode.phase = .leaf h) :
    s.settled = s.attach (.node h []) := by
  rw [settled, hs]

theorem begin?_some {u : State} {afterLeaf : Bool} (h : s.begin? c afterLeaf = some u) :
    s.root = none ∧ ∃ st, u = s.enter (.word st) := by
  unfold begin? at h
  split at h
  · rename_i hc
    cases h
    exact ⟨Option.isNone_iff_eq_none.mp (Bool.and_eq_true_iff.mp hc).1, _, rfl⟩
  · cases h

theorem stepName_turn {st : Start} {name : List Char} (more : List Char)
    (hs : s.mode.phase.text? = some name) (hmore : ∀ d ∈ more, isName d = true) (c : Char) :
    s.Turn (s.stepName st (more ++ name) c) := by
  unfold stepName
  split
  · exact .ends more hs hmore rfl rfl rfl rfl
  · split
    · exact .grows more hs hmore rfl rfl rfl
    · rename_i hparen hline
      refine .grows (c :: more) hs (List.forall_mem_cons.mpr ⟨?_, hmore⟩) rfl rfl rfl
      simp [isName, hparen, hline]

theorem leave_turn {u : State} (hg : s.mode.phase = g.phase) (hc : isGap c = false)
    (h : s.leave g c = some u) : s.Turn u := by
  cases g with
  | fresh =>
    have hsame := settled_of_fresh hg
    simp only [leave] at h
    split at h
    · obtain ⟨u', hu', rfl⟩ := Option.map_eq_some_iff.mp h
      exact .closes (u := u') (.inl hg) (hsame.symm ▸ hu') rfl rfl rfl
    · obtain ⟨hroot, st, rfl⟩ := begin?_some h
      exact .starts (.inl hg) (by rw [hsame]; rfl) (by rw [hsame]; exact hroot) hroot rfl
  | leaf l =>
    have hsame := settled_of_leaf hg
    simp only [leave] at h
    split at h
    · cases h
      exact .opens hg rfl rfl rfl
    · split at h
      · obtain ⟨u', hu', rfl⟩ := Option.map_eq_some_iff.mp h
        exact .closes (u := u') (.inr ⟨l, hg⟩) (hsame.symm ▸ hu') rfl rfl rfl
      · obtain ⟨hroot, st, rfl⟩ := begin?_some h
        exact .starts (.inr ⟨l, hg⟩) (by rw [hsame]; rfl) (by rw [hsame]; exact hroot) hroot rfl
  | word st =>
    simp only [leave] at h
    split at h
    · cases h
      exact .stays rfl rfl hg.symm
    · cases h
  | paren st =>
    have htext : s.mode.phase.text? = some [] := by rw [hg]; rfl
    simp only [leave] at h
    cases h
    split
    · exact .ends [] htext nofun rfl rfl rfl rfl
    · rename_i hparen
      have hname : isName c = true := by
        simp only [isGap, Bool.or_eq_false_iff] at hc
        simp [isName, hparen, hc.2]
      exact .grows [c] htext (by simpa using hname) rfl rfl rfl
  | named st name =>
    have htext : s.mode.phase.text? = some name := by rw [hg]; rfl
    simp only [leave] at h
    split at h
    · cases h
      exact .ends [] htext nofun rfl rfl rfl rfl
    · cases h

theorem stepGap_turn (hg : s.mode.phase = g.phase) (c : Char) : s.Turn (s.stepGap g c) := by
  unfold stepGap
  split
  · exact .stays rfl rfl hg.symm
  · rename_i hc
    split
    · exact .stays rfl rfl hg.symm
    · cases hl : s.leave g c with
      | none => exact .fails rfl
      | some u => exact leave_turn hg (by simpa using hc) hl

theorem react_turn (s : State) (c : Char) : s.Turn (s.react c) := by
  unfold react
  cases hm : s.mode with
  | gap g => exact stepGap_turn (by rw [hm]; rfl) c
  | slash g p =>
    dsimp only
    split
    · exact .stays rfl rfl (by rw [hm]; rfl)
    · cases g with
      | paren st => exact stepName_turn ['/'] (by rw [hm]; rfl) (List.all_eq_true.mp rfl) c
      | _ => exact .fails rfl
  | comment g =>
    dsimp only
    split
    · exact .stays rfl rfl (by rw [hm]; rfl)
    · exact .stays rfl rfl rfl
  | word st =>
    dsimp only
    split
    · exact .stays rfl rfl (by rw [hm]; rfl)
    · exact stepGap_turn (by rw [hm]; rfl) c
  | name st name => exact stepName_turn [] (by rw [hm]; rfl) nofun c
  | failed e => exact .fails (by rw [hm]; rfl)

theorem step_turn (s : State) (c : Char) : s.Turn (s.step c) := (react_turn s c).moved _

theorem run_failed (h : s.mode.phase = .failed) (cs : List Char) :
    (s.run cs).mode.phase = .failed := by
  induction cs generalizing s with
  | nil => exact h
  | cons c cs ih =>
    refine ih ?_
    cases hm : s.mode with
    | failed e =>
      simp only [step, react, hm]
      rfl
    | gap g => rw [hm] at h; cases g <;> cases h
    | slash g p => rw [hm] at h; cases g <;> cases h
    | comment g => rw [hm] at h; cases g <;> cases h
    | word st => rw [hm] at h; cases h
    | name st name => rw [hm] at h; cases h

end Turning

end State

/-! ## The names that have been read -/

def Frame.names (f : Frame) : List String := f.head.name :: Outline.namesAll f.children.reverse

def frameNames : List Frame → List String
  | [] => []
  | f :: fs => frameNames fs ++ f.names

def rootNames : Option Outline → List String
  | none => []
  | some o => o.names

/-- A name that a reader can produce. -/
def Readable (name : String) : Prop :=
  Text.trim name.toList = name.toList ∧ ∀ c ∈ name.toList, isName c = true

namespace State

def placed (s : State) : List String := frameNames s.frames ++ rootNames s.root

def names (s : State) : List String := s.placed ++ s.mode.phase.names

def Alone (s : State) : Prop := s.root = none ∨ s.frames = [] ∧ s.mode.phase = .fresh

section Names

variable {s t u : State} {o : Outline}

theorem placed_attach (h : s.root = none) : (s.attach o).placed = s.placed ++ o.names := by
  unfold attach placed
  split
  · rename_i hf
    simp [hf, h, rootNames, frameNames]
  · rename_i f fs hf
    simp [hf, h, rootNames, frameNames, Frame.names, Outline.namesAll_append, Outline.namesAll]

theorem root_attach (h : s.frames ≠ []) : (s.attach o).root = s.root := by
  unfold attach
  split
  · exact absurd ‹_› h
  · rfl

theorem frames_attach : (s.attach o).frames = [] ↔ s.frames = [] := by
  unfold attach
  split <;> simp_all

theorem placed_close (h : s.root = none) (hc : s.close? = some u) :
    u.placed = s.placed ∧ (u.root = none ∨ u.frames = []) := by
  unfold close? at hc
  split at hc
  · cases hc
  · rename_i f fs hf
    cases hc
    constructor
    · rw [placed_attach (by exact h)]
      simp [placed, hf, h, rootNames, frameNames, Frame.names, Outline.names]
    · by_cases hfs : fs = []
      · exact .inr (frames_attach.mpr hfs)
      · exact .inl ((root_attach hfs).trans h)

theorem Alone.root (h : s.Alone) (hs : s.mode.phase ≠ .fresh) : s.root = none :=
  h.resolve_right fun hr => hs hr.2

theorem Alone.placed_settled (h : s.Alone) (hs : s.AtNode) : s.settled.placed = s.names := by
  rcases hs with hs | ⟨l, hs⟩
  · rw [settled_of_fresh hs, names, hs, Phase.names, List.append_nil]
  · rw [settled_of_leaf hs, placed_attach (h.root (by rw [hs]; nofun)), names, hs]
    rfl

theorem Alone.root_settled (h : s.Alone) (hs : s.AtNode) (hc : s.settled.close? = some u) :
    s.settled.root = none := by
  rcases hs with hs | ⟨l, hs⟩
  · rw [settled_of_fresh hs] at hc ⊢
    refine h.resolve_right fun hr => ?_
    rw [close?, hr.1] at hc
    cases hc
  · have hroot := h.root (by rw [hs]; nofun)
    rw [settled_of_leaf hs] at hc ⊢
    have hne : s.frames ≠ [] := by
      intro hnil
      rw [close?, frames_attach.mpr hnil] at hc
      cases hc
    rw [root_attach hne, hroot]

theorem AtNode.no_text (h : s.AtNode) (name : List Char) : s.mode.phase.text? ≠ some name := by
  rcases h with h | ⟨l, h⟩ <;> rw [h] <;> nofun

/-- A character that does not make the reader fail keeps the names that have
been read and what has been read of the next one, or completes that one. -/
theorem Turn.names (h : s.Turn t) (hs : s.Alone) (ht : t.mode.phase ≠ .failed) :
    t.Alone ∧ ((t.names = s.names ∧ ∀ name, s.mode.phase.text? = some name →
        ∃ more, t.mode.phase.text? = some (more ++ name)) ∨
      ∃ name more, s.mode.phase.text? = some name ∧ (∀ c ∈ more, isName c = true) ∧
        t.names = s.names ++ [spelled (more ++ name)]) := by
  cases h with
  | fails phase => exact absurd phase ht
  | stays frames root phase =>
    refine ⟨?_, .inl ⟨?_, fun name h => ⟨[], by rw [phase, h]; rfl⟩⟩⟩
    · rwa [Alone, frames, root, phase]
    · rw [State.names, State.names, placed, placed, frames, root, phase]
  | starts ready frames vacant root phase =>
    refine ⟨.inl root, .inl ⟨?_, fun name h => absurd h (ready.no_text name)⟩⟩
    rw [← hs.placed_settled ready, State.names, phase, Phase.names, List.append_nil, placed, placed,
      frames, root, vacant]
  | closes ready closed frames root phase =>
    obtain ⟨hplaced, halone⟩ := placed_close (hs.root_settled ready closed) closed
    refine ⟨?_, .inl ⟨?_, fun name h => absurd h (ready.no_text name)⟩⟩
    · rw [Alone, frames, root]
      exact halone.imp_right fun hf => ⟨hf, phase⟩
    · rw [← hs.placed_settled ready, ← hplaced, State.names, phase, Phase.names, List.append_nil,
        placed, placed, frames, root]
  | opens ready frames root phase =>
    have hroot := hs.root (by rw [ready]; nofun)
    refine ⟨.inl (root.trans hroot), .inl ⟨?_, fun name h => ?_⟩⟩
    · rw [State.names, State.names, phase, ready, placed, placed, frames, root, hroot]
      simp [frameNames, rootNames, Frame.names, Outline.namesAll, Phase.names]
    · exact absurd h (AtNode.no_text (.inr ⟨_, ready⟩) name)
  | grows more ready legal frames root phase =>
    have hquiet := Phase.quiet_of_text? ready
    refine ⟨.inl (root.trans (hs.root hquiet.1)), .inl ⟨?_, fun name h => ⟨more, ?_⟩⟩⟩
    · rw [State.names, State.names, phase, hquiet.2, placed, placed, frames, root]
      rfl
    · rw [phase, ← Option.some.inj (ready.symm.trans h)]
      rfl
  | @ends name h more ready legal frames root phase hname =>
    have hquiet := Phase.quiet_of_text? ready
    refine ⟨.inl (root.trans (hs.root hquiet.1)), .inr ⟨name, more, ready, legal, ?_⟩⟩
    rw [State.names, State.names, phase, hquiet.2, placed, placed, frames, root, Phase.names, hname,
      List.append_nil]

end Names

end State

end Reader

end TreeFlow
