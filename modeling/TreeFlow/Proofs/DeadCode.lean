import TreeFlow.Proofs.Rewriting

/-!
# Dead code

A statement that transfers control ends the block it stands in. Whatever follows it in
the same row is skipped without being looked at, so more may be put there: the program
lowers to the same module or to the same error. The row may belong to a block at any
depth of a function body.
-/

set_option autoImplicit false

namespace TreeFlow

namespace Tree

def transfers (t : Tree) : Bool :=
  t.kind = .returnStatement ∨ t.kind = .statement ∧ (t.name = "break" ∨ t.name = "continue")

/-- Somewhere in the tree, trees are put behind a statement of a block that transfers
control. -/
inductive Padded : Tree → Tree → Prop
  | here {site : Site} (kind : site.kind = .block) (before : List Tree) {stop : Tree}
      (transfers : stop.transfers = true) (extra after : List Tree) :
      Padded (.node site (before ++ stop :: after))
        (.node site (before ++ stop :: (extra ++ after)))
  | inside (site : Site) (before : List Tree) {t t' : Tree} (child : Padded t t')
      (after : List Tree) :
      Padded (.node site (before ++ t :: after)) (.node site (before ++ t' :: after))

end Tree

namespace Lower

variable {s t : LowerState}

theorem terminate_ends {x : Terminator} {u : Unit}
    (h : inBlock (fun b => Build.terminate b x) s = .ok u t) : terminated t = .ok true t := by
  obtain ⟨id, f, b, k, hat, -, -, rfl⟩ := terminate_ok.mp h
  refine terminated_ok.mpr ⟨id, f.close b x, b, { k with terminator := some x }, ?_, rfl, rfl⟩
  refine ⟨hat.toIn.put _, hat.cursor, ?_⟩
  simp [Function.close, hat.block]

theorem returnStatement_ends {site : Site} {ts : List Tree} {u : Unit}
    (h : returnStatement site ts s = .ok u t) : terminated t = .ok true t := by
  rcases ts with _ | ⟨c, _ | ⟨d, ts⟩⟩
  · exact terminate_ends h
  · obtain ⟨v, w, -, hret⟩ := bind_ok.mp h
    exact terminate_ends hret
  · cases h

theorem jump_ends {site : Site} {outside : Cause} {target : LoopTargets → Nat} {ts : List Tree}
    {u : Unit} (h : jump site outside target ts s = .ok u t) : terminated t = .ok true t := by
  rcases ts with _ | ⟨c, ts⟩
  · obtain ⟨l, w, -, hbr⟩ := bind_ok.mp h
    cases l with
    | none => cases hbr
    | some l => exact terminate_ends hbr
  · cases h

theorem terminated_of_same {ended : Bool} (h : terminated s = .ok ended s)
    (hfunction : t.function = s.function) (hfunctions : t.module.functions = s.module.functions)
    (hblock : t.block = s.block) : terminated t = .ok ended t := by
  obtain ⟨id, f, b, k, hat, hended, -⟩ := terminated_ok.mp h
  have hfound : t.module.function? id = some f := by
    rw [Module.function?, hfunctions]
    exact hat.found
  have hat' : t.At id f b k :=
    ⟨⟨hfunction.trans hat.function, hfound⟩, hblock.trans hat.cursor, hat.block⟩
  exact terminated_ok.mpr ⟨id, f, b, k, hat', hended, rfl⟩

theorem nested_ends {site : Site} {x : Lower Unit} {u : Unit}
    (hx : ∀ {v w : LowerState}, x v = .ok u w → terminated w = .ok true w)
    (h : nested site x s = .ok u t) : terminated t = .ok true t := by
  obtain ⟨-, w, hw, rfl⟩ := nested_ok.mp h
  exact terminated_of_same (hx hw) rfl rfl rfl

theorem statement_ends {stop : Tree} (hstop : stop.transfers = true) {u : Unit}
    (h : statement stop s = .ok u t) : terminated t = .ok true t := by
  obtain ⟨site, ts⟩ := stop
  have hcases : site.kind = .returnStatement ∨
      site.kind = .statement ∧ (site.name = "break" ∨ site.name = "continue") :=
    of_decide_eq_true hstop
  rcases hcases with kind | ⟨kind, name | name⟩
  · rw [statement_return kind] at h
    exact nested_ends returnStatement_ends h
  · rw [statement_named kind, if_neg (by rw [name]; decide), if_pos name] at h
    exact nested_ends jump_ends h
  · rw [statement_named kind, if_neg (by rw [name]; decide), if_neg (by rw [name]; decide),
      if_pos name] at h
    exact nested_ends jump_ends h

theorem statements_ended (h : terminated s = .ok true s) (ts : List Tree) :
    ∃ log, statements ts s = .ok () { s with log := log } := by
  rcases ts with _ | ⟨t, ts⟩
  · rw [statements]
    exact ⟨s.log, rfl⟩
  · rw [statements, bind_of_ok h]
    exact ⟨_, rfl⟩

section Padding

variable {strict : Prop}

/-- Behind a statement that transfers control, any two rows lower alike. -/
theorem agrees_skipped {stop : Tree} (hstop : stop.transfers = true) (ts ts' : List Tree) :
    Agrees (.plain strict) (do statement stop; statements ts)
      (do statement stop; statements ts') := by
  intro n n' s s' hs
  have hstep : Agrees (.plain strict) (statement stop) (statement stop) :=
    (alike_refl stop).statement
  have hrun := hstep n n' hs
  generalize hr : statement stop s = r, hr' : statement stop s' = r' at hrun
  cases hrun with
  | same =>
    rw [bind_of_error hr, bind_of_error hr']
    exact .same
  | lax hlax =>
    rw [bind_of_error hr]
    exact .lax hlax
  | refused hlax hkind =>
    rw [bind_of_error hr']
    exact .refused hlax hkind
  | ok hrel =>
    obtain ⟨log, hlog⟩ := statements_ended (statement_ends hstop hr) ts
    obtain ⟨log', hlog'⟩ := statements_ended (statement_ends hstop hr') ts'
    rw [bind_of_ok hr, bind_of_ok hr', hlog, hlog']
    exact .ok { hrel with }

theorem agrees_padded {stop : Tree} (hstop : stop.transfers = true) (before ts ts' : List Tree) :
    Agrees (.plain strict) (statements (before ++ stop :: ts))
      (statements (before ++ stop :: ts')) := by
  induction before with
  | nil => exact agrees_cons (agrees_skipped hstop ts ts')
  | cons t before ih => exact agrees_cons ((alike_refl t).statement.bind fun _ => ih)

end Padding

end Lower

namespace Tree

theorem Padded.alike {strict : Prop} {t t' : Tree} (h : t.Padded t') :
    Lower.Alike (.plain strict) t t' := by
  induction h with
  | here kind before hstop extra after =>
    exact Lower.alike_node (fun _ => Lower.agrees_padded hstop before after _)
      fun hk => absurd kind hk
  | inside site before child after ih =>
    have hsame : ∀ ts, List.Forall₂ (Lower.Alike (.plain strict)) ts ts := fun ts =>
      List.forall₂_same.mpr fun t _ => Lower.alike_refl t
    exact Lower.alike_of_children (List.rel_append (hsame before) (.cons ih (hsame after)))

/-- Trees put behind a transfer of control, in any block of the body of a function, do
not change what the program lowers to. -/
theorem lower_padded {body body' : Tree} (h : body.Padded body') (singlePass : Bool)
    (site fs : Site) (result params : Tree) (before behind : List Tree) :
    ((node site (before ++ node fs [result, params, body'] :: behind)).lower singlePass).result =
      ((node site
        (before ++ node fs [result, params, body] :: behind)).lower singlePass).result := by
  have hsame : ∀ ts, List.Forall₂ (Lower.Revised True) ts ts := fun ts =>
    List.forall₂_same.mpr fun t _ => .same t
  have hitems := List.rel_append (hsame before)
    (.cons (.body fs result params h.alike) (hsame behind))
  exact (Lower.lower_revised hitems singlePass site).1 trivial

/-- `while (x) { if (x) { break; … } }` with more behind the `break`. -/
def leaving (extra : List Tree) : Tree :=
  bare .block "" [bare .whileStatement "" [bare .identifier "x" [],
    bare .block "" [bare .statement "if" [bare .identifier "x" [],
      bare .block "" (bare .statement "break" [] :: extra)]]]]

def reader (body : Tree) : Tree :=
  bare .functionDeclaration "f" [bare .identifier "int" [],
    bare .parameters "" [bare .variableDeclaration "x" [bare .identifier "int" []]], body]

theorem leaving_nil_padded (extra : List Tree) : (leaving []).Padded (leaving (extra ++ [])) := by
  have hrow : (bare .block "" [bare .statement "break" []]).Padded
      (bare .block "" (bare .statement "break" [] :: (extra ++ []))) :=
    .here rfl [] (by decide) extra []
  have hif := Padded.inside ⟨.statement, "if", none⟩ [bare .identifier "x" []] hrow []
  have hbody := Padded.inside ⟨.block, "", none⟩ [] hif []
  have hloop := Padded.inside ⟨.whileStatement, "", none⟩ [bare .identifier "x" []] hbody []
  exact .inside ⟨.block, "", none⟩ [] hloop []

/-- Neither a call of the intrinsic nor what is no statement at all does anything
behind a `break`. -/
theorem leaving_padded :
    ∃ m, ((bare .program "" [reader (leaving [])]).lower false).result = .ok m ∧
      ((bare .program "" [reader (leaving [bare .functionCall "printf" [], bare .program "" [],
        bare .variableDeclaration "x" []])]).lower false).result = .ok m := by
  obtain ⟨m, hm⟩ : ∃ m, ((bare .program "" [reader (leaving [])]).lower false).result = .ok m :=
    Lower.except_of_isOk (by decide +kernel)
  have hpadded := leaving_nil_padded [bare .functionCall "printf" [], bare .program "" [],
    bare .variableDeclaration "x" []]
  exact ⟨m, hm, (lower_padded hpadded false _ _ _ _ [] []).trans hm⟩

end Tree

end TreeFlow
