import TreeFlow.Proofs.Entry
import TreeFlow.Proofs.Modes
import TreeFlow.Proofs.Operands
import TreeFlow.Proofs.Preservation
import TreeFlow.Proofs.Rewriting
import TreeFlow.Proofs.Structure

/-!
# Constants as substitution

A constant may be written out: in a program without its definitions, where every
operand that names a constant is the literal with its value, nothing is left to look
up. If no parameter or variable takes the name of a constant, such a program lowers to
the same module. A definition is in force from where it stands, so a function is
rewritten with the definitions above it, the last one of a name first.
-/

set_option autoImplicit false

namespace TreeFlow

variable {ts : List Tree} {site : Site}

/-! ## Numerals -/

namespace Text

theorem digits?_of_isDigit {cs : List Char} (h : ∀ c ∈ cs, c.isDigit = true) (n : Nat) :
    digits? n cs = some (Nat.ofDigitChars 10 cs n) := by
  induction cs generalizing n with
  | nil => rfl
  | cons c cs ih =>
    have hc : digit? c = some (c.toNat - '0'.toNat) := by
      have hdigit := h c (by simp)
      simp only [Char.isDigit, Bool.and_eq_true, decide_eq_true_eq] at hdigit
      exact if_pos hdigit
    rw [digits?, hc]
    exact ih (fun c hc => h c (by simp [hc])) _

theorem isDigit_of_mem_toDigits {c : Char} {n : Nat} (h : c ∈ Nat.toDigits 10 n) :
    c.isDigit = true :=
  Nat.isDigit_of_mem_toDigits (by decide) (by decide) h

theorem natural?_toDigits (n : Nat) : natural? (Nat.toDigits 10 n) = some n := by
  have hread : digits? 0 (Nat.toDigits 10 n) = some n := by
    rw [digits?_of_isDigit (fun _ => isDigit_of_mem_toDigits), Nat.ofDigitChars_ten_toDigits]
  rcases hdigits : Nat.toDigits 10 n with _ | ⟨c, cs⟩
  · exact absurd hdigits Nat.toDigits_ne_nil
  · rw [hdigits] at hread
    exact hread

theorem integer?_toDigits (n : Nat) : integer? (Nat.toDigits 10 n) = some (n : Int) := by
  have hread := natural?_toDigits n
  rcases hdigits : Nat.toDigits 10 n with _ | ⟨c, cs⟩
  · exact absurd hdigits Nat.toDigits_ne_nil
  · have hc : c.isDigit = true := isDigit_of_mem_toDigits (n := n) (by rw [hdigits]; simp)
    rw [hdigits] at hread
    -- a digit is no sign
    unfold integer?
    split
    · next h => cases h; exact absurd hc (by decide)
    · next h => cases h; exact absurd hc (by decide)
    · rw [hread]
      rfl

theorem isWhite_of_isDigit {c : Char} (h : c.isDigit = true) : isWhite c = false := by
  simp only [Char.isDigit, Bool.and_eq_true, decide_eq_true_eq, ge_iff_le,
    UInt32.le_iff_toNat_le] at h
  have hlow : 48 ≤ c.toNat := h.1
  have hhigh : c.toNat ≤ 57 := h.2
  simp only [isWhite, whiteRanges, List.any_cons, List.any_nil, Bool.or_false, Bool.or_eq_false_iff,
    Bool.and_eq_false_iff, decide_eq_false_iff_not]
  omega

theorem trim_eq_self {cs : List Char} (h : ∀ c ∈ cs, isWhite c = false) : trim cs = cs := by
  have hdrop : ∀ {ds : List Char}, (∀ c ∈ ds, isWhite c = false) → ds.dropWhile isWhite = ds := by
    intro ds hds
    rcases ds with _ | ⟨c, ds⟩
    · rfl
    · rw [List.dropWhile_cons_of_neg]
      rw [hds c (by simp)]
      decide
  rw [trim, trimLeft, hdrop h, trimRight, hdrop fun c hc => h c (List.mem_reverse.mp hc),
    List.reverse_reverse]

theorem int32?_toString {n : Int} (h : fitsInt32 n = true) :
    int32? (trim (toString n).toList) = some n := by
  have hinteger : integer? (trim (toString n).toList) = some n := by
    cases n with
    | ofNat m =>
      rw [show (toString (Int.ofNat m)).toList = Nat.toDigits 10 m from Nat.toList_repr,
        trim_eq_self fun c hc => isWhite_of_isDigit (isDigit_of_mem_toDigits hc)]
      exact integer?_toDigits m
    | negSucc m =>
      have htext : (toString (Int.negSucc m)).toList = '-' :: Nat.toDigits 10 (m + 1) := by
        rw [show toString (Int.negSucc m) = "-" ++ (m + 1).repr from rfl, String.toList_append,
          Nat.toList_repr]
        rfl
      rw [htext, trim_eq_self, integer?, natural?_toDigits]
      · rfl
      · intro c hc
        rcases List.mem_cons.mp hc with rfl | hc
        · decide
        · exact isWhite_of_isDigit (isDigit_of_mem_toDigits hc)
  rw [int32?, hinteger, Option.filter_some, if_pos h]

end Text

theorem Site.literal_toString {n : Int} (h : Text.fitsInt32 n = true) (location : Option Location) :
    (⟨.literal, toString n, location⟩ : Site).literal = .ok n := by
  rw [Site.literal, Text.int32?_toString h]

/-! ## Programs without constants -/

def Site.constantAs (site : Site) (cs : List (String × Int)) (role : Role) : Option Int :=
  if role = .value ∧ site.kind = .identifier then cs.lookup site.name else none

namespace Tree

mutual

/-- The tree with the constants written out where it and its parts are operands. -/
def inlined (cs : List (String × Int)) : Role → Tree → Tree
  | role, .node site ts =>
    match site.constantAs cs role with
    | some n => .node ⟨.literal, toString n, site.location⟩ []
    | none => .node site (inlinedAll cs site.role ts)

def inlinedAll (cs : List (String × Int)) : (Nat → Role) → List Tree → List Tree
  | _, [] => []
  | roles, t :: ts => t.inlined cs (roles 0) :: inlinedAll cs (fun i => roles (i + 1)) ts

end

def inlinedItem (cs : List (String × Int)) : Tree → Tree
  | .node site [result, params, body] =>
    if site.kind = .functionDeclaration then .node site [result, params, body.inlined cs .body]
    else .node site [result, params, body]
  | t => t

def isDefine (t : Tree) : Bool := t.kind = .preprocessorDirective ∧ t.name = "#define"

/-- The items without the definitions, each with the constants defined above it written
out. -/
def inlinedItems (cs : List (String × Int)) : List Tree → List Tree
  | [] => []
  | t :: ts =>
    if t.isDefine then inlinedItems (t.constant?.toList ++ cs) ts
    else t.inlinedItem cs :: inlinedItems cs ts

/-- The program with its constants written out. -/
def withoutConstants : Tree → Tree
  | .node site ts => .node site (inlinedItems [] ts)

theorem site_inlined (cs : List (String × Int)) {role : Role} (h : role ≠ .value) (t : Tree) :
    (t.inlined cs role).site = t.site := by
  obtain ⟨site, ts⟩ := t
  have hnone : site.constantAs cs role = none := if_neg fun hv => h hv.1
  rw [inlined, hnone]
  rfl

end Tree

namespace Lower

def inlining (cs : List (String × Int)) : Variation where
  strict := False
  constants a b := a = cs ∧ b = []
  binds x := cs.lookup x = none
  constants_of_strict := False.elim
  binds_of_strict := False.elim

section Inlining

variable {cs : List (String × Int)}

theorem shares_unbound {x : String} (h : cs.lookup x = none) : (inlining cs).Shares x := by
  rintro _ _ ⟨rfl, rfl⟩
  exact h.symm

theorem name_constant {n : Int} (h : cs.lookup site.name = some n) :
    Agrees (inlining cs) (name site) (pure (.int n)) := by
  intro k k' s s' hs
  have hlocal : s.scope.local? site.name = none := by
    refine hs.scope.unbound _ fun hnone => ?_
    rw [show cs.lookup site.name = none from hnone] at h
    cases h
  have hlookup : s.scope.lookup site.name = some (.constant n) := by
    rw [Scope.lookup, hlocal, Scope.constant?, hs.scope.constants.1, h]
    rfl
  rw [name_run, hlookup]
  exact .ok hs

theorem reads_constant (hcs : ∀ d ∈ cs, Text.fitsInt32 d.2 = true) {n : Int}
    (kind : site.kind = .identifier) (h : cs.lookup site.name = some n) (ts : List Tree) :
    Reads (inlining cs) (.node site ts) (.node ⟨.literal, toString n, site.location⟩ []) where
  site := False.elim
  expression := by
    have hfits : Text.fitsInt32 n = true := by
      obtain ⟨above, below, rfl, -⟩ := List.lookup_eq_some_iff.mp h
      exact hcs (site.name, n) (by simp)
    rw [expression_identifier kind, expression_literal rfl, Site.literal_toString hfits]
    refine Agrees.nested False.elim ?_
    rcases ts with _ | ⟨t, ts⟩
    · exact name_constant h
    · exact agrees_throw False.elim

theorem inlinedAll_children (h : ∀ t ∈ ts, ∀ role, Plays (inlining cs) t (t.inlined cs role) role)
    (roles : Nat → Role) :
    Children (inlining cs) roles ts (Tree.inlinedAll cs roles ts) := by
  induction ts generalizing roles with
  | nil => exact .nil
  | cons t ts ih => exact .cons (h t (by simp) _) (ih (fun t ht => h t (by simp [ht])) _)

/-- A tree lowers as it does with the constants written out, in whatever part. -/
theorem inlined_plays (hcs : ∀ d ∈ cs, Text.fitsInt32 d.2 = true) (t : Tree)
    (ht : ∀ x ∈ (Piece.one t).declared, cs.lookup x = none) (role : Role) :
    Plays (inlining cs) t (t.inlined cs role) role := by
  induction t using Tree.induct generalizing role with
  | node site ts ih =>
    have hchildren := inlinedAll_children (fun t hmem =>
      ih t hmem fun x hx => ht x ((Piece.declared_member hmem).subset hx)) site.role
    have hsite : site.kind = .variableDeclaration → cs.lookup site.name = none := fun hk =>
      ht _ (by rw [Piece.declared_node, if_pos hk]; simp)
    have hrow : site.kind = .block → Agrees (inlining cs) (statements ts)
        (statements (Tree.inlinedAll cs site.role ts)) := fun hk =>
      agrees_statements (hchildren.all .step fun i => by rw [Site.role, hk])
    cases hconstant : site.constantAs cs role with
    | some n =>
      obtain ⟨⟨rfl, kind⟩, hlookup⟩ : (role = .value ∧ site.kind = .identifier) ∧
          cs.lookup site.name = some n := by
        unfold Site.constantAs at hconstant
        split at hconstant
        · exact ⟨‹_›, hconstant⟩
        · cases hconstant
      rw [Tree.inlined, hconstant]
      exact reads_constant hcs kind hlookup ts
    | none =>
      have hstatement : Agrees (inlining cs) (statement (.node site ts))
          (statement (.node site (Tree.inlinedAll cs site.role ts))) :=
        agrees_statement hsite hrow fun _ => hchildren
      have hblock := agrees_block hrow
      rw [Tree.inlined, hconstant]
      cases role with
      | word => rfl
      | body => exact ⟨rfl, hblock⟩
      | arm => exact agrees_elseArm rfl hstatement hblock
      | step => exact hstatement
      | value =>
        refine ⟨False.elim, agrees_expression (fun hk => shares_unbound ?_) fun _ => hchildren⟩
        rw [Site.constantAs, if_pos ⟨rfl, hk⟩] at hconstant
        exact hconstant

end Inlining

/-! ## Items -/

theorem parameters_declared {ps : List Param} (h : ts.mapM parameter = .ok ps) :
    ∀ p ∈ ps, ∃ t ∈ ts, t.kind = .variableDeclaration ∧ t.name = p.name := by
  induction ts generalizing ps with
  | nil =>
    cases h
    simp
  | cons t ts ih =>
    rw [List.mapM_cons] at h
    obtain ⟨p, hp, h₁⟩ := except_bind_ok.mp h
    obtain ⟨ps', hps, h₂⟩ := except_bind_ok.mp h₁
    cases h₂
    have hkind : t.kind = .variableDeclaration := by
      unfold parameter at hp
      split at hp
      · next hk => exact hk.1
      · cases hp
    intro q hq
    rcases List.mem_cons.mp hq with rfl | hq
    · exact ⟨t, by simp, hkind, (parameter_ok hp).1.symm⟩
    · obtain ⟨c, hc, hcq⟩ := ih hps q hq
      exact ⟨c, by simp [hc], hcq⟩

theorem signature_declared {sig : Signature} (h : signature site ts = .ok sig) {p : Param}
    (hp : p ∈ sig.params) :
    p.name ∈ (Piece.one (.node site ts)).declared := by
  obtain ⟨result, params, body, rfl, -, -, hparams, -⟩ := signature_ok h
  obtain ⟨t, ht, hkind, hname⟩ := parameters_declared hparams p hp
  refine Piece.mem_declared.mpr ⟨t, ?_, hkind, hname⟩
  refine Tree.mem_subtrees_node.mpr (.inr ⟨params, by simp, ?_⟩)
  exact Tree.subtrees_child ht (Tree.mem_subtrees_self t)

theorem site_inlinedItem (cs : List (String × Int)) (t : Tree) :
    (t.inlinedItem cs).site = t.site := by
  unfold Tree.inlinedItem
  split
  · split
    · rfl
    · rfl
  · rfl

theorem signature_inlinedItem (cs : List (String × Int)) (t : Tree) (site : Site) :
    signature site (t.inlinedItem cs).children = signature site t.children := by
  unfold Tree.inlinedItem
  split
  · split
    · exact signature_rebodied (Tree.site_inlined cs (by decide) _) site _ _
    · rfl
  · rfl

section Functions

variable {cs : List (String × Int)} {s s' : LowerState}

theorem body_inlined (hcs : ∀ d ∈ cs, Text.fitsInt32 d.2 = true) {site fs : Site}
    {result params c : Tree}
    (hdeclared : ∀ x ∈ (Piece.one (.node fs [result, params, c])).declared, cs.lookup x = none)
    {id : Nat} (hpending : Pending s (.node fs [result, params, c]) id)
    (hs : Between (inlining cs) s s') :
    Likewise False (Between (inlining cs)) (body site id c s)
      (body site id (c.inlined cs .body) s') := by
  have hc : ∀ x ∈ (Piece.one c).declared, cs.lookup x = none := fun x hx =>
    hdeclared x ((Piece.declared_member (by simp)).subset hx)
  obtain ⟨-, hblock⟩ : _ ∧ ∀ b, Agrees (inlining cs) (block b c) (block b (c.inlined cs .body)) :=
    inlined_plays hcs c hc .body
  refine likewise_body hblock hs fun f hf a ha => ?_
  obtain ⟨sig, hsig, hfound⟩ := hpending
  rw [hfound] at hf
  cases hf
  obtain ⟨i, p, hp, hname, -⟩ := Function.mem_arguments.mp ha
  rw [← hname]
  exact hdeclared _ (signature_declared hsig (List.mem_of_getElem? hp))

theorem function_shape {r : Option Nat} {u : Unit} {v : LowerState}
    (h : function site r ts s = .ok u v) : ∃ result params c, ts = [result, params, c] := by
  cases r with
  | some id =>
    obtain ⟨result, params, c, hts, -⟩ := bodyOf_ok (function_some site id ts ▸ h)
    exact ⟨result, params, c, hts⟩
  | none =>
    rw [function_none] at h
    obtain ⟨id, w, -, h⟩ := bind_ok.mp h
    obtain ⟨result, params, c, hts, -⟩ := bodyOf_ok h
    exact ⟨result, params, c, hts⟩

theorem function_inlined (hcs : ∀ d ∈ cs, Text.fitsInt32 d.2 = true) {result params c : Tree}
    (hdeclared : ∀ x ∈ (Piece.one (.node site [result, params, c])).declared, cs.lookup x = none)
    {r : Option Nat} (hpending : ∀ id, r = some id → Pending s (.node site [result, params, c]) id)
    (hs : Between (inlining cs) s s') :
    Likewise False (Between (inlining cs)) (function site r [result, params, c] s)
      (function site r [result, params, c.inlined cs .body] s') := by
  cases r with
  | some id =>
    rw [function_some, function_some]
    exact body_inlined hcs hdeclared (hpending id rfl) hs
  | none =>
    have hsite : (c.inlined cs .body).site = c.site := Tree.site_inlined cs (by decide) c
    have hsignature := signature_rebodied hsite site result params
    have hdeclare : Likewise False (Between (inlining cs)) _ _ :=
      continues_declareFunction hsignature hs
    rw [function_none, function_none]
    generalize hr : declareFunction site [result, params, c] s = x,
      hr' : declareFunction site [result, params, c.inlined cs .body] s' = x' at hdeclare
    cases hdeclare with
    | same =>
      rw [bind_of_error hr]
      exact .lax id
    | lax =>
      rw [bind_of_error hr]
      exact .lax id
    | refused _ hkind =>
      rw [bind_of_error hr']
      exact .refused id hkind
    | ok hv =>
      rw [bind_of_ok hr, bind_of_ok hr']
      exact body_inlined hcs hdeclared (declareFunction_pending hr) hv

theorem item_function_eq (kind : site.kind = .functionDeclaration) (r : Option Nat)
    (ts : List Tree) : item (.node site ts) r = function site r ts := by
  rw [item, show (Tree.node site ts).kind = .functionDeclaration from kind]
  rfl

theorem item_inlined (hcs : ∀ d ∈ cs, Text.fitsInt32 d.2 = true) {t : Tree}
    (kind : t.kind = .functionDeclaration)
    (hdeclared : ∀ x ∈ (Piece.one t).declared, cs.lookup x = none) {r : Option Nat}
    (hpending : ∀ id, r = some id → Pending s t id) (hs : Between (inlining cs) s s') :
    Likewise False (Between (inlining cs)) (item t r s) (item (t.inlinedItem cs) r s') := by
  obtain ⟨site, ts⟩ := t
  replace kind : site.kind = .functionDeclaration := kind
  cases hrun : function site r ts s with
  | error e v =>
    rw [item_function_eq kind, hrun]
    exact .lax id
  | ok u v =>
    obtain ⟨result, params, c, rfl⟩ := function_shape hrun
    have hinlined : (Tree.node site [result, params, c]).inlinedItem cs =
        .node site [result, params, c.inlined cs .body] := if_pos kind
    rw [hinlined, item_function_eq kind, item_function_eq kind]
    exact function_inlined hcs hdeclared hpending hs

end Functions

/-! ## Programs -/

/-- The items of a program, each with the function it was registered as, and the items
without the definitions. -/
inductive Inlines : List (String × Int) → List (Tree × Option Nat) → List (Tree × Option Nat) → Prop
  | nil {cs : List (String × Int)} : Inlines cs [] []
  | define {cs : List (String × Int)} {t : Tree} {r : Option Nat}
      {its its' : List (Tree × Option Nat)}
      (define : t.isDefine = true) (rest : Inlines (t.constant?.toList ++ cs) its its') :
      Inlines cs ((t, r) :: its) its'
  | item {cs : List (String × Int)} {t : Tree} {r : Option Nat}
      {its its' : List (Tree × Option Nat)}
      (other : t.isDefine = false) (rest : Inlines cs its its') :
      Inlines cs ((t, r) :: its) ((t.inlinedItem cs, r) :: its')

theorem inlines_unregistered (cs : List (String × Int)) (ts : List Tree) :
    Inlines cs (ts.zip (ts.map fun _ => none))
      ((Tree.inlinedItems cs ts).zip ((Tree.inlinedItems cs ts).map fun _ => none)) := by
  induction ts generalizing cs with
  | nil => exact .nil
  | cons t ts ih =>
    cases hdefine : t.isDefine with
    | true =>
      rw [Tree.inlinedItems, if_pos hdefine]
      exact .define hdefine (ih _)
    | false =>
      rw [Tree.inlinedItems, if_neg (by rw [hdefine]; decide)]
      exact .item hdefine (ih _)

theorem declareFunction_inlined (cs : List (String × Int)) {c : Tree} {s s' u : LowerState}
    {id : Nat} (hs : Between (.plain True) s s')
    (h : declareFunction c.site c.children s = .ok id u) :
    ∃ u', declareFunction c.site (c.inlinedItem cs).children s' = .ok id u' ∧
      Between (.plain True) u u' := by
  have hdeclare : Likewise True (Between (.plain True)) _ _ :=
    continues_declareFunction (signature_inlinedItem cs c c.site) hs
  rw [h] at hdeclare
  generalize declareFunction c.site (c.inlinedItem cs).children s' = x' at hdeclare ⊢
  cases hdeclare with
  | refused hlax => exact absurd trivial hlax
  | @ok _ _ u' hbetween => exact ⟨u', rfl, hbetween⟩

theorem declareAll_inlined (cs : List (String × Int)) {k k' : Nat} {s s' t : LowerState}
    {ids : List (Option Nat)} (hs : Between (.plain True) s s')
    (h : declareAll k ts s = .ok ids t) :
    ∃ ids' t', declareAll k' (Tree.inlinedItems cs ts) s' = .ok ids' t' ∧
      Between (.plain True) t t' ∧
        Inlines cs (ts.zip ids) ((Tree.inlinedItems cs ts).zip ids') := by
  induction ts generalizing cs k k' s s' ids with
  | nil =>
    cases h
    exact ⟨[], s', rfl, hs, .nil⟩
  | cons c ts ih =>
    have hcases := declareAll_cons_ok h
    cases hdefine : c.isDefine with
    | true =>
      have hdirective : c.kind = _ ∧ _ := of_decide_eq_true hdefine
      rcases hcases with ⟨hkind, -⟩ | ⟨-, ids, hv, rfl⟩
      · rw [hdirective.1] at hkind
        cases hkind
      · obtain ⟨ids', t', ht', hbetween, hinlines⟩ := ih _ hs hv
        rw [Tree.inlinedItems, if_pos hdefine]
        exact ⟨ids', t', ht', hbetween, .define hdefine hinlines⟩
    | false =>
      rw [Tree.inlinedItems, if_neg (by rw [hdefine]; decide), declareAll, Tree.kind,
        site_inlinedItem, ← Tree.kind]
      rcases hcases with ⟨hkind, id, u, ids, hu, hv, rfl⟩ | ⟨hkind, ids, hv, rfl⟩
      · obtain ⟨u', hu', hmodule, hconstants⟩ := declareFunction_inlined cs hs hu
        have henrolled : Between (.plain True) (u.enrol k id) (u'.enrol k' id) :=
          ⟨hmodule, hconstants⟩
        obtain ⟨ids', t', ht', hbetween, hinlines⟩ := ih _ henrolled hv
        refine ⟨some id :: ids', t', ?_, hbetween, .item hdefine hinlines⟩
        rw [if_pos hkind, bind_of_ok hu', register_bind, bind_of_ok ht']
        rfl
      · obtain ⟨ids', t', ht', hbetween, hinlines⟩ := ih _ hs hv
        refine ⟨none :: ids', t', ?_, hbetween, .item hdefine hinlines⟩
        rw [if_neg hkind, bind_of_ok ht']
        rfl

theorem isDefine_of_constant? {t : Tree} {d : String × Int} (h : t.constant? = some d) :
    t.isDefine = true := by
  unfold Tree.constant? at h
  split at h
  · exact decide_eq_true ‹_›
  · cases h

theorem constant?_fits {t : Tree} {d : String × Int} (h : t.constant? = some d) :
    Text.fitsInt32 d.2 = true := by
  unfold Tree.constant? at h
  split at h
  · split at h
    · next name value hchildren =>
      obtain ⟨n, hn, rfl⟩ := Option.map_eq_some_iff.mp h
      have hliteral : value.site.literal = .ok n := by
        cases hl : value.site.literal with
        | error e =>
          rw [hl] at hn
          cases hn
        | ok k =>
          rw [hl] at hn
          cases hn
          rfl
      have hfits := Site.literal_fits hliteral
      simpa [Text.fitsInt32] using hfits
    · cases h
  · cases h

structure Unshadowed (names : List String) (its : List (Tree × Option Nat)) : Prop where
  declared : ∀ i ∈ its, i.1.kind = .functionDeclaration →
    ∀ x ∈ (Piece.one i.1).declared, x ∉ names
  defined : ∀ i ∈ its, ∀ d, i.1.constant? = some d → d.1 ∈ names

theorem Unshadowed.tail {names : List String} {i : Tree × Option Nat}
    {its : List (Tree × Option Nat)} (h : Unshadowed names (i :: its)) : Unshadowed names its :=
  ⟨fun j hj => h.declared j (by simp [hj]), fun j hj => h.defined j (by simp [hj])⟩

theorem lookup_unshadowed {names : List String} {cs : List (String × Int)} {x : String}
    (hcs : ∀ d ∈ cs, d.1 ∈ names) (hx : x ∉ names) : cs.lookup x = none := by
  refine List.lookup_eq_none_iff.mpr fun d hd => ?_
  rw [bne_iff_ne]
  rintro rfl
  exact hx (hcs d hd)

/-- With the constants written out, items build the same module. -/
theorem items_inlined {names : List String} {cs : List (String × Int)}
    {its its' : List (Tree × Option Nat)} (h : Inlines cs its its') (hapart : Unshadowed names its)
    (hcs : ∀ d ∈ cs, d.1 ∈ names ∧ Text.fitsInt32 d.2 = true) {s s' u : LowerState}
    (hwaiting : Waiting s its) (hs : Between (inlining cs) s s') (hr : items its s = .ok () u) :
    Likewise False (fun t t' => t'.module = t.module)
      (.ok () u : EStateM.Result LowerError LowerState Unit) (items its' s') := by
  induction h generalizing s s' with
  | nil =>
    rw [items] at hr
    cases hr
    exact .ok hs.module
  | @define cs t r its its' hdefine _ ih =>
    rw [items] at hr
    obtain ⟨_, v, hv, hr⟩ := bind_ok.mp hr
    have hkind : t.kind = .preprocessorDirective := (of_decide_eq_true hdefine : t.kind = _ ∧ _).1
    obtain ⟨hwait, hconstants, hitem⟩ := hwaiting.next hv
    obtain ⟨⟨d, hd⟩, hmodule⟩ := hitem.resolve_left (by rw [hkind]; decide)
    rw [hd] at ih hconstants
    refine ih hapart.tail ?_ hwait ⟨?_, ?_, hs.constants.2⟩ hr
    · intro e he
      rcases List.mem_cons.mp he with rfl | he
      · exact ⟨hapart.defined (t, r) (by simp) _ hd, constant?_fits hd⟩
      · exact hcs e he
    · rw [hmodule]
      exact hs.module
    · rw [hconstants, hs.constants.1]
  | @item cs t r its its' hother _ ih =>
    rw [items] at hr ⊢
    obtain ⟨_, v, hv, hr⟩ := bind_ok.mp hr
    obtain ⟨hwait, -, hkind | ⟨⟨d, hd⟩, -⟩⟩ := hwaiting.next hv
    · have hdeclared := fun x hx => lookup_unshadowed (fun d hd => (hcs d hd).1)
        (hapart.declared (t, r) (by simp) hkind x hx)
      have hitem := item_inlined (fun d hd => (hcs d hd).2) hkind hdeclared
        (hwaiting.pending (t, r) (by simp)) hs
      rw [hv] at hitem
      generalize hr' : Lower.item (t.inlinedItem cs) r s' = x' at hitem
      cases hitem with
      | refused _ hkind =>
        rw [bind_of_error hr']
        exact .refused id hkind
      | ok hv' =>
        rw [bind_of_ok hr']
        exact ih hapart.tail hcs hwait hv' hr
    · -- every directive that succeeds defines a constant
      rw [isDefine_of_constant? hd] at hother
      cases hother

theorem registration_inlined {singlePass : Bool} {ids : List (Option Nat)} {w : LowerState}
    (h : registration singlePass ts (started site ts) = .ok ids w) :
    ∃ ids' w', registration singlePass (Tree.inlinedItems [] ts)
        (started site (Tree.inlinedItems [] ts)) = .ok ids' w' ∧
      Inlines [] (ts.zip ids) ((Tree.inlinedItems [] ts).zip ids') ∧ Waiting w (ts.zip ids) ∧
        Between (inlining []) w w' := by
  cases singlePass with
  | true =>
    cases h
    exact ⟨_, _, rfl, inlines_unregistered [] ts, waiting_unregistered _ ts, rfl, rfl, rfl⟩
  | false =>
    have hdeclare : declareAll 0 ts (started site ts) = .ok ids w := h
    have hstarted : Between (.plain True) (started site ts)
        (started site (Tree.inlinedItems [] ts)) := ⟨rfl, rfl⟩
    obtain ⟨ids', w', hw', hbetween, hinlines⟩ := declareAll_inlined [] hstarted hdeclare
    obtain ⟨-, hscope, hwaiting, -⟩ := declareAll_waiting hdeclare
    have hconstants : w.scope.constants = [] := by
      rw [hscope]
      rfl
    exact ⟨ids', w', hw', hinlines, hwaiting, hbetween.module, hconstants,
      Eq.symm hbetween.constants ▸ hconstants⟩

end Lower

namespace Tree

open Lower

/-- With its constants written out, a program in which no parameter or variable has the
name of a constant lowers to the same module. -/
theorem lower_withoutConstants {singlePass : Bool} {t : Tree} {m : Module}
    (h : (t.lower singlePass).result = .ok m)
    (hapart : ∀ f ∈ t.children, f.kind = .functionDeclaration →
      ∀ x ∈ (Piece.one f).declared, x ∉ t.constantNames) :
    (t.withoutConstants.lower singlePass).result = .ok m := by
  obtain ⟨site, ts⟩ := t
  obtain ⟨u, hu⟩ := Tree.lower_ok h
  have kind := program_kind hu
  obtain ⟨ids, w, v, hw, hv, rfl⟩ := program_runs hu
  obtain ⟨ids', w', hw', hinlines, hwaiting, hbetween⟩ := registration_inlined hw
  have hitems : Unshadowed (Tree.node site ts).constantNames (ts.zip ids) := by
    refine ⟨fun i hi => hapart i.1 (List.of_mem_zip hi).1, fun i hi d hd => ?_⟩
    exact List.mem_filterMap.mpr ⟨i.1, (List.of_mem_zip hi).1, congrArg (Option.map Prod.fst) hd⟩
  have hrun := items_inlined hinlines hitems (by simp) hwaiting hbetween hv
  have hprogram := program_eq kind singlePass (inlinedItems [] ts)
  rw [bind_of_ok hw'] at hprogram
  generalize hr : items ((inlinedItems [] ts).zip ids') w' = r at hrun
  cases hrun with
  | ok hmodule =>
    rw [bind_of_ok hr] at hprogram
    rw [withoutConstants, lower, hprogram]
    exact congrArg Except.ok hmodule
  | @refused _ e _ _ hkind =>
    -- the builder refuses nothing that a run on a program asks for
    rw [bind_of_error hr] at hprogram
    have hresult : ((node site (inlinedItems [] ts)).lower singlePass).result = .error e := by
      rw [lower, hprogram]
    exact absurd hkind (lower_error_charged hresult).kind

def defineN (value : String) : Tree :=
  bare .preprocessorDirective "#define" [bare .identifier "N" [], bare .literal value []]

def adding (name : String) (operand : Tree) : Tree :=
  bare .functionDeclaration name [bare .identifier "int" [],
    bare .parameters "" [bare .variableDeclaration "x" [bare .identifier "int" []]],
    bare .block "" [bare .returnStatement ""
      [bare .binaryExpression "+" [operand, bare .identifier "x" []]]]]

theorem inlinedItem_adding {cs : List (String × Int)} {n : Int} (hn : cs.lookup "N" = some n)
    (hx : cs.lookup "x" = none) (name : String) :
    (adding name (bare .identifier "N" [])).inlinedItem cs =
      adding name (bare .literal (toString n) []) := by
  simp [adding, inlinedItem, inlined, inlinedAll, bare, Site.constantAs, Site.role, hn, hx]

def redefining : Tree :=
  bare .program "" [defineN "7", adding "f" (bare .identifier "N" []), defineN " -12",
    adding "g" (bare .identifier "N" [])]

theorem redefining_inlined : redefining.withoutConstants =
    bare .program "" [adding "f" (bare .literal "7" []), adding "g" (bare .literal "-12" [])] := by
  have hfirst : (defineN "7").constant? = some ("N", 7) := by decide +kernel
  have hsecond : (defineN " -12").constant? = some ("N", -12) := by decide +kernel
  have hf : (adding "f" (bare .identifier "N" [])).inlinedItem [("N", 7)] =
      adding "f" (bare .literal "7" []) := inlinedItem_adding (n := 7) rfl rfl "f"
  have hg : (adding "g" (bare .identifier "N" [])).inlinedItem [("N", -12), ("N", 7)] =
      adding "g" (bare .literal "-12" []) := inlinedItem_adding (n := -12) rfl rfl "g"
  have hdefine : ∀ value, (defineN value).isDefine = true := fun _ => decide_eq_true ⟨rfl, rfl⟩
  have hadding : ∀ name operand, (adding name operand).isDefine = false := fun _ _ =>
    decide_eq_false fun h => by cases h.1
  refine congrArg (node ⟨.program, "", none⟩) ?_
  simp only [inlinedItems, hdefine, hadding, hfirst, hsecond, Option.toList_some, List.cons_append,
    List.nil_append, hf, hg, if_true, Bool.false_eq_true, if_false]

/-- The second function sees the second definition. -/
theorem redefining_withoutConstants :
    ∃ m, (redefining.lower false).result = .ok m ∧
      ((bare .program "" [adding "f" (bare .literal "7" []),
        adding "g" (bare .literal "-12" [])]).lower false).result = .ok m := by
  obtain ⟨m, hm⟩ : ∃ m, (redefining.lower false).result = .ok m :=
    Lower.except_of_isOk (by decide +kernel)
  have hapart : ∀ f ∈ redefining.children, f.kind = .functionDeclaration →
      ∀ x ∈ (Piece.one f).declared, x ∉ redefining.constantNames := by decide +kernel
  exact ⟨m, hm, redefining_inlined ▸ lower_withoutConstants hm hapart⟩

end Tree

end TreeFlow
