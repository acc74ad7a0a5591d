import TreeFlow.Command.Run
import TreeFlow.Proofs.Run

/-!
# Building and checking

A build and a check of the same source end well or badly together, except
that a build may be unable to write its file. A run that ends badly prints
nothing but complaints. What a build writes is the summary that it would print.

All this holds on every file system, whatever faults it reports and whatever a
failed write leaves. That a file holds what was written to it, and that a failed
write leaves the files as they were, are said of a file system by `Keeps` and
`Atomic`; a store has both.

Whether there is a module to go on with is said by `Makes`, which names the
settings, the options, the source and the compiled text, and no report. A
session of a command is a compilation followed by what is done with the
module, so one lemma for the compilation that succeeds and one for the
compilation that fails serve both commands.
-/

set_option autoImplicit false

namespace TreeFlow

namespace FileSystem

variable {σ : Type}

/-- What is written under a name is read under it, as with an ordinary file. -/
def Keeps (fs : FileSystem σ) (s : σ) (name : String) : Prop :=
  ∀ text t, fs.write s name text = (none, t) → fs.read t name = .ok text

/-- A write under a name that fails leaves the files as they were. -/
def Atomic (fs : FileSystem σ) (s : σ) (name : String) : Prop :=
  ∀ text e t, fs.write s name text = (some e, t) → t = s

end FileSystem

namespace Store

variable {s t : Store} {p q : Path} {e : Entry} {name text : String}

theorem find?_put (s : Store) (p : Path) (e : Entry) (q : Path) :
    (s.put p e).find? q =
      if q.isPrefixOf s.home then some .directory else if q = p then some e else s.find? q := by
  by_cases hq : q.isPrefixOf s.home
  · simp only [find?, put, hq, if_true]
  · by_cases hp : q = p
    · subst hp
      simp [find?, put, hq]
    · have hne : (q == p) = false := by simpa using hp
      simp [find?, put, hq, hp, List.lookup_cons, hne]

theorem find?_put_self (hp : s.find? p ≠ some .directory) : (s.put p e).find? p = some e := by
  have hhome : ¬ p.isPrefixOf s.home := fun h => hp (if_pos h)
  rw [find?_put, if_neg hhome, if_pos rfl]

theorem find?_put_directory (hp : s.find? p ≠ some .directory)
    (hq : s.find? q = some .directory) : (s.put p e).find? q = some .directory := by
  have hne : q ≠ p := fun h => hp (h ▸ hq)
  rw [find?_put, if_neg hne]
  split
  · rfl
  · exact hq

/-- A walk to a place that is no directory never passes through that place,
so it ends there too once something is put there. -/
theorem walk_put {here : Path} {parts : List String} (h : s.walk false here parts = .ok p)
    (hp : s.find? p ≠ some .directory) : (s.put p e).walk false here parts = .ok p := by
  fun_induction walk s false here parts with
  | case1 here => exact h
  | case2 here parts ih =>
    rw [walk, if_pos rfl]
    exact ih h
  | case3 here parts hdot ih =>
    rw [walk, if_neg hdot, if_pos rfl]
    exact ih h
  | case4 here part parts hdot hup next hlast =>
    rw [walk, if_neg hdot, if_neg hup]
    exact (if_pos hlast).trans h
  | case5 => exact absurd h (by simp)
  | case6 here part parts hdot hup next hlast hdir ih =>
    -- What is passed through is a directory, so it is not the place itself.
    have hdir' : (s.put p e).find? next = some .directory := find?_put_directory hp hdir
    rw [walk, if_neg hdot, if_neg hup]
    simp only [next] at hdir' hlast
    simp only [hlast, hdir', if_false]
    exact ih h
  | case7 => exact absurd h (by simp)

theorem write_ok (h : s.write name text = .ok t) :
    ∃ p, s.resolve false name = .ok p ∧ endsInSlash name = false ∧
      s.find? p ≠ some .directory ∧ t = s.put p (.text text) := by
  unfold write at h
  split at h
  · cases h
  · rename_i p hp
    split at h
    · cases h
    · rename_i hno
      obtain ⟨hslash, hdir⟩ := not_or.mp hno
      exact ⟨p, hp, by simpa using hslash, hdir, (Except.ok.inj h).symm⟩

theorem read_write (h : s.write name text = .ok t) : t.read name = .ok text := by
  obtain ⟨p, hp, hslash, hdir, rfl⟩ := write_ok h
  have hresolve : (s.put p (.text text)).resolve false name = .ok p := by
    unfold resolve at hp ⊢
    split at hp
    · cases hp
    · rename_i hname
      rw [if_neg hname]
      exact walk_put hp hdir
  simp only [read, hslash, hresolve, find?_put_self hdir]

theorem keeps (s : Store) (name : String) : fileSystem.Keeps s name := by
  intro text t h
  cases hw : s.write name text with
  | ok u =>
    simp only [fileSystem, hw, Prod.mk.injEq, true_and] at h
    exact h ▸ read_write hw
  | error e => simp [fileSystem, hw] at h

theorem atomic (s : Store) (name : String) : fileSystem.Atomic s name := by
  intro text e t h
  cases hw : s.write name text with
  | ok u => simp [fileSystem, hw] at h
  | error e' =>
    simp only [fileSystem, hw, Prod.mk.injEq] at h
    exact h.2.symm

end Store

/-! ## What can be compiled -/

namespace Command

open Arguments (Compile)

variable {σ : Type} {fs : FileSystem σ} {s t : σ} {args : Compile} {o : Options} {m : Module}

/-- The options of a settings file, or the default ones if none is named. -/
inductive Configured (fs : FileSystem σ) (s : σ) : Option String → Options → Prop
  | default : Configured fs s none .default
  | file {path text : String} {o : Options} (contents : fs.read s path = .ok text)
      (settings : Settings.read text = .ok o) : Configured fs s (some path) o

inductive Aimed (base : Option Target) : Option String → Option Target → Prop
  | kept : Aimed base none base
  | named {name : String} {t : Target} (known : Target.ofString? name = some t) :
      Aimed base (some name) (some t)

/-- The settings and the command line together give these options. -/
def Resolves (fs : FileSystem σ) (s : σ) (args : Compile) (o : Options) : Prop :=
  ∃ base, Configured fs s args.config base ∧ Aimed base.target args.target o.target ∧
    o.singlePass = (base.singlePass || args.singlePass)

/-- The options resolve, the source can be read, and it compiles to a
module. -/
def Makes (fs : FileSystem σ) (s : σ) (args : Compile) (m : Module) : Prop :=
  ∃ o text, Resolves fs s args o ∧ fs.read s args.file = .ok text ∧
    (compileText o args.file text).result = .ok m

/-- The summary of what is compiled can be written under a name. -/
def Writable (fs : FileSystem σ) (s : σ) (args : Compile) (path : String) : Prop :=
  ∃ m t, Makes fs s args m ∧ fs.write s path m.summary.doc.pretty = (none, t)

theorem override_ok_iff {base : Options} :
    override args base = .ok o ↔
      Aimed base.target args.target o.target ∧
        o.singlePass = (base.singlePass || args.singlePass) := by
  obtain ⟨target, single⟩ := o
  -- The switch for one pass is laid over the settings before the target is looked at.
  have hbase : (if args.singlePass then { base with singlePass := true } else base) =
      ⟨base.target, base.singlePass || args.singlePass⟩ := by
    cases args.singlePass <;> simp
  simp only [override, hbase]
  constructor
  · intro h
    split at h
    · rename_i hnone
      cases h
      exact ⟨hnone ▸ .kept, rfl⟩
    · rename_i name hname
      split at h
      · rename_i t ht
        cases h
        exact ⟨hname ▸ .named ht, rfl⟩
      · cases h
  · rintro ⟨h, rfl⟩
    generalize args.target = named at h ⊢
    cases h with
    | kept => rfl
    | named known => simp only [known]

def configured (fs : FileSystem σ) (s : σ) : Option String → Except String Options
  | none => .ok .default
  | some path => settings (fs.read s path)

theorem configured_ok_iff {config : Option String} :
    configured fs s config = .ok o ↔ Configured fs s config o := by
  constructor
  · intro h
    cases config with
    | none =>
      cases h
      exact .default
    | some path =>
      simp only [configured, settings] at h
      split at h
      · cases h
      · rename_i text hread
        split at h
        · rename_i o' hset
          cases h
          exact .file hread hset
        · cases h
  · rintro (_ | ⟨hread, hset⟩)
    · rfl
    · simp only [configured, settings, hread, hset]

theorem options_ok_iff :
    (configured fs s args.config).bind (override args) = .ok o ↔ Resolves fs s args o := by
  constructor
  · intro h
    cases hbase : configured fs s args.config with
    | error e =>
      rw [hbase] at h
      cases h
    | ok base =>
      rw [hbase] at h
      exact ⟨base, configured_ok_iff.mp hbase, override_ok_iff.mp h⟩
  · rintro ⟨base, hbase, h⟩
    rw [configured_ok_iff.mpr hbase]
    exact override_ok_iff.mpr h

theorem Makes.unique {m' : Module} (h : Makes fs s args m) (h' : Makes fs s args m') : m = m' := by
  obtain ⟨o, text, ho, htext, hm⟩ := h
  obtain ⟨o', text', ho', htext', hm'⟩ := h'
  obtain rfl := Except.ok.inj ((options_ok_iff.mpr ho).symm.trans (options_ok_iff.mpr ho'))
  obtain rfl := Except.ok.inj (htext.symm.trans htext')
  exact Except.ok.inj (hm.symm.trans hm')

theorem compileSource_ok_iff {colors : Bool} {contents : Except FileFault String} :
    compileSource colors args o contents = .ok m ↔
      ∃ text, contents = .ok text ∧ (compileText o args.file text).result = .ok m := by
  constructor
  · intro h
    unfold compileSource at h
    split at h
    · cases h
    · rename_i text
      split at h
      · rename_i hm
        cases h
        exact ⟨text, rfl, hm⟩
      · cases h
  · rintro ⟨text, rfl, h⟩
    simp only [compileSource, h]

/-! ## Reports -/

theorem line_ne_empty (colors : Bool) (style : Style) (text : String) :
    style.line colors text ≠ "" := by
  unfold Style.line
  split <;> simp

def Refusal (r : Report) : Prop := ∃ errors, errors ≠ "" ∧ r = .failure errors

theorem refusal_complaint (colors : Bool) (text : String) : Refusal (complaint colors text) :=
  ⟨_, line_ne_empty _ _ _, rfl⟩

theorem refusal_compileSource {colors : Bool} {contents : Except FileFault String} {r : Report}
    (h : compileSource colors args o contents = .error r) : Refusal r := by
  unfold compileSource at h
  split at h
  · cases h
    exact refusal_complaint _ _
  · split at h
    · cases h
    · cases h
      exact ⟨_, by simp [Diagnostic.lines, line_ne_empty], rfl⟩

/-! ## Compilations -/

variable {colors : Bool} {next : Module → Session Report}

theorem compile_unresolved {e : String}
    (h : (configured fs s args.config).bind (override args) = .error e) :
    (compile colors args next).runOn fs s = (complaint colors e, s) := by
  unfold compile
  cases hc : args.config <;> rw [hc, configured] at h <;> simp only [Session.runOn, h]

theorem compile_stops {r : Report}
    (ho : (configured fs s args.config).bind (override args) = .ok o)
    (hr : compileSource colors args o (fs.read s args.file) = .error r) :
    (compile colors args next).runOn fs s = (r, s) := by
  unfold compile
  cases hc : args.config <;> rw [hc, configured] at ho <;> simp only [Session.runOn, ho, hr]

theorem compile_continues
    (ho : (configured fs s args.config).bind (override args) = .ok o)
    (hm : compileSource colors args o (fs.read s args.file) = .ok m) :
    (compile colors args next).runOn fs s = (next m).runOn fs s := by
  unfold compile
  cases hc : args.config <;> rw [hc, configured] at ho <;> simp only [Session.runOn, ho, hm]

theorem compile_makes (h : Makes fs s args m) :
    (compile colors args next).runOn fs s = (next m).runOn fs s := by
  obtain ⟨o, text, ho, htext, hm⟩ := h
  exact compile_continues (options_ok_iff.mpr ho) (compileSource_ok_iff.mpr ⟨text, htext, hm⟩)

theorem compile_refuses (h : ¬ ∃ m, Makes fs s args m) :
    ∃ r, Refusal r ∧ (compile colors args next).runOn fs s = (r, s) := by
  cases ho : (configured fs s args.config).bind (override args) with
  | error e => exact ⟨_, refusal_complaint colors e, compile_unresolved ho⟩
  | ok o =>
    cases hm : compileSource colors args o (fs.read s args.file) with
    | error r => exact ⟨r, refusal_compileSource hm, compile_stops ho hm⟩
    | ok m =>
      obtain ⟨text, htext, hm⟩ := compileSource_ok_iff.mp hm
      exact absurd ⟨m, o, text, options_ok_iff.mp ho, htext, hm⟩ h

/-! ## Commands -/

def run (fs : FileSystem σ) (colors : Bool) (command : Arguments.Invocation) (s : σ) :
    Report × σ := (session colors command).runOn fs s

variable {json : Bool} {path : String} {output : Option String}

theorem run_check (h : Makes fs s args m) :
    ∃ line, run fs colors (.check args) s = (.success line, s) :=
  ⟨_, compile_makes h⟩

theorem run_build (h : Makes fs s args m) :
    run fs colors (.build args json none) s =
      (.success (buildOutput colors json m.summary), s) :=
  compile_makes h

theorem run_build_writes (h : Makes fs s args m)
    (ht : fs.write s path m.summary.doc.pretty = (none, t)) :
    run fs colors (.build args json (some path)) s =
      (.success (buildOutput colors json m.summary), t) := by
  refine (compile_makes h).trans ?_
  simp only [Session.runOn, ht]

theorem run_build_unwritten {e : FileFault} (h : Makes fs s args m)
    (ht : fs.write s path m.summary.doc.pretty = (some e, t)) :
    ∃ r, Refusal r ∧ run fs colors (.build args json (some path)) s = (r, t) := by
  refine ⟨_, refusal_complaint colors ("cannot write '" ++ path ++ "': " ++ e.message),
    (compile_makes h).trans ?_⟩
  simp only [Session.runOn, ht]

theorem buildOutput_json (colors : Bool) (u : Summary) :
    buildOutput colors true u = u.doc.pretty ++ "\n" := by
  simp [buildOutput, Style.line]

inductive Decided (good : Prop) : Report → Prop
  | success (h : good) (printed : String) : Decided good (.success printed)
  | refusal (h : ¬ good) {r : Report} (hr : Refusal r) : Decided good r

namespace Decided

variable {good : Prop} {r : Report}

theorem exitCode_iff (h : Decided good r) : r.exitCode = 0 ↔ good := by
  cases h with
  | success h => exact iff_of_true rfl h
  | refusal h hr =>
    obtain ⟨errors, -, rfl⟩ := hr
    exact iff_of_false Nat.one_ne_zero h

theorem refused (h : Decided good r) (hr : r.exitCode ≠ 0) : r.output = "" ∧ r.errors ≠ "" := by
  cases h with
  | success h => exact absurd rfl hr
  | refusal h hr =>
    obtain ⟨errors, herrors, rfl⟩ := hr
    exact ⟨rfl, herrors⟩

end Decided

theorem check_decided (fs : FileSystem σ) (colors : Bool) (args : Compile) (s : σ) :
    Decided (∃ m, Makes fs s args m) (run fs colors (.check args) s).1 ∧
      (run fs colors (.check args) s).2 = s := by
  by_cases h : ∃ m, Makes fs s args m
  · obtain ⟨m, hm⟩ := h
    obtain ⟨line, hrun⟩ : ∃ line, run fs colors (.check args) s = (.success line, s) :=
      run_check hm
    rw [hrun]
    exact ⟨.success ⟨m, hm⟩ line, rfl⟩
  · obtain ⟨r, hr, hrun⟩ : ∃ r, Refusal r ∧ run fs colors (.check args) s = (r, s) :=
      compile_refuses h
    rw [hrun]
    exact ⟨.refusal h hr, rfl⟩

/-- What a build comes to. The files are as they were, unless there was something to
write. -/
inductive Built (fs : FileSystem σ) (colors json : Bool) (args : Compile) (s : σ) :
    Option String → Report × σ → Prop
  | refused {output : Option String} {r : Report} (h : ¬ ∃ m, Makes fs s args m)
      (hr : Refusal r) : Built fs colors json args s output (r, s)
  | printed {m : Module} (h : Makes fs s args m) :
      Built fs colors json args s none (.success (buildOutput colors json m.summary), s)
  | written {m : Module} {path : String} {t : σ} (h : Makes fs s args m)
      (ht : fs.write s path m.summary.doc.pretty = (none, t)) :
      Built fs colors json args s (some path) (.success (buildOutput colors json m.summary), t)
  | unwritten {m : Module} {path : String} {e : FileFault} {t : σ} {r : Report}
      (h : Makes fs s args m) (ht : fs.write s path m.summary.doc.pretty = (some e, t))
      (hr : Refusal r) : Built fs colors json args s (some path) (r, t)

theorem build_built (fs : FileSystem σ) (colors json : Bool) (args : Compile)
    (output : Option String) (s : σ) :
    Built fs colors json args s output (run fs colors (.build args json output) s) := by
  by_cases h : ∃ m, Makes fs s args m
  · obtain ⟨m, hm⟩ := h
    cases output with
    | none =>
      rw [run_build hm]
      exact .printed hm
    | some path =>
      rcases hw : fs.write s path m.summary.doc.pretty with ⟨_ | e, t⟩
      · rw [run_build_writes hm hw]
        exact .written hm hw
      · obtain ⟨r, hr, hrun⟩ :
            ∃ r, Refusal r ∧ run fs colors (.build args json (some path)) s = (r, t) :=
          run_build_unwritten hm hw
        rw [hrun]
        exact .unwritten hm hw hr
  · obtain ⟨r, hr, hrun⟩ :
        ∃ r, Refusal r ∧ run fs colors (.build args json output) s = (r, s) := compile_refuses h
    rw [hrun]
    exact .refused h hr

namespace Built

variable {x : Report × σ}

theorem decided (h : Built fs colors json args s output x) :
    Decided ((∃ m, Makes fs s args m) ∧ ∀ path, output = some path → Writable fs s args path)
      x.1 := by
  cases h with
  | refused h hr => exact .refusal (fun hgood => h hgood.1) hr
  | printed h => exact .success ⟨⟨_, h⟩, nofun⟩ _
  | written h ht =>
    refine .success ⟨⟨_, h⟩, ?_⟩ _
    rintro _ ⟨⟩
    exact ⟨_, _, h, ht⟩
  | unwritten h ht hr =>
    refine .refusal (fun hgood => ?_) hr
    obtain ⟨m', t', h', ht'⟩ := hgood.2 _ rfl
    obtain rfl := h.unique h'
    cases (ht.symm.trans ht')

theorem untouched (h : Built fs colors json args s output x)
    (hnone : (¬ ∃ m, Makes fs s args m) ∨ output = none) : x.2 = s := by
  cases h with
  | refused | printed => rfl
  | written h | unwritten h => exact absurd hnone (by simpa using ⟨_, h⟩)

theorem kept (h : Built fs colors json args s output x)
    (hatomic : ∀ path, output = some path → fs.Atomic s path) (hx : x.1.exitCode ≠ 0) :
    x.2 = s := by
  cases h with
  | refused => rfl
  | printed | written => exact absurd rfl hx
  | unwritten _ ht => exact hatomic _ rfl _ _ _ ht

theorem leaves (h : Built fs colors json args s (some path) x) (hx : x.1.exitCode = 0) :
    ∃ m, Makes fs s args m ∧ fs.write s path m.summary.doc.pretty = (none, x.2) := by
  cases h with
  | refused _ hr | unwritten _ _ hr =>
    obtain ⟨errors, -, rfl⟩ := hr
    cases hx
  | written h ht => exact ⟨_, h, ht⟩

theorem output_json (h : Built fs colors true args s output x) (hm : Makes fs s args m)
    (hx : x.1.exitCode = 0) : x.1.output = m.summary.doc.pretty ++ "\n" := by
  cases h with
  | refused _ hr | unwritten _ _ hr =>
    obtain ⟨errors, -, rfl⟩ := hr
    cases hx
  | printed h | written h =>
    obtain rfl := h.unique hm
    exact buildOutput_json colors _

end Built

/-- On every file system, a check ends well exactly when there is something to compile,
and a build exactly when the check does and the summary can be written to the file named
for it, if any. A command that ends badly prints nothing and complains. A check, and a
build that compiles nothing or has no file to write, leaves every file as it was, and so
does a build that ends badly where a failed write does. A build that ends well has written
to its file what it prints as JSON, without the line end, and the file holds it. -/
theorem build_check_agree (fs : FileSystem σ) (colors json : Bool) (args : Compile)
    (output : Option String) (s : σ) :
    ((run fs colors (.check args) s).1.exitCode = 0 ↔ ∃ m, Makes fs s args m) ∧
    ((run fs colors (.build args json output) s).1.exitCode = 0 ↔
      (run fs colors (.check args) s).1.exitCode = 0 ∧
        ∀ path, output = some path → Writable fs s args path) ∧
    (∀ command ∈ [.check args, .build args json output],
      (run fs colors command s).1.exitCode ≠ 0 →
        (run fs colors command s).1.output = "" ∧ (run fs colors command s).1.errors ≠ "") ∧
    (run fs colors (.check args) s).2 = s ∧
    ((¬ ∃ m, Makes fs s args m) ∨ output = none →
      (run fs colors (.build args json output) s).2 = s) ∧
    ((∀ path, output = some path → fs.Atomic s path) →
      (run fs colors (.build args json output) s).1.exitCode ≠ 0 →
        (run fs colors (.build args json output) s).2 = s) ∧
    ∀ path, output = some path → (run fs colors (.build args json output) s).1.exitCode = 0 →
      ∃ text, fs.write s path text = (none, (run fs colors (.build args json output) s).2) ∧
        (fs.Keeps s path →
          fs.read (run fs colors (.build args json output) s).2 path = .ok text) ∧
        ∀ other, other = none ∨ other = output →
          (run fs colors (.build args true other) s).1.output = text ++ "\n" := by
  obtain ⟨hdecided, hkept⟩ := check_decided fs colors args s
  have hcheck := hdecided.exitCode_iff
  have hbuilt := build_built fs colors json args output s
  have hbuild := hbuilt.decided.exitCode_iff
  refine ⟨hcheck, ?_, ?_, hkept, hbuilt.untouched, hbuilt.kept, ?_⟩
  · rw [hbuild, hcheck]
  · simp only [List.mem_cons, List.not_mem_nil, or_false]
    rintro command (rfl | rfl)
    · exact hdecided.refused
    · exact hbuilt.decided.refused
  · rintro path rfl hzero
    obtain ⟨m, hm, hwrite⟩ := hbuilt.leaves hzero
    refine ⟨_, hwrite, fun hkeeps => hkeeps _ _ hwrite, fun other hother => ?_⟩
    have hbuilt' := build_built fs colors true args other s
    refine hbuilt'.output_json hm (hbuilt'.decided.exitCode_iff.mpr ⟨⟨m, hm⟩, ?_⟩)
    rintro path' rfl
    obtain ⟨⟨⟩⟩ := hother.resolve_left (Option.some_ne_none path')
    exact ⟨m, _, hm, hwrite⟩

def callAhead : String :=
  "Program()\x7bFunctionDeclaration(f)\x7bIdentifier(int)Parameters()" ++
    "Block()\x7bFunctionCall(g)\x7d\x7d" ++
    "FunctionDeclaration(g)\x7bIdentifier(int)Parameters()Block()\x7d\x7d"

def shelf : Store :=
  (Store.empty.add ["p"] (.text callAhead)).add ["o"] (.text "\x7b\x7d")

def source (singlePass : Bool) : Compile := ⟨"/tmp/work/p", none, none, singlePass⟩

theorem read_shelf : shelf.read "/tmp/work/p" = .ok callAhead := by rfl

theorem write_shelf (text : String) :
    shelf.write "/tmp/o" text = .ok (shelf.put ["tmp", "o"] (.text text)) := by
  have hresolve : shelf.resolve false "/tmp/o" = .ok ["tmp", "o"] := by rfl
  have hopen : ¬ (Store.endsInSlash "/tmp/o" ∨ shelf.find? ["tmp", "o"] = some .directory) := by
    decide +kernel
  simp only [Store.write, hresolve, if_neg hopen]

theorem not_write_shelf (text : String) : shelf.write "." text = .error .isDirectory := by
  have hresolve : shelf.resolve false "." = .ok ["tmp", "work"] := by rfl
  have hopen : Store.endsInSlash "." ∨ shelf.find? ["tmp", "work"] = some .directory := by
    decide +kernel
  simp only [Store.write, hresolve, if_pos hopen]

theorem makes_shelf : ∃ m, Makes Store.fileSystem shelf (source false) m := by
  obtain ⟨m, hm⟩ : ∃ m, (compileText .default "/tmp/work/p" callAhead).result = .ok m :=
    Lower.except_of_isOk (by decide +kernel)
  exact ⟨m, .default, callAhead, ⟨.default, .default, .kept, rfl⟩, read_shelf, hm⟩

theorem not_makes_shelf : ¬ ∃ m, Makes Store.fileSystem shelf (source true) m := by
  rintro ⟨m, ⟨target, single⟩, text, ⟨base, ⟨⟩, ⟨⟩, hsingle⟩, htext, hm⟩
  obtain rfl : single = true := hsingle
  obtain rfl : callAhead = text := Except.ok.inj (read_shelf.symm.trans htext)
  have herror : (compileText ⟨none, true⟩ "/tmp/work/p" callAhead).result.isOk = false := by
    decide +kernel
  rw [show (compileText ⟨none, true⟩ "/tmp/work/p" callAhead).result = .ok m from hm] at herror
  exact Bool.false_ne_true herror.symm

/-- The program can be built to a file elsewhere, but not in place of the directory that
holds it, and not in one pass. -/
theorem shelf_agree :
    (run Store.fileSystem true (.check (source false)) shelf).1.exitCode = 0 ∧
    (∃ text, Store.fileSystem.read (run Store.fileSystem true
        (.build (source false) false (some "/tmp/o")) shelf).2 "/tmp/o" = .ok text ∧
      (run Store.fileSystem true (.build (source false) true none) shelf).1.output =
        text ++ "\n") ∧
    ∀ command ∈ [.build (source false) true (some "."), .build (source true) true (some "o")],
      (run Store.fileSystem true command shelf).1.output = "" ∧
        (run Store.fileSystem true command shelf).1.errors ≠ "" ∧
          (run Store.fileSystem true command shelf).2 = shelf := by
  obtain ⟨hcheck, hbuild, -, -, -, -, hleaves⟩ :=
    build_check_agree Store.fileSystem true false (source false) (some "/tmp/o") shelf
  have hzero := hcheck.mpr makes_shelf
  refine ⟨hzero, ?_, ?_⟩
  · have hwritable : ∀ path, some "/tmp/o" = some path →
        Writable Store.fileSystem shelf (source false) path := by
      rintro _ ⟨⟩
      obtain ⟨m, hm⟩ := makes_shelf
      refine ⟨m, shelf.put ["tmp", "o"] (.text m.summary.doc.pretty), hm, ?_⟩
      simp only [Store.fileSystem, write_shelf]
    obtain ⟨text, -, hread, hprinted⟩ := hleaves _ rfl (hbuild.mpr ⟨hzero, hwritable⟩)
    exact ⟨text, hread (shelf.keeps _), hprinted none (.inl rfl)⟩
  · -- Both builds fail, one for its file and one for its source.
    have hrefused : ∀ args path, (run Store.fileSystem true (.build args true (some path))
        shelf).1.exitCode ≠ 0 →
        (run Store.fileSystem true (.build args true (some path)) shelf).1.output = "" ∧
          (run Store.fileSystem true (.build args true (some path)) shelf).1.errors ≠ "" ∧
            (run Store.fileSystem true (.build args true (some path)) shelf).2 = shelf := by
      intro args path hne
      obtain ⟨-, -, hrefused, -, -, hkept, -⟩ :=
        build_check_agree Store.fileSystem true true args (some path) shelf
      obtain ⟨hout, herr⟩ := hrefused _ (by simp) hne
      exact ⟨hout, herr, hkept (fun _ _ => shelf.atomic _) hne⟩
    simp only [List.mem_cons, List.not_mem_nil, or_false]
    rintro command (rfl | rfl)
    · refine hrefused _ _ fun h => ?_
      obtain ⟨-, hplace, -⟩ :=
        build_check_agree Store.fileSystem true true (source false) (some ".") shelf
      obtain ⟨m, t, -, ht⟩ := (hplace.mp h).2 "." rfl
      simp [Store.fileSystem, not_write_shelf] at ht
    · refine hrefused _ _ fun h => ?_
      obtain ⟨hcheck', hbuild', -⟩ :=
        build_check_agree Store.fileSystem true true (source true) (some "o") shelf
      exact not_makes_shelf (hcheck'.mp (hbuild'.mp h).1)

end Command

end TreeFlow
