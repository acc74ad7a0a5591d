import TreeFlow.Settings
import TreeFlow.Report.Json
import TreeFlow.Report.Style
import TreeFlow.Report.Table
import TreeFlow.Command.Arguments
import TreeFlow.Command.Files

/-!
# Running a command

A command reads its settings, then its source, and compiles. The summary of a
build is written to a file before anything is printed, so a build that fails
prints nothing on standard output.
-/

set_option autoImplicit false

namespace TreeFlow

structure Report where
  exitCode : Nat
  output : String
  errors : String
  deriving DecidableEq, Repr

namespace Report

def success (output : String) : Report := ⟨0, output, ""⟩

def failure (errors : String) : Report := ⟨1, "", errors⟩

end Report

namespace Command

open Arguments (Compile Invocation)

def complaint (colors : Bool) (text : String) : Report :=
  .failure (Style.error.line colors ("error: " ++ text))

def settings (contents : Except FileFault String) : Except String Options :=
  match contents with
  | .error e => .error ("read config: " ++ e.message)
  | .ok text =>
    match Settings.read text with
    | .ok o => .ok o
    | .error e => .error ("parse config: " ++ e.message)

/-- Lays the arguments of the command line over the settings. -/
def override (args : Compile) (o : Options) : Except String Options :=
  let o := if args.singlePass then { o with singlePass := true } else o
  match args.target with
  | none => .ok o
  | some s =>
    match Target.ofString? s with
    | some t => .ok { o with target := some t }
    | none => .error (Target.unknownText s)

def compileSource (colors : Bool) (args : Compile) (o : Options)
    (contents : Except FileFault String) : Except Report Module :=
  match contents with
  | .error e =>
    .error (complaint colors ("cannot read '" ++ args.file ++ "': " ++ e.message))
  | .ok text =>
    match (compileText o args.file text).result with
    | .ok m => .ok m
    | .error e => .error (.failure ((e.diagnostic args.file).lines colors))

/-- Resolves the options, compiles the source and goes on with the module. -/
def compile (colors : Bool) (args : Compile) (next : Module → Session Report) : Session Report :=
  let withOptions (options : Except String Options) : Session Report :=
    match options.bind (override args) with
    | .error e => .done (complaint colors e)
    | .ok o => .read args.file fun contents =>
      match compileSource colors args o contents with
      | .error r => .done r
      | .ok m => next m
  match args.config with
  | none => withOptions (.ok .default)
  | some path => .read path fun contents => withOptions (settings contents)

def buildOutput (colors json : Bool) (s : Summary) : String :=
  if json then Style.plain.line colors s.doc.pretty
  else
    Style.title.line colors ("module for " ++ s.target.getD "host")
      ++ Style.plain.line colors s.table.render
      ++ Style.info.line colors (toString s.globals ++ " global(s)")

def build (colors : Bool) (args : Compile) (json : Bool) (output : Option String) :
    Session Report :=
  compile colors args fun m =>
    let s := m.summary
    let printed := Report.success (buildOutput colors json s)
    match output with
    | none => .done printed
    | some path => .write path s.doc.pretty fun
      | none => .done printed
      | some e => .done (complaint colors ("cannot write '" ++ path ++ "': " ++ e.message))

def check (colors : Bool) (args : Compile) : Session Report :=
  compile colors args fun m =>
    let defined := (m.functions.filter fun f => !f.isDeclaration).length
    .done (.success (Style.success.line colors
      ("ok: " ++ toString defined ++ " function(s) lowered and verified")))

def targets (colors : Bool) : Report := .success (Style.plain.line colors Target.table.render)

def nothing (colors : Bool) : Report :=
  ⟨1, Style.plain.line colors "No valid subcommand was used. Use --help for more information.", ""⟩

def session (colors : Bool) : Invocation → Session Report
  | .build args json output => build colors args json output
  | .check args => check colors args
  | .targets => .done (targets colors)
  | .none => .done (nothing colors)

end Command

end TreeFlow
