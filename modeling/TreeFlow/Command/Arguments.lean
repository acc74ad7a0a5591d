/-!
# Command lines

A command line names a command and its arguments. An option takes its value
from its own word, behind the letter or an equals sign, or from the next
word. An option is taken into account only when the word after its value, or
the end of the line, is reached; until then an unknown word is reported
first. Behind two hyphens every word is an operand.
-/

set_option autoImplicit false

namespace TreeFlow.Arguments

/-- The ways in which a command line ends a run before it starts. -/
inductive Usage where
  | help
  | version
  | missingOperand
  | unknownArgument
  | unknownCommand
  | repeated
  | missingValue
  | surplusValue
  deriving DecidableEq, Repr

def Usage.exitCode : Usage → Nat
  | .help | .version => 0
  | _ => 2

inductive Key where
  | file
  | target
  | config
  | singlePass
  | json
  | output
  | help
  | version
  deriving DecidableEq, Repr

structure Switch where
  key : Key
  short : Option Char
  long : String
  takesValue : Bool
  deriving DecidableEq, Repr

def helpSwitch : Switch := ⟨.help, some 'h', "help", false⟩

def compileSwitches : List Switch :=
  [⟨.target, some 't', "target", true⟩, ⟨.config, some 'c', "config", true⟩,
    ⟨.singlePass, none, "single-pass", false⟩, helpSwitch]

def buildSwitches : List Switch :=
  compileSwitches ++ [⟨.json, none, "json", false⟩, ⟨.output, some 'o', "output", true⟩]

structure Form where
  switches : List Switch
  operand : Bool
  deriving DecidableEq, Repr

def topForm : Form := ⟨[helpSwitch, ⟨.version, some 'V', "version", false⟩], false⟩

inductive Command where
  | build
  | check
  | targets
  deriving DecidableEq, Repr

namespace Command

def name : Command → String
  | .build => "build"
  | .check => "check"
  | .targets => "targets"

def all : List Command := [.build, .check, .targets]

def ofName? (s : String) : Option Command := all.find? fun c => c.name == s

def form : Command → Form
  | .build => ⟨buildSwitches, true⟩
  | .check => ⟨compileSwitches, true⟩
  | .targets => ⟨[helpSwitch], false⟩

end Command

/-! ## Words -/

inductive Word where
  | escape
  | long (name : String) (value : Option String)
  | short (letters : List Char)
  | operand
  deriving DecidableEq, Repr

def Word.ofString (s : String) : Word :=
  match s.toList with
  | ['-', '-'] => .escape
  | '-' :: '-' :: cs =>
    let name := String.ofList (cs.takeWhile (· ≠ '='))
    match cs.dropWhile (· ≠ '=') with
    | [] => .long name none
    | _ :: value => .long name (some (String.ofList value))
  | '-' :: c :: cs => .short (c :: cs)
  | _ => .operand

/-! ## Reading the words of a command -/

/-- The arguments that count, and the latest one, which does not count
yet. -/
structure Progress where
  given : List (Key × String)
  pending : Option (Key × Option String)
  operands : Nat
  trailing : Bool
  deriving DecidableEq, Repr

namespace Progress

def initial : Progress := ⟨[], none, 0, false⟩

def record (p : Progress) (k : Key) (value : String) : Except Usage Progress :=
  if (p.given.lookup k).isSome then .error .repeated
  else .ok { p with given := p.given ++ [(k, value)] }

/-- Takes the latest argument into account. -/
def settle (p : Progress) : Except Usage Progress :=
  match p.pending with
  | none => .ok p
  | some (_, none) => .error .missingValue
  | some (k, some v) => { p with pending := none }.record k v

def flag (p : Progress) (k : Key) : Except Usage Progress := do
  let p ← p.settle
  match k with
  | .help => .error .help
  | .version => .error .version
  | k => p.record k ""

def attached (p : Progress) (k : Key) (value : String) : Except Usage Progress := do
  let p ← p.settle
  p.record k value

def detached (p : Progress) (k : Key) : Except Usage Progress := do
  let p ← p.settle
  return { p with pending := some (k, none) }

def awaits (p : Progress) : Option Key :=
  match p.pending with
  | some (k, none) => some k
  | _ => none

end Progress

namespace Form

def long? (f : Form) (name : String) : Option Switch := f.switches.find? fun s => s.long == name

def short? (f : Form) (c : Char) : Option Switch := f.switches.find? fun s => s.short == some c

def takeLong (f : Form) (p : Progress) (name : String) (value : Option String) :
    Except Usage Progress :=
  match f.long? name, value with
  | none, _ => .error .unknownArgument
  | some s, some v => if s.takesValue then p.attached s.key v else .error .surplusValue
  | some s, none => if s.takesValue then p.detached s.key else p.flag s.key

def takeShort (f : Form) (p : Progress) : List Char → Except Usage Progress
  | [] => .ok p
  | c :: cs =>
    match f.short? c with
    | none => .error .unknownArgument
    | some s =>
      if s.takesValue then
        match cs with
        | [] => p.detached s.key
        | '=' :: v => p.attached s.key (String.ofList v)
        | v => p.attached s.key (String.ofList v)
      else do
        let p ← p.flag s.key
        takeShort f p cs

def takeOperand (f : Form) (p : Progress) (s : String) : Except Usage Progress :=
  if f.operand ∧ p.operands = 0 then do
    let p ← p.settle
    return { p with pending := some (.file, some s), operands := 1 }
  else .error .unknownArgument

def take (f : Form) (p : Progress) (s : String) : Except Usage Progress :=
  if p.trailing then f.takeOperand p s
  else
    match Word.ofString s with
    | .escape => .ok { p with trailing := true }
    | .long name value => f.takeLong p name value
    | .short letters => f.takeShort p letters
    | .operand =>
      match p.awaits with
      | some k => .ok { p with pending := some (k, some s) }
      | none => f.takeOperand p s

def takeAll (f : Form) : Progress → List String → Except Usage Progress
  | p, [] => p.settle
  | p, s :: ss => do
    let p ← f.take p s
    takeAll f p ss

def read (f : Form) (words : List String) : Except Usage (List (Key × String)) := do
  let p ← f.takeAll .initial words
  if f.operand ∧ (p.given.lookup .file).isNone then .error .missingOperand else .ok p.given

end Form

/-! ## The whole line -/

structure Compile where
  file : String
  target : Option String
  config : Option String
  singlePass : Bool
  deriving DecidableEq, Repr

inductive Invocation where
  | build (args : Compile) (json : Bool) (output : Option String)
  | check (args : Compile)
  | targets
  | none
  deriving DecidableEq, Repr

def compileArguments (given : List (Key × String)) : Compile :=
  ⟨(given.lookup .file).getD "", given.lookup .target, given.lookup .config,
    (given.lookup .singlePass).isSome⟩

def Command.invocation (c : Command) (given : List (Key × String)) : Invocation :=
  match c with
  | .build =>
    .build (compileArguments given) (given.lookup .json).isSome (given.lookup .output)
  | .check => .check (compileArguments given)
  | .targets => .targets

def helpCommand : List String → Usage
  | [] => .help
  | [s] => if s = "help" ∨ (Command.ofName? s).isSome then .help else .unknownCommand
  | _ => .unknownCommand

/-- A word that should name a command and does not, or comes too late. -/
def notCommand (trailing : Bool) (s : String) : Usage :=
  if trailing ∧ (s = "help" ∨ (Command.ofName? s).isSome) then .unknownArgument else .unknownCommand

def readFrom (trailing : Bool) : List String → Except Usage Invocation
  | [] => .ok .none
  | s :: ss =>
    if trailing then .error (notCommand true s)
    else
      match Command.ofName? s with
      | some c => (c.form.read ss).map c.invocation
      | none =>
        if s = "help" then .error (helpCommand ss)
        else
          match Word.ofString s with
          | .escape => readFrom true ss
          | .long name value => do
            let _ ← topForm.takeLong .initial name value
            readFrom false ss
          | .short letters => do
            let _ ← topForm.takeShort .initial letters
            readFrom false ss
          | .operand => .error (notCommand false s)

def read (words : List String) : Except Usage Invocation := readFrom false words

end TreeFlow.Arguments
