import TreeFlow.Command.Run

/-!
# The command line program

Everything is decided by `Arguments.read` and `Command.session`. This module
carries a session out on the real file system and prints its report.
-/

set_option autoImplicit false

namespace TreeFlow

/-- The fault of an operation on the real file system, in the system's words. -/
def FileFault.ofError : IO.Error → FileFault
  | .alreadyExists _ code text | .invalidArgument _ code text | .permissionDenied _ code text
  | .resourceExhausted _ code text | .inappropriateType _ code text | .noSuchThing _ code text
  | .interrupted _ code text | .noFileOrDirectory _ code text
  | .otherError code text | .resourceBusy code text | .resourceVanished code text
  | .unsupportedOperation code text | .hardwareFault code text
  | .unsatisfiedConstraints code text | .illegalOperation code text | .protocolError code text
  | .timeExpired code text => .system (text ++ " (os error " ++ toString code ++ ")")
  | .unexpectedEof => .system "unexpected end of file"
  | .userError text => .system text

def readFile (path : String) : IO (Except FileFault String) := do
  match ← (IO.FS.withFile path .read fun h => h.readBinToEnd).toBaseIO with
  | .error e => return .error (.ofError e)
  | .ok bytes =>
    match String.fromUTF8? bytes with
    | some s => return .ok s
    | none => return .error .notText

def writeFile (path text : String) : IO (Option FileFault) := do
  let write := IO.FS.withFile path .write fun h => do
    h.putStr text
    -- What the system refuses only when it takes the bytes is refused here.
    h.flush
  match ← write.toBaseIO with
  | .error e => return some (.ofError e)
  | .ok _ => return none

def Session.perform {α : Type} : Session α → IO α
  | .done a => return a
  | .read path next => do
    let contents ← readFile path
    (next contents).perform
  | .write path text next => do
    let fault ← writeFile path text
    (next fault).perform

def usageText : String :=
  "usage: fuc build FILE [-t TARGET] [-c FILE] [--single-pass] [--json] [-o FILE]\n" ++
  "       fuc check FILE [-t TARGET] [-c FILE] [--single-pass]\n" ++
  "       fuc targets\n"

def stop (u : Arguments.Usage) : IO UInt32 := do
  match u with
  | .help => IO.print usageText
  | .version => IO.println "fuc 0.1.0"
  | _ => IO.eprint usageText
  return u.exitCode.toUInt32

end TreeFlow

def main (args : List String) : IO UInt32 := do
  match TreeFlow.Arguments.read args with
  | .error u => TreeFlow.stop u
  | .ok invocation => do
    let out ← IO.getStdout
    let colors ← out.isTty
    let report ← (TreeFlow.Command.session colors invocation).perform
    out.putStr report.output
    out.flush
    IO.eprint report.errors
    return report.exitCode.toUInt32
