/-!
# Output platforms

A target is a label on a finished module. It is chosen by its short name or
by its triple and never changes what is lowered.
-/

set_option autoImplicit false

namespace TreeFlow

inductive Target where
  | windowsX86
  | windowsX64
  | linuxX86
  | linuxX64
  | webAssembly
  deriving DecidableEq, Repr

namespace Target

def all : List Target := [.windowsX86, .windowsX64, .linuxX86, .linuxX64, .webAssembly]

def name : Target → String
  | .windowsX86 => "windows-x86"
  | .windowsX64 => "windows-x64"
  | .linuxX86 => "linux-x86"
  | .linuxX64 => "linux-x64"
  | .webAssembly => "wasm32"

def triple : Target → String
  | .windowsX86 => "i686-pc-windows-msvc"
  | .windowsX64 => "x86_64-pc-windows-msvc"
  | .linuxX86 => "i686-pc-linux-gnu"
  | .linuxX64 => "x86_64-pc-linux-gnu"
  | .webAssembly => "wasm32-unknown-unknown"

def ofName? (s : String) : Option Target := all.find? fun t => t.name == s

def ofString? (s : String) : Option Target := all.find? fun t => t.name == s || t.triple == s

theorem ofName?_name (t : Target) : ofName? t.name = some t := by cases t <;> decide

theorem ofString?_name (t : Target) : ofString? t.name = some t := by cases t <;> decide

theorem ofString?_triple (t : Target) : ofString? t.triple = some t := by cases t <;> decide

def unknownText (s : String) : String :=
  "unknown target '" ++ s ++ "' (expected one of: " ++ String.intercalate ", " (all.map name) ++ ")"

end Target

end TreeFlow
