/-!
# Files

A session is a computation that reads and writes files by name and is told
how each attempt ended. A file system says what a read gives, how a write ends
and what it leaves; running a session on one gives its result and the files it
leaves. A store is a file system that is a tree of files below a root, seen from
a working directory.
-/

set_option autoImplicit false

namespace TreeFlow

inductive FileFault where
  | notFound
  | isDirectory
  | notDirectory
  | notText
  | system (text : String)
  deriving DecidableEq, Repr

def FileFault.message : FileFault → String
  | .notFound => "No such file or directory (os error 2)"
  | .isDirectory => "Is a directory (os error 21)"
  | .notDirectory => "Not a directory (os error 20)"
  | .notText => "stream did not contain valid UTF-8"
  | .system text => text

inductive Session (α : Type) where
  | done (a : α)
  | read (path : String) (next : Except FileFault String → Session α)
  | write (path text : String) (next : Option FileFault → Session α)

/-- How files are read and written by name, over states of any kind. -/
structure FileSystem (σ : Type) where
  read : σ → String → Except FileFault String
  write : σ → String → String → Option FileFault × σ

def Session.runOn {σ α : Type} (fs : FileSystem σ) : Session α → σ → α × σ
  | .done a, s => (a, s)
  | .read path next, s => runOn fs (next (fs.read s path)) s
  | .write path text next, s =>
    let (fault, t) := fs.write s path text
    runOn fs (next fault) t

/-- What a name in a store stands for. A file that holds no text is only
known to be there. -/
inductive Entry where
  | directory
  | text (s : String)
  | binary
  deriving DecidableEq, Repr

abbrev Path := List String

/-- Files by their paths, and the path of the working directory. -/
structure Store where
  home : Path
  entries : List (Path × Entry)
  deriving DecidableEq, Repr

namespace Store

def empty : Store := ⟨["tmp", "work"], []⟩

def find? (s : Store) (p : Path) : Option Entry :=
  if p.isPrefixOf s.home then some .directory else s.entries.lookup p

def put (s : Store) (p : Path) (e : Entry) : Store := { s with entries := (p, e) :: s.entries }

def add (s : Store) (p : Path) (e : Entry) : Store :=
  let above := (List.range p.length).map fun n => s.home ++ p.take n
  let t := above.foldl (fun s q => if (s.find? q).isSome then s else s.put q .directory) s
  t.put (s.home ++ p) e

/-- Follows the parts of a name from a directory. Every part but the last
must be a directory, and so must the last if `deep` is set. The directory above
the root is the root. -/
def walk (s : Store) (deep : Bool) : Path → List String → Except FileFault Path
  | here, [] => .ok here
  | here, part :: parts =>
    if part = "." then walk s deep here parts
    else if part = ".." then walk s deep here.dropLast parts
    else
      let next := here ++ [part]
      if parts.isEmpty ∧ deep = false then .ok next
      else
        match s.find? next with
        | none => .error .notFound
        | some .directory => walk s deep next parts
        | some _ => .error .notDirectory

def stretches : List Char → List (List Char)
  | [] => [[]]
  | c :: cs =>
    match stretches cs with
    | [] => []
    | w :: ws => if c = '/' then [] :: w :: ws else (c :: w) :: ws

def parts (name : String) : List String :=
  ((stretches name.toList).filter (· ≠ [])).map String.ofList

def startsInSlash (name : String) : Bool := name.toList.head? == some '/'

def endsInSlash (name : String) : Bool := name.toList.getLast? == some '/'

/-- The path that a name stands for, seen from the working directory unless it
starts in a slash. -/
def resolve (s : Store) (deep : Bool) (name : String) : Except FileFault Path :=
  if name.isEmpty then .error .notFound
  else s.walk deep (if startsInSlash name then [] else s.home) (parts name)

/-- A name that ends in a slash is read as one of a directory. -/
def read (s : Store) (name : String) : Except FileFault String :=
  match s.resolve (endsInSlash name) name with
  | .error e => .error e
  | .ok p =>
    match s.find? p with
    | none => .error .notFound
    | some .directory => .error .isDirectory
    | some .binary => .error .notText
    | some (.text t) => .ok t

/-- A name that ends in a slash cannot be written, whatever it stands
for. -/
def write (s : Store) (name text : String) : Except FileFault Store :=
  match s.resolve false name with
  | .error e => .error e
  | .ok p =>
    if endsInSlash name ∨ s.find? p = some .directory then .error .isDirectory
    else .ok (s.put p (.text text))

def changes (before after : Store) : List (Path × Entry) :=
  let names := ((after.entries.map (·.1)).filter fun p => after.home.isPrefixOf p).eraseDups
  names.filterMap fun p =>
    match after.find? p with
    | some e =>
      if e = .directory ∨ before.find? p = some e then none
      else some (p.drop after.home.length, e)
    | none => none

/-- A write that fails leaves the store as it was. -/
def fileSystem : FileSystem Store where
  read := read
  write s name text :=
    match s.write name text with
    | .ok t => (none, t)
    | .error e => (some e, s)

end Store

def Session.run {α : Type} (x : Session α) (s : Store) : α × Store := x.runOn Store.fileSystem s

end TreeFlow
