import TreeFlow.Text.White
import TreeFlow.Tree.Outline

/-!
# Reading a dump

The reader is a machine that takes one character at a time. Blanks and
comments may stand in five gaps: where a node may start, behind a complete
head, and behind the word, the opening parenthesis and the name of a head.
A solidus opens a comment only together with a second one, so the reader
remembers the gap it came from until the next character decides.

A failure names the parts that could have stood at the furthest place where
one was tried. A head that breaks off is charged to the place where it
started; a leaf right before that place could also have had children.
-/

set_option autoImplicit false

namespace TreeFlow.Reader

def isNewline (c : Char) : Bool := c == '\n' || c == '\r'

def isGap (c : Char) : Bool := c == ' ' || c == '\t' || isNewline c

def isWordStart (c : Char) : Bool := c.isAlpha

def isWord (c : Char) : Bool := c.isAlphanum || c == '_'

def isName (c : Char) : Bool := c != ')' && !isNewline c

/-- A head of which the word has begun. The word is kept last character
first. -/
structure Start where
  word : List Char
  place : Place
  afterLeaf : Bool
  deriving DecidableEq, Repr

namespace Start

def finish (st : Start) (name : List Char) : Head :=
  ⟨String.ofList st.word.reverse, String.ofList (Text.trim name.reverse), st.place⟩

def fault (st : Start) : SyntaxError :=
  ⟨.missing (if st.afterLeaf then [.node, .children] else [.node]), st.place⟩

end Start

inductive Gap where
  | fresh
  | leaf (head : Head)
  | word (start : Start)
  | paren (start : Start)
  | named (start : Start) (name : List Char)
  deriving DecidableEq, Repr

inductive Mode where
  | gap (g : Gap)
  | slash (g : Gap) (place : Place)
  | comment (g : Gap)
  | word (start : Start)
  | name (start : Start) (name : List Char)
  | failed (e : SyntaxError)
  deriving DecidableEq, Repr

/-- A node whose brace is open, with its finished children, last one
first. -/
structure Frame where
  head : Head
  children : List Outline

structure State where
  place : Place
  frames : List Frame
  root : Option Outline
  mode : Mode

namespace State

def initial : State := ⟨.start, [], none, .gap .fresh⟩

def attach (s : State) (o : Outline) : State :=
  match s.frames with
  | [] => { s with root := some o }
  | f :: fs => { s with frames := { f with children := o :: f.children } :: fs }

def close? (s : State) : Option State :=
  match s.frames with
  | [] => none
  | f :: fs => some ({ s with frames := fs }.attach (.node f.head f.children.reverse))

def enter (s : State) (m : Mode) : State := { s with mode := m }

/-- The failure of a gap that is left at `p` by nothing that may follow. -/
def stuck (s : State) (g : Gap) (p : Place) : SyntaxError :=
  match g with
  | .fresh => ⟨.missing (if s.root.isSome then [.endOfText] else [.kind]), p⟩
  | .leaf _ =>
    ⟨.missing (if s.frames.isEmpty then [.endOfText, .children] else [.kind, .children]), p⟩
  | .word st | .paren st | .named st _ => st.fault

def begin? (s : State) (c : Char) (afterLeaf : Bool) : Option State :=
  if s.root.isNone && isWordStart c then some (s.enter (.word ⟨[c], s.place, afterLeaf⟩)) else none

def leave (s : State) (g : Gap) (c : Char) : Option State :=
  match g with
  | .fresh =>
    if c = '}' then s.close?.map (·.enter (.gap .fresh)) else s.begin? c false
  | .leaf h =>
    if c = '{' then some { s with frames := ⟨h, []⟩ :: s.frames, mode := .gap .fresh }
    else if c = '}' then (s.attach (.node h [])).close?.map (·.enter (.gap .fresh))
    else (s.attach (.node h [])).begin? c true
  | .word st => if c = '(' then some (s.enter (.gap (.paren st))) else none
  | .paren st =>
    some (s.enter (if c = ')' then .gap (.leaf (st.finish [])) else .name st [c]))
  | .named st name => if c = ')' then some (s.enter (.gap (.leaf (st.finish name)))) else none

/-- A character behind a word or in a gap. The place is still its own. -/
def stepGap (s : State) (g : Gap) (c : Char) : State :=
  if isGap c then s.enter (.gap g)
  else if c = '/' then s.enter (.slash g s.place)
  else (s.leave g c).getD (s.enter (.failed (s.stuck g s.place)))

def stepName (s : State) (st : Start) (name : List Char) (c : Char) : State :=
  if c = ')' then s.enter (.gap (.leaf (st.finish name)))
  else if isNewline c then s.enter (.gap (.named st name))
  else s.enter (.name st (c :: name))

def react (s : State) (c : Char) : State :=
  match s.mode with
  | .gap g => s.stepGap g c
  | .slash g p =>
    if c = '/' then s.enter (.comment g)
    else match g with
      | .paren st => s.stepName st ['/'] c
      | g => s.enter (.failed (s.stuck g p))
  | .comment g => if isNewline c then s.enter (.gap g) else s
  | .word st =>
    if isWord c then s.enter (.word { st with word := c :: st.word })
    else s.stepGap (.word st) c
  | .name st name => s.stepName st name c
  | .failed _ => s

def step (s : State) (c : Char) : State :=
  let t := s.react c
  { t with place := s.place.advance c }

def run : State → List Char → State
  | s, [] => s
  | s, c :: cs => run (s.step c) cs

theorem run_append (s : State) (xs ys : List Char) :
    s.run (xs ++ ys) = (s.run xs).run ys := by
  induction xs generalizing s with
  | nil => rfl
  | cons c xs ih => exact ih _

theorem run_place (s : State) (cs : List Char) : (s.run cs).place = s.place.after cs := by
  induction cs generalizing s with
  | nil => rfl
  | cons c cs ih => exact ih _

def finishGap (s : State) (g : Gap) : Except SyntaxError Outline :=
  match g, s.root, s.frames with
  | .fresh, some o, _ => .ok o
  | .leaf h, none, [] => .ok (.node h [])
  | _, _, _ => .error (s.stuck g s.place)

def finish (s : State) : Except SyntaxError Outline :=
  match s.mode with
  | .gap g | .comment g => s.finishGap g
  | .slash g p => .error (s.stuck g p)
  | .word st | .name st _ => .error st.fault
  | .failed e => .error e

end State

def outline (text : List Char) : Except SyntaxError Outline := (State.initial.run text).finish

end TreeFlow.Reader

namespace TreeFlow.Tree

/-- Reads a dump. Kinds are looked up only when the whole text has the shape
of a dump. -/
def read (file text : String) : Except SyntaxError Tree :=
  match Reader.outline text.toList with
  | .ok o => o.resolve file
  | .error e => .error e

end TreeFlow.Tree
