import TreeFlow.Tree
import TreeFlow.Diagnostic

/-!
# Outlines

An outline is what a dump says before its kinds are understood: heads of
arbitrary words and names with the places they start at. `Outline.resolve`
turns it into a tree and refuses the first word, in preorder, that names no
kind.
-/

set_option autoImplicit false

namespace TreeFlow

structure Head where
  word : String
  name : String
  place : Place
  deriving DecidableEq, Repr

inductive Outline where
  | node (head : Head) (children : List Outline)

/-- The parts of a dump that a reader can miss. -/
inductive Part where
  | endOfText
  | node
  | kind
  | children
  deriving DecidableEq, Repr

def Part.label : Part → String
  | .endOfText => "EOI"
  | .node => "node"
  | .kind => "kind"
  | .children => "children"

inductive SyntaxCause where
  | missing (parts : List Part)
  | unknownKind (word : String)
  deriving DecidableEq, Repr

structure SyntaxError where
  cause : SyntaxCause
  place : Place
  deriving DecidableEq, Repr

namespace SyntaxCause

def message : SyntaxCause → String
  | .missing parts => "expected " ++ String.intercalate " or " (parts.map Part.label)
  | .unknownKind word => Kind.unknownText word

def issuer : SyntaxCause → String
  | .missing _ => "fuc.ast.rules.parse_tree"
  | .unknownKind _ => "fuc.ast.rules.build_node"

end SyntaxCause

def SyntaxError.diagnostic (e : SyntaxError) (file : String) : Diagnostic :=
  ⟨.error, e.cause.issuer, e.cause.message, some ⟨file, e.place⟩⟩

namespace Outline

mutual

def resolve (file : String) : Outline → Except SyntaxError Tree
  | .node h os =>
    match Kind.ofLabel? h.word with
    | none => .error ⟨.unknownKind h.word, h.place⟩
    | some k =>
      match resolveAll file os with
      | .ok ts => .ok (.node ⟨k, h.name, some ⟨file, h.place⟩⟩ ts)
      | .error e => .error e

def resolveAll (file : String) : List Outline → Except SyntaxError (List Tree)
  | [] => .ok []
  | o :: os =>
    match resolve file o with
    | .ok t =>
      match resolveAll file os with
      | .ok ts => .ok (t :: ts)
      | .error e => .error e
    | .error e => .error e

end

end Outline

end TreeFlow
