import TreeFlow.Location

/-!
# Syntax trees

A tree is a node with a kind, a name, possibly a source location, and an
ordered list of children. What a diagnostic says about a node is its `Site`:
everything about it except its children.
-/

set_option autoImplicit false

namespace TreeFlow

inductive Kind where
  | program
  | functionDeclaration
  | parameters
  | variableDeclaration
  | block
  | statement
  | assignment
  | binaryExpression
  | identifier
  | literal
  | functionCall
  | returnStatement
  | whileStatement
  | preprocessorDirective
  deriving DecidableEq, Repr

namespace Kind

def label : Kind → String
  | .program => "Program"
  | .functionDeclaration => "FunctionDeclaration"
  | .parameters => "Parameters"
  | .variableDeclaration => "VariableDeclaration"
  | .block => "Block"
  | .statement => "Statement"
  | .assignment => "Assignment"
  | .binaryExpression => "BinaryExpression"
  | .identifier => "Identifier"
  | .literal => "Literal"
  | .functionCall => "FunctionCall"
  | .returnStatement => "ReturnStatement"
  | .whileStatement => "WhileStatement"
  | .preprocessorDirective => "PreprocessorDirective"

def all : List Kind :=
  [.program, .functionDeclaration, .parameters, .variableDeclaration, .block, .statement,
    .assignment, .binaryExpression, .identifier, .literal, .functionCall, .returnStatement,
    .whileStatement, .preprocessorDirective]

def ofLabel? (s : String) : Option Kind := all.find? fun k => k.label == s

theorem ofLabel?_label (k : Kind) : ofLabel? k.label = some k := by
  cases k <;> decide

def isExpression : Kind → Bool
  | .binaryExpression | .identifier | .literal | .functionCall => true
  | _ => false

def unknownText (s : String) : String := "unknown node kind '" ++ s ++ "'"

end Kind

structure Site where
  kind : Kind
  name : String
  location : Option Location
  deriving DecidableEq, Repr

inductive Tree where
  | node (site : Site) (children : List Tree)

namespace Tree

def site : Tree → Site
  | .node s _ => s

def children : Tree → List Tree
  | .node _ ts => ts

def kind (t : Tree) : Kind := t.site.kind

def name (t : Tree) : String := t.site.name

mutual

/-- The sites of a tree in preorder, each with its distance from the root. -/
def preorder (depth : Nat) : Tree → List (Nat × Site)
  | .node s ts => (depth, s) :: preorderAll (depth + 1) ts

def preorderAll (depth : Nat) : List Tree → List (Nat × Site)
  | [] => []
  | t :: ts => preorder depth t ++ preorderAll depth ts

end

end Tree

end TreeFlow
