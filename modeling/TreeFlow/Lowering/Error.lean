import TreeFlow.Diagnostic
import TreeFlow.Tree
import TreeFlow.Flow.Builder

/-!
# Lowering errors

A failed run ends in one error: a cause, and the site of the node it is
charged to. Causes are grouped into kinds; the kind decides the issuer and
the severity. A refusal of the builder is the only cause without a site.
-/

set_option autoImplicit false

namespace TreeFlow

inductive ErrorKind where
  | undefinedSymbol
  | undefinedFunction
  | unsupportedType
  | unsupportedExpression
  | unsupportedStatement
  | unsupportedOperator
  | unsupportedAssignmentOperator
  | unsupportedTopLevelConstruct
  | unsupportedDefineValue
  | invalidLiteral
  | malformedNode
  | breakOutsideLoop
  | continueOutsideLoop
  | argumentCountMismatch
  | duplicateFunction
  | assignmentToConstant
  | invalidIr
  deriving DecidableEq, Repr

namespace ErrorKind

def all : List ErrorKind :=
  [.undefinedSymbol, .undefinedFunction, .unsupportedType, .unsupportedExpression,
    .unsupportedStatement, .unsupportedOperator, .unsupportedAssignmentOperator,
    .unsupportedTopLevelConstruct, .unsupportedDefineValue, .invalidLiteral, .malformedNode,
    .breakOutsideLoop, .continueOutsideLoop, .argumentCountMismatch, .duplicateFunction,
    .assignmentToConstant, .invalidIr]

def label : ErrorKind → String
  | .undefinedSymbol => "UndefinedSymbol"
  | .undefinedFunction => "UndefinedFunction"
  | .unsupportedType => "UnsupportedType"
  | .unsupportedExpression => "UnsupportedExpression"
  | .unsupportedStatement => "UnsupportedStatement"
  | .unsupportedOperator => "UnsupportedOperator"
  | .unsupportedAssignmentOperator => "UnsupportedAssignmentOperator"
  | .unsupportedTopLevelConstruct => "UnsupportedTopLevelConstruct"
  | .unsupportedDefineValue => "UnsupportedDefineValue"
  | .invalidLiteral => "InvalidLiteral"
  | .malformedNode => "MalformedNode"
  | .breakOutsideLoop => "BreakOutsideLoop"
  | .continueOutsideLoop => "ContinueOutsideLoop"
  | .argumentCountMismatch => "ArgumentCountMismatch"
  | .duplicateFunction => "DuplicateFunction"
  | .assignmentToConstant => "AssignmentToConstant"
  | .invalidIr => "InvalidIr"

def issuer : ErrorKind → String
  | .undefinedSymbol | .assignmentToConstant => "fuc.lower.symbols"
  | .unsupportedType => "fuc.lower.types"
  | .unsupportedExpression | .unsupportedOperator | .invalidLiteral => "fuc.lower.expr"
  | .undefinedFunction | .argumentCountMismatch => "fuc.lower.call"
  | .unsupportedStatement | .unsupportedAssignmentOperator | .breakOutsideLoop
  | .continueOutsideLoop => "fuc.lower.stmt"
  | .unsupportedTopLevelConstruct | .unsupportedDefineValue | .duplicateFunction =>
    "fuc.lower.program"
  | .malformedNode => "fuc.lower.shape"
  | .invalidIr => "fuc.ir.builder"

def severity : ErrorKind → Severity
  | .invalidIr => .critical
  | _ => .error

end ErrorKind

/-- The deepest nesting of statements and expressions that is lowered. -/
def maxDepth : Nat := 128

inductive Cause where
  | undefinedSymbol (name : String)
  | undefinedFunction (name : String)
  | unknownType (name : String)
  | voidVariable (name : String)
  | voidParameter (name : String)
  | noValue (callee : String)
  | mixedOperands (op : String) (left right : Ty)
  | notExpression (kind : Kind)
  | notCondition (ty : Ty)
  | storeMismatch (got slot : Ty)
  | argumentMismatch (index : Nat) (callee : String) (got expected : Ty)
  | unknownStatement (name : String)
  | notStatement (kind : Kind)
  | unknownOperator (name : String)
  | unknownAssignment (name : String)
  | notTopLevel (kind : Kind)
  | unknownDirective (name : String)
  | defineValue (name : String) (kind : Kind)
  | invalidLiteral (text : String)
  | wrongArity (kind : Kind) (least most found : Nat)
  | wrongChild (index : Nat) (kind expected found : Kind)
  | missingChild (kind : Kind) (index : Nat)
  | notTypeName (kind : Kind)
  | notBlock (kind : Kind)
  | notElse (kind : Kind)
  | notProgram (kind : Kind)
  | namelessVariable
  | namelessParameter
  | tooDeep (kind : Kind)
  | breakOutsideLoop
  | continueOutsideLoop
  | argumentCount (callee : String) (expected given : Nat)
  | duplicateFunction (name : String)
  | assignmentToConstant (name : String)
  | builder (fault : BuildFault)
  deriving DecidableEq, Repr

namespace Cause

def kind : Cause → ErrorKind
  | .undefinedSymbol _ => .undefinedSymbol
  | .undefinedFunction _ => .undefinedFunction
  | .unknownType _ | .voidVariable _ | .voidParameter _ => .unsupportedType
  | .noValue _ | .mixedOperands .. | .notExpression _ | .notCondition _ | .storeMismatch ..
  | .argumentMismatch .. => .unsupportedExpression
  | .unknownStatement _ | .notStatement _ => .unsupportedStatement
  | .unknownOperator _ => .unsupportedOperator
  | .unknownAssignment _ => .unsupportedAssignmentOperator
  | .notTopLevel _ | .unknownDirective _ => .unsupportedTopLevelConstruct
  | .defineValue .. => .unsupportedDefineValue
  | .invalidLiteral _ => .invalidLiteral
  | .wrongArity .. | .wrongChild .. | .missingChild .. | .notTypeName _ | .notBlock _ | .notElse _
  | .notProgram _ | .namelessVariable | .namelessParameter | .tooDeep _ => .malformedNode
  | .breakOutsideLoop => .breakOutsideLoop
  | .continueOutsideLoop => .continueOutsideLoop
  | .argumentCount .. => .argumentCountMismatch
  | .duplicateFunction _ => .duplicateFunction
  | .assignmentToConstant _ => .assignmentToConstant
  | .builder _ => .invalidIr

def arityText (least most : Nat) : String :=
  if least = most then toString least else toString least ++ "..=" ++ toString most

def text : Cause → String
  | .undefinedSymbol n => "'" ++ n ++ "' is not defined"
  | .undefinedFunction n => "function '" ++ n ++ "' is not declared"
  | .unknownType n => "unsupported type '" ++ n ++ "'"
  | .voidVariable n => "variable '" ++ n ++ "' cannot have type void"
  | .voidParameter n => "parameter '" ++ n ++ "' cannot have type void"
  | .noValue n => "'" ++ n ++ "' returns void and has no value"
  | .mixedOperands op l r =>
    "operands of '" ++ op ++ "' have different types (" ++ l.render ++ " and " ++ r.render ++ ")"
  | .notExpression k => k.label ++ " cannot be used as an expression"
  | .notCondition t => "a value of type " ++ t.render ++ " cannot be used as a condition"
  | .storeMismatch got slot =>
    "cannot store a value of type " ++ got.render ++ " into a " ++ slot.render ++ " variable"
  | .argumentMismatch i n got expected =>
    "argument " ++ toString i ++ " of '" ++ n ++ "' is " ++ got.render ++ ", expected "
      ++ expected.render
  | .unknownStatement n => "unsupported statement '" ++ n ++ "'"
  | .notStatement k => k.label ++ " is not a statement"
  | .unknownOperator n => "unsupported operator '" ++ n ++ "'"
  | .unknownAssignment n => "unsupported assignment operator '" ++ n ++ "'"
  | .notTopLevel k => k.label ++ " is not allowed at the top level"
  | .unknownDirective n => "unsupported directive '" ++ n ++ "'"
  | .defineValue n k => "value of '" ++ n ++ "' must be a literal, found " ++ k.label
  | .invalidLiteral t => "'" ++ t ++ "' is not a valid int literal"
  | .wrongArity k least most n =>
    k.label ++ " expects " ++ arityText least most ++ " children, found " ++ toString n
  | .wrongChild i k expected found =>
    "child " ++ toString i ++ " of " ++ k.label ++ " must be " ++ expected.label ++ ", found "
      ++ found.label
  | .missingChild k i => k.label ++ " is missing child " ++ toString i
  | .notTypeName k => "expected a type name, found " ++ k.label
  | .notBlock k => "expected Block, found " ++ k.label
  | .notElse k => "else branch must be a Block or an if statement, found " ++ k.label
  | .notProgram k => "expected Program at the root, found " ++ k.label
  | .namelessVariable => "variable declaration without a name"
  | .namelessParameter => "parameters must be named VariableDeclaration nodes"
  | .tooDeep k => k.label ++ " nested deeper than " ++ toString maxDepth ++ " levels"
  | .breakOutsideLoop => "'break' outside of a loop"
  | .continueOutsideLoop => "'continue' outside of a loop"
  | .argumentCount n expected given =>
    "'" ++ n ++ "' takes " ++ toString expected ++ " argument(s), " ++ toString given ++ " given"
  | .duplicateFunction n => "function '" ++ n ++ "' is already declared"
  | .assignmentToConstant n => "cannot assign to constant '" ++ n ++ "'"
  | .builder fault => fault.message

end Cause

structure LowerError where
  cause : Cause
  site : Option Site
  deriving DecidableEq, Repr

namespace LowerError

def siteText (s : Site) : String :=
  " [" ++ s.kind.label ++ "(" ++ s.name ++ ")]" ++
    match s.location with
    | some l => " at " ++ l.render
    | none => ""

/-- The diagnostic of an error of a kind: its message starts with the kind
and ends with the node and its location. -/
def describe (kind : ErrorKind) (text : String) (site : Option Site) : Diagnostic where
  severity := kind.severity
  issuer := kind.issuer
  message := kind.label ++ ": " ++ text ++ (site.map siteText).getD ""
  location := site.bind (·.location)

def diagnostic (e : LowerError) : Diagnostic := describe e.cause.kind e.cause.text e.site

end LowerError

def Site.fault (s : Site) (c : Cause) : LowerError := ⟨c, some s⟩

end TreeFlow
