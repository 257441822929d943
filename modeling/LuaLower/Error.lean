import LuaLower.Instruction.Basic
import LuaLower.Syntax.Operator
import LuaLower.Value

/-!
# Failures

A compilation fails for one of four kinds of reason. The causes are data; `Failure.message`
is the only place that holds their wording.
-/

namespace LuaLower

/-- A construct of the source language that has no lowering. -/
inductive Unsupported where
  | node (kind : String)
  | bigint
  | regex
  | propertyKey
  | unary (op : UnaryOp)
  | binary (op : BinaryOp)
  | logicalAssignment (op : BinaryOp)
  /-- The left side of an assignment is a node of a kind that names no place. -/
  | target (kind : String)
  | constantTarget (name : String)
  | namedConstantTarget (name : String)
  | outsideFunction
  /-- Functions were not closed in the order they were opened. -/
  | unbalancedNesting
  deriving DecidableEq, Repr

/-- A limit, or a feature that the grammar has and the compiler does not have yet. -/
inductive Unimplemented where
  | registerLimit
  | upvalueLimit
  | arrayLimit
  | expressionArrow
  | postfixUpdate
  | bundledRoot
  | unparsedRoot
  | debugInfo
  deriving DecidableEq, Repr

inductive EncodingFault where
  | family (built own : Family)
  | field (field : Field) (value : Nat)
  | offset (sbx : Int)
  /-- The table of a member read is neither in a register nor in an upvalue. -/
  | owner (value : Value)
  | key (value : Value)
  deriving DecidableEq, Repr

inductive Failure where
  | unsupported (what : Unsupported)
  | unresolved (name : String)
  | malformed (op : Opcode) (fault : EncodingFault)
  | unimplemented (what : Unimplemented)
  deriving DecidableEq, Repr

def Unsupported.message : Unsupported → String
  | .node kind => kind
  | .bigint => "bigint literal"
  | .regex => "regular expression literal"
  | .propertyKey => "non-string property key"
  | .unary op => "unary operator '" ++ op.symbol ++ "'"
  | .binary op => "binary operator '" ++ op.symbol ++ "'"
  | .logicalAssignment op => "logical assignment '" ++ op.symbol ++ "='"
  | .target kind => "assignment to " ++ kind
  | .constantTarget name => "assignment to constant '" ++ name ++ "'"
  | .namedConstantTarget name => "assignment to '" ++ name ++ "'"
  | .outsideFunction => "identifier outside of any function"
  | .unbalancedNesting => "unbalanced function nesting"

def Unimplemented.message : Unimplemented → String
  | .registerLimit => "more than 255 registers"
  | .upvalueLimit => "more than 255 upvalues"
  | .arrayLimit => "array literal with more than 511 elements"
  | .expressionArrow => "arrow function with an expression body"
  | .postfixUpdate => "postfix increment/decrement"
  | .bundledRoot => "bundled compilation roots"
  | .unparsedRoot => "unparsed source roots"
  | .debugInfo => "writing debug information"

def EncodingFault.message : EncodingFault → String
  | .family built own => "built as " ++ built.name ++ " but the opcode is " ++ own.name
  | .field f value => f.name ++ s!" {value} exceeds {f.limit}"
  | .offset sbx => s!"sBx {sbx} out of range"
  | .owner v => "table operand " ++ v.describe ++ " is not a register or upvalue"
  | .key v => "key operand " ++ v.describe ++ " is not RK-addressable"

def Failure.message : Failure → String
  | .unsupported what => "unsupported construct: " ++ what.message
  | .unresolved name => "unresolved identifier '" ++ name ++ "'"
  | .malformed op fault => "malformed encoding for " ++ op.name ++ ": " ++ fault.message
  | .unimplemented what => "unimplemented: " ++ what.message

end LuaLower
