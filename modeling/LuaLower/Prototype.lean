import LuaLower.Constant
import LuaLower.Instruction.Basic

/-!
# Function prototypes

A prototype is a compiled function: code, constants, the variables it captures, and the functions
nested in it.
-/

namespace LuaLower

structure Upvalue where
  name : String
  /-- In a register of the enclosing function, rather than among its own upvalues. -/
  inStack : Bool
  /-- The register, or the position among the enclosing function's upvalues. -/
  index : UInt8
  deriving DecidableEq, Repr, Inhabited

structure LocalRange where
  name : String
  startPc : Nat
  endPc : Nat
  deriving DecidableEq, Repr, Inhabited

structure DebugTables where
  lines : List Int32 := []
  locals : List LocalRange := []
  upvalueNames : List String := []
  deriving DecidableEq, Repr, Inhabited

def DebugTables.isEmpty (d : DebugTables) : Bool :=
  d.lines.isEmpty && d.locals.isEmpty && d.upvalueNames.isEmpty

structure Prototype where
  source : Option String := none
  line : Int32 := 0
  lastLine : Int32 := 0
  numParams : UInt8 := 0
  isVararg : Bool := false
  stackSize : UInt8 := 2
  code : Array Instruction := #[]
  constants : Pool := {}
  upvalues : List Upvalue := []
  children : List Prototype := []
  debug : DebugTables := {}
  deriving Repr, Inhabited

end LuaLower
