import LuaLower.Lowering.Target
import LuaLower.SizeByte

/-!
# The pieces of expressions and statements

Each step here lowers one construct, given the steps that lower its parts. None of them looks at
syntax below the construct itself.
-/

namespace LuaLower

def Literal.constant? : Literal → Option Constant
  | .number x => some (.ofNumber x)
  | .string s => some (.string s)
  | _ => none

def maxArrayLength : Nat := 511

def batchSize : Nat := 50

namespace Build

def newNil : Build Nat := do
  let r ← takeRegister
  loadNil r
  return r

def literal : Literal → Build Value
  | .number x => return .constant (← constantIndex (.ofNumber x))
  | .string s => return .constant (← stringIndex s)
  | .boolean b => do
    let r ← takeRegister
    push (.abc .loadBool r (if b then 1 else 0) 0)
    return .register r
  | .null => return .register (← newNil)
  | .bigint _ => throw (.unsupported .bigint)
  | .regex .. => throw (.unsupported .regex)

def newTable (items fields : Nat) : Build Nat := do
  let table ← takeRegister
  push (.abc .newTable table (SizeByte.encode items) (SizeByte.encode fields))
  return table

/-- Set a field, and release the operands for its key and value. -/
def setField (table key value : Nat) : Build Unit := do
  push (.abc .setTable table key value)
  releaseOperands key value

def item (value : Value) : Build Unit := do
  let _ ← inNewRegister value

def hole : Build Unit := do
  let _ ← newNil

/-- Store the items above a table as its `batch`-th group of list items. -/
def storeBatch (table count batch : Nat) : Build Unit := do
  push (.abc .setList table count batch)
  releaseDownTo (table + 1)

/-- The field zero, which is not one of the list items. -/
def setFirst (table : Nat) (value : Value) : Build Unit := do
  let value ← toOperand value
  let key ← toOperand (.constant (← constantIndex (.integer 0)))
  setField table key value

def unary (op : Opcode) (operand : Value) : Build Value := do
  let src ← inRegister operand
  release src
  let dst ← takeRegister
  push (.abc op dst src 0)
  return .register dst

/-- Call the function in `base` with the arguments above it. An open call takes as many as the call
that computed the last of them left. -/
def call (base argCount : Nat) (isOpen : Bool) (use : ResultUse) : Build Unit := do
  push (.abc .call base (if isOpen then 0 else argCount + 1) use.operand)
  releaseDownTo base
  if use ≠ .discard then
    let _ ← takeRegister

def drop (value : Value) : Build Unit := do
  release (← inRegister value)

def returnValue (value : Value) : Build Unit := do
  let r ← inRegister value
  push (.abc .ret r 2 0)
  release r

def returnNone : Build Unit := push (.abc .ret 0 1 0)

def bindParams : List String → Build Unit
  | [] => return
  | name :: names => do
    let r ← takeRegister
    bindLocal name r false
    bindParams names

def closure (p : Prototype) : Build Value := do
  let index ← attach p
  let dst ← takeRegister
  push (.abx .closure dst index)
  return .register dst

end Build

namespace Lower

open Build

def function (params : List String) (body : Lower Unit) : Lower Value := do
  let p ← inFunction do
    bindParams params
    setParamCount params.length
    body
  closure p

/-- Lower a callee and its arguments, and call it. The result is the register of the callee, where
a single result is left. -/
def callWith (callee : Lower Value) (args : Lower Bool) (argCount : Nat) (use : ResultUse) :
    Lower Nat := do
  let base ← inNewRegister (← callee)
  let isOpen ← args
  call base argCount isOpen use
  return base

def property (table : Nat) (key value : Lower Value) : Lower Unit := do
  let key ← toOperand (← key)
  let value ← toOperand (← value)
  setField table key value

/-- The first value of a new local, in the register that becomes its home. -/
def initialValue : Option (Lower Value) → Lower Nat
  | some init => do inNewRegister (← init)
  | none => newNil

def setGlobal (name : String) (value : Lower Value) : Lower Unit := do
  let target ← globalTarget name
  target.assign (← value)

/-- Declare a variable of the innermost function. A second declaration of a local is a plain write
to it; a new name is a new local, and for `var` a global. -/
def declare (kind : DeclKind) (name : String) (init : Option (Lower Value)) : Lower Unit := do
  match (← get).current.local? name, init with
  | some l, some init => setLocal l.register (← init)
  | some l, none => if kind.bindsLocal then loadNil l.register else return
  | none, init =>
    if kind.bindsLocal then
      let r ← initialValue init
      bindLocal name r (kind == .const)
    else
      addGlobal name
      match init with
      | some init => setGlobal name init
      | none => return

/-- Declare a function: a write to the local of that name, or else to a global. -/
def declareFunction (name : String) (closure : Lower Value) : Lower Unit := do
  match (← get).current.local? name with
  | some l => setLocal l.register (← closure)
  | none =>
    addGlobal name
    setGlobal name closure

end Lower

end LuaLower
