import LuaLower.Error
import LuaLower.Prototype
import LuaLower.Registers

/-!
# Functions under construction

An open function is a prototype that is still being extended, together with its registers. A step
of the construction may fail; what it did before it failed stays done.
-/

namespace LuaLower

/-- The name of the variable whose fields are the globals. -/
def envName : String := "_ENV"

structure OpenFunction where
  proto : Prototype
  registers : Registers := {}
  deriving Repr, Inhabited

namespace OpenFunction

def main (source : Option String) : OpenFunction where
  proto := { source, isVararg := true, upvalues := [⟨envName, true, 0⟩] }

/-- A function inside `parent`, from which it takes its source name and its globals. -/
def inside (parent : OpenFunction) : OpenFunction where
  proto := { source := parent.proto.source, upvalues := [⟨envName, false, 0⟩] }

def close (f : OpenFunction) : Prototype :=
  { f.proto with
    code := f.proto.code.push (.abc .ret 0 1 0)
    stackSize := UInt8.ofNat (max f.registers.high 2) }

/-- A function after one nested in it was closed: registers out of order there count here too. -/
def afterNested (f nested : OpenFunction) : OpenFunction :=
  { f with registers := f.registers.note nested.registers.inOrder }

def local? (f : OpenFunction) (name : String) : Option Local := f.registers.find? name

def upvalueIndex? (f : OpenFunction) (name : String) : Option Nat :=
  f.proto.upvalues.findIdx? fun u ↦ u.name == name

end OpenFunction

abbrev Build := EStateM Failure OpenFunction

namespace Build

/-! ## Code -/

def push (i : Instruction) : Build Unit :=
  modify fun f ↦ { f with proto := { f.proto with code := f.proto.code.push i } }

def here : Build Nat := return (← get).proto.code.size

/-- A test and the jump that it may skip. The result is the position of the jump. -/
def pushTest (op : Opcode) (a b c : Nat) (offset : Int) : Build Nat := do
  push (.abc op a b c)
  let jump ← here
  push (.asbx .jmp 0 offset)
  return jump

def landJump (jump : Nat) : Build Unit :=
  modify fun f ↦
    let offset : Int := f.proto.code.size - jump - 1
    let code := f.proto.code.setIfInBounds jump (.asbx .jmp 0 offset)
    { f with proto := { f.proto with code } }

/-! ## Constants -/

def constantIndex (k : Constant) : Build Nat :=
  modifyGet fun f ↦
    let (index, constants) := f.proto.constants.insert k
    (index, { f with proto := { f.proto with constants } })

def stringIndex (s : String) : Build Nat := constantIndex (.string s)

/-! ## Registers -/

def takeRegister : Build Nat := do
  let f ← get
  if f.registers.next < Registers.limit then
    set { f with registers := f.registers.take }
    return f.registers.next
  else
    throw (.unimplemented .registerLimit)

def release (register : Nat) : Build Unit :=
  modify fun f ↦ { f with registers := f.registers.release register }

def releaseDownTo (level : Nat) : Build Unit :=
  modify fun f ↦ { f with registers := f.registers.releaseDownTo level }

def bindLocal (name : String) (register : Nat) (isConst : Bool) : Build Unit :=
  modify fun f ↦ { f with registers := f.registers.bind name register isConst }

def settle : Build Unit := modify fun f ↦ { f with registers := f.registers.settle }

/-! ## Upvalues -/

def upvalueLimit : Nat := 255

def newUpvalue (name : String) (inStack : Bool) (index : Nat) : Build Nat := do
  let f ← get
  let position := f.proto.upvalues.length
  if position < upvalueLimit then
    let upvalues := f.proto.upvalues ++ [⟨name, inStack, UInt8.ofNat index⟩]
    set { f with proto := { f.proto with upvalues } }
    return position
  else
    throw (.unimplemented .upvalueLimit)

/-! ## Nested functions -/

def attach (p : Prototype) : Build Nat :=
  modifyGet fun f ↦
    (f.proto.children.length,
      { f with proto := { f.proto with children := f.proto.children ++ [p] } })

def setParamCount (n : Nat) : Build Unit :=
  modify fun f ↦ { f with proto := { f.proto with numParams := UInt8.ofNat n } }

end Build

end LuaLower
