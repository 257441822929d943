import LuaLower.OpenFunction.Basic

/-!
# Placing values

Lowering hands values around by description. The steps here put a described value where an
instruction needs it, and release the registers that the description holds.
-/

namespace LuaLower

/-- A register or an upvalue: what an instruction can index without loading anything first. -/
inductive Place where
  | register (index : Nat)
  | upvalue (index : Nat)
  deriving DecidableEq, Repr, Inhabited

def Place.toValue : Place → Value
  | .register r => .register r
  | .upvalue u => .upvalue u

/-- The operand for a value that needs no loading: a register, or one of the first constants. -/
def Value.operand : Value → Except Failure Nat
  | .register r => .ok r
  | .constant k =>
    if k ≤ RK.maxIndex then .ok (RK.constant k)
    else .error (.malformed .getTable (.key (.constant k)))
  | v => .error (.malformed .getTable (.key v))

namespace Build

/-! ## Releasing -/

def releaseBoth (r s : Nat) : Build Unit := do
  release (max r s)
  release (min r s)

def releaseValue : Value → Build Unit
  | .register r => release r
  | .member (.register owner) (.register key) => releaseBoth owner key
  | .member (.register owner) _ => release owner
  | .member _ (.register key) => release key
  | _ => return

def releaseOperand (x : Nat) : Build Unit :=
  if RK.isConstant x then return else release x

def releaseOperands (x y : Nat) : Build Unit :=
  if RK.isConstant x then releaseOperand y
  else if RK.isConstant y then release x
  else releaseBoth x y

/-! ## Loading -/

/-- Load a constant; one beyond the reach of the instruction takes a second word. -/
def loadFromPool (register k : Nat) : Build Unit :=
  if k ≤ Field.bx.limit then
    push (.abx .loadK register k)
  else do
    push (.abx .loadKX register 0)
    push (.ax .extraArg k)

def loadNil (register : Nat) : Build Unit := push (.abc .loadNil register 0 0)

def load (value : Value) (register : Nat) : Build Unit :=
  match value with
  | .register r => if r = register then return else push (.abc .move register r 0)
  | .constant k => loadFromPool register k
  | .upvalue u => push (.abc .getUpval register u 0)
  | .member owner key => do
    let key ← MonadExcept.ofExcept key.operand
    match owner with
    | .upvalue u => push (.abc .getTabUp register u key)
    | .register t => push (.abc .getTable register t key)
    | _ => throw (.malformed .getTable (.owner owner))

/-- Load a value into the first free register, which may be one that the value itself held. -/
def inNewRegister (value : Value) : Build Nat := do
  releaseValue value
  let register ← takeRegister
  load value register
  return register

/-- A register that holds a value; a value in a register stays where it is. -/
def inRegister : Value → Build Nat
  | .register r => return r
  | value => inNewRegister value

/-- An operand for a value, which is loaded unless it is in a register or one of the first
constants. -/
def toOperand : Value → Build Nat
  | .constant k =>
    if k ≤ RK.maxIndex then return RK.constant k else inRegister (.constant k)
  | value => inRegister value

def toKey : Value → Build Value
  | .constant k =>
    if k ≤ RK.maxIndex then return .constant k else return .register (← inRegister (.constant k))
  | value => return .register (← inRegister value)

def toTable : Value → Build Place
  | .register r => return .register r
  | .upvalue u => return .upvalue u
  | value => return .register (← inRegister value)

/-! ## Globals -/

/-- The upvalue that holds the globals, and the key of the global with a given name. -/
def globalField (name : String) : Build (Nat × Value) := do
  match (← get).upvalueIndex? envName with
  | none => throw (.unresolved envName)
  | some env =>
    let key ← toKey (.constant (← stringIndex name))
    return (env, key)

def globalValue (name : String) : Build Value := do
  let (env, key) ← globalField name
  return .member (.upvalue env) key

end Build

end LuaLower
