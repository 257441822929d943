import LuaLower.Lowering.Binary
import LuaLower.Session.Resolution

/-!
# Assignment

The left side of an assignment comes first: its table and key are evaluated before the right side,
and stay in their registers until the value is written.
-/

namespace LuaLower

inductive Target where
  | register (index : Nat)
  | upvalue (index : Nat)
  /-- A field; the key is an operand. -/
  | member (owner : Place) (key : Nat)
  deriving DecidableEq, Repr, Inhabited

namespace Build

def globalTarget (name : String) : Build Target := do
  let (env, key) ← globalField name
  let key ← MonadExcept.ofExcept key.operand
  return .member (.upvalue env) key

def setLocal (register : Nat) (value : Value) : Build Unit := do
  releaseValue value
  load value register

end Build

namespace Target

open Build

def readField (owner : Place) (key dst : Nat) : Build Unit :=
  match owner with
  | .register t => push (.abc .getTable dst t key)
  | .upvalue u => push (.abc .getTabUp dst u key)

def writeField (owner : Place) (key value : Nat) : Build Unit :=
  match owner with
  | .register t => push (.abc .setTable t key value)
  | .upvalue u => push (.abc .setTabUp u key value)

/-- The present value of a target, which keeps its registers. -/
def read : Target → Build Value
  | .register r => return .register r
  | .upvalue u => do
    let dst ← takeRegister
    push (.abc .getUpval dst u 0)
    return .register dst
  | .member owner key => do
    let dst ← takeRegister
    readField owner key dst
    return .register dst

def write (target : Target) (value : Value) : Build Unit :=
  match target with
  | .register r => setLocal r value
  | .upvalue u => do
    let r ← inRegister value
    push (.abc .setUpval r u 0)
    release r
  | .member owner key => do
    let x ← toOperand value
    writeField owner key x
    releaseOperand x

def release : Target → Build Unit
  | .member (.register t) key => releaseOperands t key
  | .member (.upvalue _) key => releaseOperand key
  | _ => return

def assign (target : Target) (value : Value) : Build Unit := do
  target.write value
  target.release

/-- Write a value and keep it as the value of the assignment: in the local that was assigned, or
else in the first free register, which takes the place of the registers of the target. -/
def assignValue (target : Target) (value : Value) : Build Value :=
  match target with
  | .register r => do
    setLocal r value
    return .register r
  | target => do
    let r ← inRegister value
    target.assign (.register r)
    if r < (← get).registers.numLocals then
      return .register r
    else
      let dst ← takeRegister
      load (.register r) dst
      return .register dst

end Target

/-- Whether the nearest variable of a name among the locals of the open functions is constant. -/
def Session.isConst (s : Session) (name : String) : Bool :=
  (s.functions.findSome? fun f ↦ f.local? name).any Local.isConst

namespace Lower

/-- A name as a target. A name without a variable becomes a global. -/
def nameTarget (name : String) : Lower Target := do
  if (← get).isConst name then throw (.unsupported (.constantTarget name))
  else
    match ← place? name with
    | some (.register r) => return .register r
    | some (.upvalue u) => return .upvalue u
    | none =>
      if (namedConstant? name).isSome then throw (.unsupported (.namedConstantTarget name))
      else
        addGlobal name
        Build.globalTarget name

/-- The value that an assignment writes: a compound one combines the present value of the target
with the right side. -/
def assignedValue (target : Target) (compound : Option (BinaryOp × Bool)) (right : Lower Value) :
    Lower Value :=
  match compound with
  | none => right
  | some (op, isString) => binary op isString target.read right

def assignment (target : Lower Target) (compound : Option (BinaryOp × Bool))
    (right : Lower Value) : Lower (Target × Value) := do
  let target ← target
  let value ← assignedValue target compound right
  return (target, value)

end Lower

def AssignOp.compound (types : TypeOracle) (op : AssignOp) (left right : Expr) :
    Except Failure (Option (BinaryOp × Bool)) :=
  match op.binary? with
  | none => .ok none
  | some op =>
    if op = .and ∨ op = .or ∨ op = .nullish then
      .error (.unsupported (.logicalAssignment op))
    else
      .ok (some (op, op == .add && (types.isString left || types.isString right)))

/-- The operation that an update applies. An update never joins strings. -/
def UpdateOp.compound (op : UpdateOp) (form : UpdateForm) :
    Except Failure (Option (BinaryOp × Bool)) :=
  match form with
  | .before => .ok (some (op.binary, false))
  | .after => .error (.unimplemented .postfixUpdate)

end LuaLower
