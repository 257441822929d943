import LuaLower.Lowering.Operator
import LuaLower.Session.Basic

/-!
# Binary operations

The left operand of a binary operation is placed before the right one is lowered. `Pending` is the
state in between.
-/

namespace LuaLower

/-- A binary operation whose left operand has been placed. -/
inductive Pending where
  /-- The left operand is in `dst`; the jump past the right one has no destination yet. -/
  | logical (dst jump : Nat)
  | comparison (test : Comparison) (left : Nat)
  /-- The left operand is in a register of its own, below the right one. -/
  | concat (left : Nat)
  | arithmetic (op : Opcode) (left : Nat)
  deriving DecidableEq, Repr, Inhabited

namespace Build

/-- Test a value and jump past what follows if it decides the operation. -/
def beginLogical (decides : Nat) (left : Value) : Build Pending := do
  let src ← inRegister left
  release src
  let dst ← takeRegister
  let jump ← pushTest .testSet dst src decides 0
  return .logical dst jump

def beginBinary (op : BinaryOp) (isString : Bool) (left : Value) : Build Pending :=
  match op.logical?, op.comparison?, op.arithmetic? with
  | some decides, _, _ => beginLogical decides left
  | none, some test, _ => return .comparison test (← toOperand left)
  | none, none, opcode =>
    if isString then return .concat (← inNewRegister left)
    else
      match opcode with
      | some opcode => return .arithmetic opcode (← toOperand left)
      | none => throw (.unsupported (.binary op))

/-- The register for a result, which takes the lower of the registers of its operands. -/
def resultRegister (left right : Nat) : Build Nat := do
  releaseOperands left right
  takeRegister

/-- The truth value of a test, loaded by one of two instructions of which the first skips the
second. -/
def pushComparison (test : Comparison) (dst left right : Nat) : Build Unit := do
  let (first, second) := if test.swapped then (right, left) else (left, right)
  let _ ← pushTest test.op test.holdsOn first second 1
  push (.abc .loadBool dst 0 1)
  push (.abc .loadBool dst 1 0)

def finishBinary (pending : Pending) (right : Value) : Build Value :=
  match pending with
  | .logical dst jump => do
    releaseValue right
    load right dst
    landJump jump
    return .register dst
  | .comparison test left => do
    let right ← toOperand right
    let dst ← resultRegister left right
    pushComparison test dst left right
    return .register dst
  | .concat left => do
    let right ← inNewRegister right
    releaseBoth left right
    let dst ← takeRegister
    push (.abc .concat dst left right)
    return .register dst
  | .arithmetic op left => do
    let right ← toOperand right
    let dst ← resultRegister left right
    push (.abc op dst left right)
    return .register dst

end Build

def Lower.binary (op : BinaryOp) (isString : Bool) (left right : Lower Value) : Lower Value := do
  let left ← left
  let pending ← Build.beginBinary op isString left
  let right ← right
  Build.finishBinary pending right

end LuaLower
