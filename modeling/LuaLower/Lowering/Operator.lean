import LuaLower.Opcode
import LuaLower.Syntax.Operator

/-!
# The operations behind the operators

Operators fall into three groups: those with an operation of their own, the comparisons, which are
tests of the machine, and the two that skip their right operand. The rest cannot be compiled.
-/

namespace LuaLower

/-- The operation of an arithmetic or bitwise operator. Both right shifts are the logical one. -/
def BinaryOp.arithmetic? : BinaryOp → Option Opcode
  | .add => some .add
  | .sub => some .sub
  | .mul => some .mul
  | .div => some .div
  | .mod => some .mod
  | .exp => some .pow
  | .bitAnd => some .band
  | .bitOr => some .bor
  | .bitXor => some .bxor
  | .shl => some .shl
  | .shr | .ushr => some .shr
  | _ => none

structure Comparison where
  op : Opcode
  /-- The outcome of the test for which the comparison holds. -/
  holdsOn : Nat
  swapped : Bool
  deriving DecidableEq, Repr, Inhabited

/-- The machine has no "greater": `a > b` is tested as `b < a`, and `a >= b` as `b <= a`. -/
def BinaryOp.comparison? : BinaryOp → Option Comparison
  | .eq | .strictEq => some ⟨.eq, 1, false⟩
  | .ne | .strictNe => some ⟨.eq, 0, false⟩
  | .lt => some ⟨.lt, 1, false⟩
  | .le => some ⟨.le, 1, false⟩
  | .gt => some ⟨.lt, 1, true⟩
  | .ge => some ⟨.le, 1, true⟩
  | _ => none

/-- The truth value of a left operand that decides a logical operator alone. -/
def BinaryOp.logical? : BinaryOp → Option Nat
  | .and => some 0
  | .or => some 1
  | _ => none

def UnaryOp.opcode? : UnaryOp → Option Opcode
  | .minus => some .unm
  | .bitNot => some .bnot
  | .not => some .not
  | _ => none

inductive ResultUse where
  | discard
  /-- One value, left where the callee was. -/
  | single
  /-- All values, as the last arguments of another call. -/
  | forward
  deriving DecidableEq, Repr, Inhabited

/-- The operand that asks for as many results: their number plus one, and zero for all. -/
def ResultUse.operand : ResultUse → Nat
  | .discard => 1
  | .single => 2
  | .forward => 0

end LuaLower
