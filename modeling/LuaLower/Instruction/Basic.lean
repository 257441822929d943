import LuaLower.Opcode

/-!
# Instructions

Instructions stay symbolic while code is produced and are packed into words only when a chunk is
written. The constructor is the layout an instruction was built in; nothing forces it to be the
layout of the opcode until then.
-/

namespace LuaLower

inductive Field where
  | a | b | c | bx | ax
  deriving DecidableEq, Repr, Inhabited

namespace Field

def name : Field → String
  | .a => "A"
  | .b => "B"
  | .c => "C"
  | .bx => "Bx"
  | .ax => "Ax"

def limit : Field → Nat
  | .a => 1 <<< 8 - 1
  | .b | .c => 1 <<< 9 - 1
  | .bx => 1 <<< 18 - 1
  | .ax => 1 <<< 26 - 1

end Field

inductive Instruction where
  | abc (op : Opcode) (a b c : Nat)
  | abx (op : Opcode) (a bx : Nat)
  | asbx (op : Opcode) (a : Nat) (sbx : Int)
  | ax (op : Opcode) (ax : Nat)
  deriving DecidableEq, Repr, Inhabited

namespace Instruction

def opcode : Instruction → Opcode
  | .abc op .. | .abx op .. | .asbx op .. | .ax op .. => op

def family : Instruction → Family
  | .abc .. => .abc
  | .abx .. => .abx
  | .asbx .. => .asbx
  | .ax .. => .ax

def describe : Instruction → String
  | .abc op a b c => op.name ++ s!" A={a} B={b} C={c}"
  | .abx op a bx => op.name ++ s!" A={a} Bx={bx}"
  | .asbx op a sbx => op.name ++ s!" A={a} sBx={sbx}"
  | .ax op operand => op.name ++ s!" Ax={operand}"

end Instruction

/-! ## Operands that name a register or a constant -/

namespace RK

def maxIndex : Nat := 255

/-- The operand that names the constant at `index`. -/
def constant (index : Nat) : Nat := index ||| 256

/-- Bit 8 tells constants from registers. -/
def isConstant (operand : Nat) : Bool := operand.testBit 8

def index (operand : Nat) : Nat := if isConstant operand then operand - 256 else operand

end RK

end LuaLower
