import LuaLower.Error

/-!
# Instruction words

The opcode takes bits 0–5, `A` 6–13, `C` 14–22, `B` 23–31, `Bx` 14–31 and `Ax` 6–31. A signed
offset is stored in `Bx` with `maxOffset` added. Packing refuses an instruction built in another
layout than its opcode's, and an operand that does not fit its field.
-/

namespace LuaLower.Instruction

def maxOffset : Nat := 131071

def checkField (op : Opcode) (field : Field) (value : Nat) : Except Failure Unit :=
  if value ≤ field.limit then .ok () else .error (.malformed op (.field field value))

def checkOffset (op : Opcode) (sbx : Int) : Except Failure Unit :=
  if -(maxOffset : Int) ≤ sbx ∧ sbx ≤ maxOffset then .ok ()
  else .error (.malformed op (.offset sbx))

/-- The fields are checked in the order in which they are written. -/
def checkFields : Instruction → Except Failure Unit
  | .abc op a b c => do
    checkField op .a a
    checkField op .b b
    checkField op .c c
  | .abx op a bx => do
    checkField op .a a
    checkField op .bx bx
  | .asbx op a sbx => do
    checkField op .a a
    checkOffset op sbx
  | .ax op operand => checkField op .ax operand

def pack : Instruction → Nat
  | .abc op a b c => op.number + a * 0x40 + c * 0x4000 + b * 0x800000
  | .abx op a bx => op.number + a * 0x40 + bx * 0x4000
  | .asbx op a sbx => op.number + a * 0x40 + (sbx + maxOffset).toNat * 0x4000
  | .ax op operand => op.number + operand * 0x40

def encode (i : Instruction) : Except Failure UInt32 := do
  if i.family = i.opcode.family then
    i.checkFields
    return UInt32.ofNat i.pack
  else
    throw (.malformed i.opcode (.family i.family i.opcode.family))

/-- The instruction that a word stands for, if its low six bits are the number of an opcode. -/
def decode? (word : UInt32) : Option Instruction :=
  let w := word.toNat
  (Opcode.ofNumber? (w % 0x40)).map fun op ↦
    let a := w / 0x40 % 0x100
    match op.family with
    | .abc => .abc op a (w / 0x800000) (w / 0x4000 % 0x200)
    | .abx => .abx op a (w / 0x4000)
    | .asbx => .asbx op a (w / 0x4000 - maxOffset)
    | .ax => .ax op (w / 0x40)

end LuaLower.Instruction
