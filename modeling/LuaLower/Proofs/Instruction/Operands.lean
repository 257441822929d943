import LuaLower.Instruction.Basic
import Mathlib.Order.Lattice
import Mathlib.Data.Nat.Bitwise

/-!
# What an instruction names

The registers, constants, upvalues and nested functions that an instruction refers to. An operation
on a range of registers names all of them: a call the function, its arguments and its results, a
store of list items the table and the items.
-/

namespace LuaLower

namespace RK

/-- The register that an operand names, unless it names a constant. -/
def registers (x : Nat) : List Nat := if isConstant x then [] else [x]

/-- The constant that an operand names, unless it names a register. -/
def constants (x : Nat) : List Nat := if isConstant x then [index x] else []

theorem isConstant_constant (k : Nat) : isConstant (constant k) = true := by
  have h : Nat.testBit 256 8 = true := by decide
  simp [isConstant, constant, Nat.testBit_or, h]

theorem not_isConstant {r : Nat} (h : r < 256) : isConstant r = false :=
  Nat.testBit_lt_two_pow h

theorem constant_eq_add {k : Nat} (h : k ≤ maxIndex) : constant k = k + 256 := by
  have hk : k < 2 ^ 8 := by
    rw [maxIndex] at h
    omega
  have h := Nat.two_pow_add_eq_or_of_lt hk 1
  rw [constant, Nat.lor_comm, Nat.add_comm]
  simpa using h.symm

theorem index_constant {k : Nat} (h : k ≤ maxIndex) : index (constant k) = k := by
  rw [index, if_pos (isConstant_constant k), constant_eq_add h, Nat.add_sub_cancel]

/-- An operand that names a constant is given back by the index of the constant. -/
theorem constant_index {x : Nat} (hx : x < 2 ^ 9) (h : isConstant x = true) :
    constant (index x) = x := by
  have hle : 256 ≤ x := Nat.ge_two_pow_of_testBit h
  have hindex : index x = x - 256 := if_pos h
  rw [hindex, constant_eq_add (by rw [maxIndex]; omega)]
  omega

@[simp] theorem registers_constant (k : Nat) : registers (constant k) = [] := by
  simp [registers, isConstant_constant]

theorem constants_constant {k : Nat} (h : k ≤ maxIndex) : constants (constant k) = [k] := by
  simp [constants, isConstant_constant, index_constant h]

theorem registers_register {r : Nat} (h : r < 256) : registers r = [r] := by
  simp [registers, not_isConstant h]

theorem constants_register {r : Nat} (h : r < 256) : constants r = [] := by
  simp [constants, not_isConstant h]

end RK

namespace Instruction

open List (range')

/-- The registers that an instruction reads or writes. -/
def registers : Instruction → List Nat
  | .abc op a b c =>
    match op with
    | .move | .unm | .bnot | .not | .len | .testSet => [a, b]
    | .loadBool | .getUpval | .setUpval | .newTable | .test => [a]
    | .loadNil | .setList => range' a (b + 1)
    | .getTabUp => a :: RK.registers c
    | .getTable => a :: b :: RK.registers c
    | .setTabUp => RK.registers b ++ RK.registers c
    | .setTable => a :: (RK.registers b ++ RK.registers c)
    | .self => a :: (a + 1) :: b :: RK.registers c
    | .add | .sub | .mul | .mod | .pow | .div | .idiv
    | .band | .bor | .bxor | .shl | .shr => a :: (RK.registers b ++ RK.registers c)
    | .eq | .lt | .le => RK.registers b ++ RK.registers c
    | .concat => a :: range' b (c + 1 - b)
    -- The function and its arguments, then the results in their place.
    | .call => a :: (range' a b ++ range' a (c - 1))
    | .tailCall => a :: range' a b
    | .ret | .vararg => range' a (b - 1)
    | .tforCall => range' a (c + 3)
    | _ => []
  | .abx op a _ =>
    match op with
    | .loadK | .loadKX | .closure => [a]
    | _ => []
  | .asbx op a _ =>
    match op with
    -- Above zero the field tells which upvalues to close: those from the register below it on.
    | .jmp => if a = 0 then [] else [a - 1]
    | .forLoop | .forPrep => range' a 4
    | .tforLoop => [a, a + 1]
    | _ => []
  | .ax .. => []

/-- The constants that an instruction names: operands with bit 8 set, and whole indices. -/
def constants : Instruction → List Nat
  | .abc op _ b c =>
    match op with
    | .getTabUp | .getTable | .self => RK.constants c
    | .setTabUp | .setTable
    | .add | .sub | .mul | .mod | .pow | .div | .idiv
    | .band | .bor | .bxor | .shl | .shr
    | .eq | .lt | .le => RK.constants b ++ RK.constants c
    | _ => []
  | .abx op _ bx => if op = .loadK then [bx] else []
  | .asbx .. => []
  | .ax op operand => if op = .extraArg then [operand] else []

def upvalues : Instruction → List Nat
  | .abc op a b _ =>
    match op with
    | .getUpval | .setUpval | .getTabUp => [b]
    | .setTabUp => [a]
    | _ => []
  | _ => []

/-- The nested function that an instruction makes a closure of. -/
def closures : Instruction → List Nat
  | .abx op _ bx => if op = .closure then [bx] else []
  | _ => []

/-- One above the highest register that a piece of code names. -/
def frame (code : List Instruction) : Nat :=
  (code.flatMap registers).foldr (fun r m ↦ max (r + 1) m) 0

theorem foldr_max_append (rs ts : List Nat) :
    (rs ++ ts).foldr (fun r m ↦ max (r + 1) m) 0 =
      max (rs.foldr (fun r m ↦ max (r + 1) m) 0) (ts.foldr (fun r m ↦ max (r + 1) m) 0) := by
  induction rs with
  | nil => simp
  | cons r rs ih => rw [List.cons_append, List.foldr_cons, List.foldr_cons, ih, max_assoc]

theorem frame_append (is js : List Instruction) :
    frame (is ++ js) = max (frame is) (frame js) := by
  rw [frame, List.flatMap_append, foldr_max_append]
  rfl

theorem frame_le_iff {code : List Instruction} {m : Nat} :
    frame code ≤ m ↔ ∀ i ∈ code, ∀ r ∈ i.registers, r < m := by
  have hfold (rs : List Nat) :
      rs.foldr (fun r m ↦ max (r + 1) m) 0 ≤ m ↔ ∀ r ∈ rs, r < m := by
    induction rs with
    | nil => simp
    | cons r rs ih =>
      rw [List.foldr_cons, Nat.max_le, ih, List.forall_mem_cons, Nat.succ_le_iff]
  rw [frame, hfold]
  simp only [List.mem_flatMap, forall_exists_index, and_imp]
  exact ⟨fun h i hi r hr ↦ h r i hi hr, fun h r i hi hr ↦ h i hi r hr⟩

theorem lt_frame {code : List Instruction} {i : Instruction} {r : Nat} (hi : i ∈ code)
    (hr : r ∈ i.registers) : r < frame code :=
  frame_le_iff.mp (le_refl _) i hi r hr

end Instruction

end LuaLower
