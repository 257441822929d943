import LuaLower.Instruction.Encoding
import Mathlib.Algebra.Group.Nat.Defs

/-!
# Words and instructions

A word that an instruction was packed into is unpacked to that instruction: the fields of a layout
do not overlap, and they fill the bits above the opcode.
-/

namespace LuaLower.Instruction

variable {op : Opcode} {i : Instruction} {word : UInt32}

theorem checkField_eq_ok {field : Field} {value : Nat} (h : checkField op field value = .ok ()) :
    value ≤ field.limit := by
  by_cases hlimit : value ≤ field.limit
  · exact hlimit
  · rw [checkField, if_neg hlimit] at h
    cases h

theorem checkOffset_eq_ok {sbx : Int} (h : checkOffset op sbx = .ok ()) :
    -131071 ≤ sbx ∧ sbx ≤ 131071 := by
  by_cases hlimit : -(maxOffset : Int) ≤ sbx ∧ sbx ≤ maxOffset
  · exact hlimit
  · rw [checkOffset, if_neg hlimit] at h
    cases h

/-- The fields of an instruction fit the bits that its layout gives them. -/
def FieldsFit : Instruction → Prop
  | .abc _ a b c => a < 2 ^ 8 ∧ b < 2 ^ 9 ∧ c < 2 ^ 9
  | .abx _ a bx => a < 2 ^ 8 ∧ bx < 2 ^ 18
  | .asbx _ a sbx => a < 2 ^ 8 ∧ -131071 ≤ sbx ∧ sbx ≤ 131071
  | .ax _ operand => operand < 2 ^ 26

theorem except_bind_eq_ok {ε α β : Type} {x : Except ε α} {k : α → Except ε β} {b : β}
    (h : (x >>= k) = .ok b) : ∃ a, x = .ok a ∧ k a = .ok b := by
  cases x with
  | ok a => exact ⟨a, rfl, h⟩
  | error e => cases h

theorem fieldsFit_of_check (h : i.checkFields = .ok ()) : i.FieldsFit := by
  cases i with
  | abc op a b c =>
    obtain ⟨_, ha, h⟩ := except_bind_eq_ok h
    obtain ⟨_, hb, hc⟩ := except_bind_eq_ok h
    have ha := checkField_eq_ok ha
    have hb := checkField_eq_ok hb
    have hc := checkField_eq_ok hc
    simp only [Field.limit] at ha hb hc
    exact ⟨by omega, by omega, by omega⟩
  | abx op a bx =>
    obtain ⟨_, ha, hbx⟩ := except_bind_eq_ok h
    have ha := checkField_eq_ok ha
    have hbx := checkField_eq_ok hbx
    simp only [Field.limit] at ha hbx
    exact ⟨by omega, by omega⟩
  | asbx op a sbx =>
    obtain ⟨_, ha, hsbx⟩ := except_bind_eq_ok h
    have ha := checkField_eq_ok ha
    simp only [Field.limit] at ha
    exact ⟨by omega, checkOffset_eq_ok hsbx⟩
  | ax op operand =>
    have hlimit := checkField_eq_ok h
    simp only [Field.limit] at hlimit
    exact Nat.lt_of_le_pred (by decide) hlimit

theorem encode_eq_ok (h : i.encode = .ok word) :
    i.family = i.opcode.family ∧ i.FieldsFit ∧ word = UInt32.ofNat i.pack := by
  by_cases hfamily : i.family = i.opcode.family
  · rw [encode, if_pos hfamily] at h
    obtain ⟨_, hcheck, hword⟩ := except_bind_eq_ok h
    cases hword
    exact ⟨hfamily, fieldsFit_of_check hcheck, rfl⟩
  · rw [encode, if_neg hfamily] at h
    cases h

theorem checkField_of_le {field : Field} {value : Nat} (h : value ≤ field.limit) :
    checkField op field value = .ok () :=
  if_pos h

theorem check_of_fieldsFit (hfits : i.FieldsFit) : i.checkFields = .ok () := by
  cases i with
  | abc op a b c =>
    obtain ⟨ha, hb, hc⟩ := hfits
    rw [checkFields, checkField_of_le (Nat.le_pred_of_lt ha),
      checkField_of_le (Nat.le_pred_of_lt hb), checkField_of_le (Nat.le_pred_of_lt hc)]
    rfl
  | abx op a bx =>
    obtain ⟨ha, hbx⟩ := hfits
    rw [checkFields, checkField_of_le (Nat.le_pred_of_lt ha),
      checkField_of_le (Nat.le_pred_of_lt hbx)]
    rfl
  | asbx op a sbx =>
    obtain ⟨ha, hsbx⟩ := hfits
    rw [checkFields, checkField_of_le (Nat.le_pred_of_lt ha)]
    exact if_pos hsbx
  | ax op operand => exact checkField_of_le (Nat.le_pred_of_lt hfits)

theorem encode_of_fieldsFit (hfamily : i.family = i.opcode.family) (hfits : i.FieldsFit) :
    i.encode = .ok (UInt32.ofNat i.pack) := by
  rw [encode, if_pos hfamily, check_of_fieldsFit hfits]
  rfl

theorem pack_lt (hfits : i.FieldsFit) : i.pack < 2 ^ 32 := by
  cases i with
  | abc op a b c =>
    have hop := op.number_lt
    obtain ⟨ha, hb, hc⟩ := hfits
    rw [pack]
    omega
  | abx op a bx =>
    have hop := op.number_lt
    obtain ⟨ha, hbx⟩ := hfits
    rw [pack]
    omega
  | asbx op a sbx =>
    have hop := op.number_lt
    obtain ⟨ha, hlow, hhigh⟩ := hfits
    rw [pack, maxOffset]
    omega
  | ax op operand =>
    have hop := op.number_lt
    have hfits : operand < 2 ^ 26 := hfits
    rw [pack]
    omega

theorem pack_mod (i : Instruction) : i.pack % 0x40 = i.opcode.number := by
  cases i with
  | abc op a b c =>
    have hop := op.number_lt
    rw [pack, opcode]
    omega
  | abx op a bx =>
    have hop := op.number_lt
    rw [pack, opcode]
    omega
  | asbx op a sbx =>
    have hop := op.number_lt
    rw [pack, opcode]
    omega
  | ax op operand =>
    have hop := op.number_lt
    rw [pack, opcode]
    omega

theorem decode?_encode (h : i.encode = .ok word) : decode? word = some i := by
  obtain ⟨hfamily, hfits, rfl⟩ := encode_eq_ok h
  have hword : (UInt32.ofNat i.pack).toNat = i.pack :=
    UInt32.toNat_ofNat_of_lt (pack_lt hfits)
  simp only [decode?, hword, pack_mod, Opcode.ofNumber?_number, Option.map_some]
  rw [← hfamily]
  congr 1
  cases i with
  | abc op a b c =>
    have hop := op.number_lt
    obtain ⟨ha, hb, hc⟩ := hfits
    simp only [family, pack, opcode, abc.injEq, true_and]
    omega
  | abx op a bx =>
    have hop := op.number_lt
    obtain ⟨ha, hbx⟩ := hfits
    simp only [family, pack, opcode, abx.injEq, true_and]
    omega
  | asbx op a sbx =>
    have hop := op.number_lt
    obtain ⟨ha, hlow, hhigh⟩ := hfits
    simp only [family, pack, opcode, asbx.injEq, true_and, maxOffset]
    omega
  | ax op operand =>
    have hop := op.number_lt
    have hfits : operand < 2 ^ 26 := hfits
    simp only [family, pack, opcode, ax.injEq, true_and]
    omega

end LuaLower.Instruction
