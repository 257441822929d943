import LuaLower.Proofs.Instruction.Packing

/-!
# The bit fields of instruction words

A word has an instruction at fixed positions of its bits, and which fields these are is for the
opcode in the lowest six to say. Packing puts every field in its place, and a word is unpacked and
packed again without a change; the one exception is an offset that no instruction can have.
-/

namespace LuaLower.Instruction

variable {i : Instruction} {op : Opcode} {word : UInt32}

/-- The number in the `width` bits of a word from position `low` on. -/
def bits (word : UInt32) (low width : Nat) : Nat := (word.toBitVec.extractLsb' low width).toNat

/-- The fields of a word for a given opcode: `A` at 6–13, `C` at 14–22, `B` at 23–31, `Bx` at 14–31
and `Ax` at 6–31. -/
def unpacked (word : UInt32) (op : Opcode) : Instruction :=
  match op.family with
  | .abc => .abc op (bits word 6 8) (bits word 23 9) (bits word 14 9)
  | .abx => .abx op (bits word 6 8) (bits word 14 18)
  | .asbx => .asbx op (bits word 6 8) (bits word 14 18 - 131071)
  | .ax => .ax op (bits word 6 26)

/-- The instruction of a word, read off its bits. The opcode is at 0–5. -/
def atBits? (word : UInt32) : Option Instruction :=
  (Opcode.ofNumber? (bits word 0 6)).map (unpacked word)

/-! ## Bits as numbers -/

theorem bits_eq (word : UInt32) (low width : Nat) :
    bits word low width = word.toNat / 2 ^ low % 2 ^ width := by
  rw [bits, BitVec.extractLsb'_toNat, UInt32.toNat_toBitVec, Nat.shiftRight_eq_div_pow]

theorem bits_lt (word : UInt32) (low width : Nat) : bits word low width < 2 ^ width :=
  BitVec.isLt _

/-- A field that reaches the top of the word has nothing above it to cut off. -/
theorem bits_top (word : UInt32) {low width : Nat} (h : low + width = 32) :
    bits word low width = word.toNat / 2 ^ low := by
  rw [bits_eq]
  apply Nat.mod_eq_of_lt
  apply Nat.div_lt_of_lt_mul
  rw [← Nat.pow_add, h]
  exact word.toNat_lt

/-- Reading the bits is what the decoder of words does. -/
theorem decode?_eq_atBits? (word : UInt32) : decode? word = atBits? word := by
  have hop : bits word 0 6 = word.toNat % 0x40 := by
    rw [bits_eq, Nat.pow_zero, Nat.div_one]
    rfl
  have ha : bits word 6 8 = word.toNat / 0x40 % 0x100 := bits_eq word 6 8
  have hc : bits word 14 9 = word.toNat / 0x4000 % 0x200 := bits_eq word 14 9
  have hb : bits word 23 9 = word.toNat / 0x800000 := bits_top word rfl
  have hbx : bits word 14 18 = word.toNat / 0x4000 := bits_top word rfl
  have hax : bits word 6 26 = word.toNat / 0x40 := bits_top word rfl
  unfold decode? atBits? unpacked
  rw [hop, ha, hc, hb, hbx, hax]
  rfl

/-! ## Packing what was unpacked -/

theorem opcode_unpacked (word : UInt32) (op : Opcode) : (unpacked word op).opcode = op := by
  rw [unpacked]
  split <;> rfl

theorem family_unpacked (word : UInt32) (op : Opcode) : (unpacked word op).family = op.family := by
  rw [unpacked]
  split <;> (rename_i h; exact h.symm)

/-- Eighteen bits hold one number more than there are offsets. -/
theorem fieldsFit_unpacked (h : op.family = .asbx → bits word 14 18 ≠ 262143) :
    (unpacked word op).FieldsFit := by
  have ha : bits word 6 8 < 2 ^ 8 := bits_lt word 6 8
  have hbx : bits word 14 18 < 2 ^ 18 := bits_lt word 14 18
  rw [unpacked]
  split
  case h_1 => exact ⟨ha, bits_lt word 23 9, bits_lt word 14 9⟩
  case h_2 => exact ⟨ha, hbx⟩
  case h_3 hfamily =>
    have hne := h hfamily
    constructor
    · exact ha
    · omega
  case h_4 => exact bits_lt word 6 26

theorem number_of_ofNumber? {n : Nat} (h : Opcode.ofNumber? n = some op) : op.number = n := by
  have hn : n < 47 := (List.getElem?_eq_some_iff.mp h).1
  have hall : ∀ n < 47, (Opcode.ofNumber? n).map Opcode.number = some n := by decide
  simpa [h] using hall n hn

theorem pack_unpacked (h : op.number = bits word 0 6) : (unpacked word op).pack = word.toNat := by
  have hop := bits_eq word 0 6
  have ha := bits_eq word 6 8
  have hc := bits_eq word 14 9
  have hb : bits word 23 9 = word.toNat / 2 ^ 23 := bits_top word rfl
  have hbx : bits word 14 18 = word.toNat / 2 ^ 14 := bits_top word rfl
  have hax : bits word 6 26 = word.toNat / 2 ^ 6 := bits_top word rfl
  rw [unpacked]
  split
  case h_1 =>
    rw [pack]
    omega
  case h_2 =>
    rw [pack]
    omega
  case h_3 =>
    rw [pack, maxOffset]
    omega
  case h_4 =>
    rw [pack]
    omega

theorem encode_unpacked (hop : Opcode.ofNumber? (bits word 0 6) = some op)
    (h : op.family = .asbx → bits word 14 18 ≠ 262143) : (unpacked word op).encode = .ok word := by
  have hfamily : (unpacked word op).family = (unpacked word op).opcode.family := by
    rw [family_unpacked, opcode_unpacked]
  rw [encode_of_fieldsFit hfamily (fieldsFit_unpacked h), pack_unpacked (number_of_ofNumber? hop),
    UInt32.ofNat_toNat]

theorem exists_encode_iff :
    (∃ word, i.encode = .ok word) ↔ i.family = i.opcode.family ∧ i.FieldsFit := by
  constructor
  · rintro ⟨word, h⟩
    obtain ⟨hfamily, hfits, -⟩ := encode_eq_ok h
    exact ⟨hfamily, hfits⟩
  · rintro ⟨hfamily, hfits⟩
    exact ⟨_, encode_of_fieldsFit hfamily hfits⟩

end Instruction

open Instruction

/-- An instruction can be packed exactly if it is in the layout of its opcode and its fields fit.
Its word determines it, and but for one offset every word comes from what it stands for. -/
theorem instruction_words_exact :
    (∀ i : Instruction,
      (∃ word, i.encode = .ok word) ↔ i.family = i.opcode.family ∧ i.FieldsFit) ∧
    (∀ (i : Instruction) (word : UInt32), i.encode = .ok word → atBits? word = some i) ∧
    (∀ (word : UInt32) (op : Opcode), Opcode.ofNumber? (bits word 0 6) = some op →
      (op.family = .asbx → bits word 14 18 ≠ 262143) →
      ∃ i, atBits? word = some i ∧ i.encode = .ok word) ∧
    ∀ (i j : Instruction) (word : UInt32), i.encode = .ok word → j.encode = .ok word → i = j := by
  have hread (i : Instruction) (word : UInt32) (h : i.encode = .ok word) :
      atBits? word = some i := by
    rw [← decode?_eq_atBits?]
    exact decode?_encode h
  refine ⟨fun i ↦ exists_encode_iff, hread, ?_, ?_⟩
  · intro word op hop hoffset
    refine ⟨unpacked word op, ?_, encode_unpacked hop hoffset⟩
    rw [atBits?, hop]
    rfl
  · intro i j word hi hj
    apply Option.some.inj
    exact (hread i word hi).symm.trans (hread j word hj)

/-- The longest jump backwards, and a word in which all fields but the opcode, which is that of an
addition, are full. -/
theorem instruction_words_exact_boundary :
    atBits? 0x3FDE = some (.asbx .jmp 255 (-131071)) ∧
      (∃ i, atBits? 0xFFFFFFCD = some i ∧ i.encode = .ok 0xFFFFFFCD) ∧
      atBits? 0xFFFFFFCD = some (.abc .add 255 511 511) := by
  obtain ⟨-, hread, hpacked, -⟩ := instruction_words_exact
  refine ⟨hread _ _ rfl, hpacked 0xFFFFFFCD .add ?_ ?_, hread _ _ rfl⟩
  · decide
  · decide

end LuaLower
