import LuaLower.Proofs.ExponentForm
import LuaLower.Proofs.Pool
import Mathlib.Algebra.Order.Field.Power
import Mathlib.Algebra.Order.Ring.Rat
import Mathlib.Tactic.FieldSimp
import Mathlib.Tactic.Positivity
import Mathlib.Tactic.Ring

/-!
# Number literals

A finite double stands for a rational number, and its bits below the sign are an exponent form of
the magnitude, counted in units of `2 ^ -1074`. So comparing bits compares numbers, and a number
literal becomes an integer constant exactly if its value is an integer of 64 bits and it is not the
negative zero. No two literals become the same constant, since the zeros are the only doubles that
stand for the same number.
-/

namespace LuaLower

namespace Binary64

variable {x y : Binary64} {i : ℤ}

/-- The number that a finite double stands for. -/
def value (x : Binary64) : ℚ :=
  (if x.isNegative then -1 else 1) *
    if x.exponentField = 0 then (x.fraction : ℚ) / 2 ^ 52 * 2 ^ (-1022 : ℤ)
    else (1 + (x.fraction : ℚ) / 2 ^ 52) * 2 ^ ((x.exponentField : ℤ) - 1023)

/-! ## Bits -/

/-- The bits below the sign. -/
def unsignedBits (x : Binary64) : Nat := x.bits.toNat % 2 ^ 63

theorem eq_iff_toNat : x = y ↔ x.bits.toNat = y.bits.toNat := by
  rw [UInt64.toNat_inj]
  exact ⟨congrArg bits, congrArg mk⟩

theorem isNegative_iff : x.isNegative = true ↔ 2 ^ 63 ≤ x.bits.toNat := by
  simp [isNegative]

theorem rank_eq (x : Binary64) :
    x.rank =
      if 2 ^ 63 ≤ x.bits.toNat then (2 : ℤ) ^ 63 - x.bits.toNat else (x.bits.toNat : ℤ) := by
  have hsign : ((1 <<< 63 : ℕ) : ℤ) = 2 ^ 63 := rfl
  simp only [rank, isNegative_iff, hsign]

theorem eq_negZero_iff : x = negZero ↔ x.rank = 0 ∧ x.isNegative = true := by
  have hzero : negZero.bits.toNat = 2 ^ 63 := rfl
  rw [eq_iff_toNat, hzero, isNegative_iff, rank_eq]
  split <;> omega

/-- The zeros are the only doubles that share their rank. -/
theorem eq_of_rank_eq (hx : x ≠ negZero) (hy : y ≠ negZero) (h : x.rank = y.rank) : x = y := by
  rw [Ne, eq_negZero_iff, isNegative_iff] at hx hy
  rw [eq_iff_toNat]
  rw [rank_eq] at hx hy h
  rw [rank_eq y] at h
  split at h <;> split at h <;> omega

theorem unsignedBits_eq (x : Binary64) :
    x.unsignedBits = x.fraction + 2 ^ 52 * x.exponentField := by
  have h := x.bits.toNat_lt
  simp only [unsignedBits, fraction, exponentField, Nat.shiftLeft_eq]
  omega

/-- The magnitude in units of `2 ^ -1074`. -/
def units (x : Binary64) : Nat := x.significand <<< x.scale

theorem units_eq_scaledMantissa (x : Binary64) : x.units = scaledMantissa 52 x.unsignedBits := by
  have hfraction : x.fraction < 2 ^ 52 := Nat.mod_lt _ (Nat.two_pow_pos 52)
  rw [units, significand, scale, scaledMantissa, unsignedBits_eq]
  by_cases hexponent : x.exponentField = 0
  · rw [if_pos hexponent, if_pos (by omega), hexponent]
    rfl
  · rw [if_neg hexponent, if_neg (by omega), Nat.add_mul_mod_self_left, Nat.mod_eq_of_lt hfraction,
      Nat.add_mul_div_left _ _ (Nat.two_pow_pos 52), Nat.div_eq_of_lt hfraction, Nat.zero_add,
      Nat.shiftLeft_eq 1 52, Nat.one_mul]

/-- A magnitude with the sign of `x`. -/
def signed (x : Binary64) (n : Nat) : ℤ := if x.isNegative then -(n : ℤ) else n

theorem rank_eq_signed (x : Binary64) : x.rank = x.signed x.unsignedBits := by
  have hlt := x.bits.toNat_lt
  simp only [rank_eq, signed, isNegative_iff, unsignedBits]
  split <;> omega

/-! ## Values -/

theorem value_eq (x : Binary64) : x.value = x.signed x.units / 2 ^ 1074 := by
  have hunits : (x.units : ℚ) / 2 ^ 1074 = if x.exponentField = 0
      then (x.fraction : ℚ) / 2 ^ 52 * 2 ^ (-1022 : ℤ)
      else (1 + (x.fraction : ℚ) / 2 ^ 52) * 2 ^ ((x.exponentField : ℤ) - 1023) := by
    have hpow : (2 : ℚ) ^ 1074 = 2 ^ 52 * 2 ^ 1022 := by rw [← pow_add]
    rw [units, significand, scale, Nat.shiftLeft_eq, hpow]
    cases hexponent : x.exponentField with
    | zero =>
      rw [if_pos rfl, if_pos rfl, zpow_neg, zpow_ofNat, Nat.zero_sub, Nat.pow_zero, Nat.mul_one,
        ← div_div, div_eq_mul_inv]
    | succ e =>
      have hexp : ((e + 1 : ℕ) : ℤ) - 1023 = (e : ℤ) - 1022 := by omega
      rw [if_neg (Nat.succ_ne_zero e), if_neg (Nat.succ_ne_zero e), hexp, zpow_sub₀ two_ne_zero,
        zpow_natCast, zpow_ofNat, Nat.add_sub_cancel, Nat.shiftLeft_eq, Nat.one_mul]
      push_cast
      field_simp
      ring
  rw [value, ← hunits, signed]
  split
  · rw [Int.cast_neg, Int.cast_natCast, neg_div, neg_one_mul]
  · rw [Int.cast_natCast, one_mul]

/-! ## Order -/

/-- A strictly increasing function of the magnitude keeps the order of all numbers. -/
theorem signed_lt_signed_iff {φ : Nat → Nat} (hφ : StrictMono φ) (hzero : φ 0 = 0) (m n : Nat) :
    x.signed (φ m) < y.signed (φ n) ↔ x.signed m < y.signed n := by
  have hmn := hφ.lt_iff_lt (a := m) (b := n)
  have hnm := hφ.lt_iff_lt (a := n) (b := m)
  have hm := hφ.lt_iff_lt (a := 0) (b := m)
  have hn := hφ.lt_iff_lt (a := 0) (b := n)
  rw [hzero] at hm hn
  unfold signed
  split <;> split <;> omega

theorem value_lt_iff : x.value < y.value ↔ x.rank < y.rank := by
  have hpos : (0 : ℚ) < 2 ^ 1074 := pow_pos two_pos 1074
  rw [value_eq, value_eq, div_lt_div_iff_of_pos_right hpos, Int.cast_lt, rank_eq_signed,
    rank_eq_signed, units_eq_scaledMantissa, units_eq_scaledMantissa]
  exact signed_lt_signed_iff (scaledMantissa.strictMono 52) rfl _ _

theorem value_le_iff : x.value ≤ y.value ↔ x.rank ≤ y.rank := by
  rw [← not_lt, ← not_lt, value_lt_iff]

/-! ## Integers -/

/-- Shifting by the scale less a number of places is shifting first and dividing then. -/
theorem shift_eq_div (n scale places : Nat) :
    (if places ≤ scale then n <<< (scale - places) else n >>> (places - scale)) =
      (n <<< scale) / 2 ^ places := by
  rw [Nat.shiftLeft_eq, Nat.shiftLeft_eq, Nat.shiftRight_eq_div_pow]
  split
  case isTrue h =>
    obtain ⟨d, rfl⟩ := Nat.exists_eq_add_of_le h
    rw [Nat.add_sub_cancel_left, Nat.pow_add, Nat.mul_left_comm,
      Nat.mul_div_cancel_left _ (Nat.two_pow_pos places)]
  case isFalse h =>
    obtain ⟨d, rfl⟩ := Nat.exists_eq_add_of_le (Nat.le_of_not_le h)
    rw [Nat.add_sub_cancel_left, Nat.pow_add, Nat.mul_comm (2 ^ scale),
      Nat.mul_div_mul_right _ _ (Nat.two_pow_pos scale)]

theorem dvd_shift_iff (n scale places : Nat) :
    2 ^ places ∣ n <<< scale ↔ places ≤ scale ∨ n % (1 <<< (places - scale)) = 0 := by
  rw [Nat.shiftLeft_eq, Nat.shiftLeft_eq, Nat.one_mul, ← Nat.dvd_iff_mod_eq_zero]
  by_cases h : places ≤ scale
  · obtain ⟨d, rfl⟩ := Nat.exists_eq_add_of_le h
    rw [Nat.pow_add, Nat.mul_left_comm]
    exact iff_of_true (Nat.dvd_mul_right _ _) (.inl h)
  · obtain ⟨d, rfl⟩ := Nat.exists_eq_add_of_le (Nat.le_of_not_le h)
    rw [Nat.pow_add, Nat.mul_comm n, Nat.mul_dvd_mul_iff_left (Nat.two_pow_pos scale),
      Nat.add_sub_cancel_left, or_iff_right h]

theorem signed_mul (x : Binary64) (m n : Nat) : x.signed (m * n) = x.signed m * n := by
  unfold signed
  split
  · rw [Nat.cast_mul, neg_mul]
  · rw [Nat.cast_mul]

theorem natAbs_signed (x : Binary64) (n : Nat) : (x.signed n).natAbs = n := by
  unfold signed
  split <;> omega

theorem signed_eq_mul_iff (x : Binary64) (i : ℤ) (n places : Nat) :
    x.signed n = i * (2 ^ places : ℕ) ↔ 2 ^ places ∣ n ∧ x.signed (n / 2 ^ places) = i := by
  have hpos := Nat.two_pow_pos places
  have hcancel (m : Nat) : x.signed (m * 2 ^ places) = i * (2 ^ places : ℕ) ↔ x.signed m = i := by
    rw [signed_mul, Int.mul_eq_mul_right_iff (by omega)]
  constructor
  · intro h
    have hn : n = i.natAbs * 2 ^ places := by
      rw [← natAbs_signed x n, h, Int.natAbs_mul, Int.natAbs_natCast]
    rw [hn, hcancel] at h
    rw [hn, Nat.mul_div_cancel _ hpos]
    exact ⟨Nat.dvd_mul_left _ _, h⟩
  · rintro ⟨⟨m, rfl⟩, h⟩
    rw [Nat.mul_div_cancel_left m hpos] at h
    rw [Nat.mul_comm, hcancel, h]

theorem truncate_eq_signed (x : Binary64) : x.truncate = x.signed (x.units / 2 ^ 1074) := by
  rw [units, ← shift_eq_div]
  rfl

theorem isIntegral_iff : x.isIntegral = true ↔ 2 ^ 1074 ∣ x.units := by
  rw [units, dvd_shift_iff, isIntegral, Bool.or_eq_true, decide_eq_true_eq, beq_iff_eq]

theorem value_eq_intCast_iff : x.value = i ↔ x.isIntegral = true ∧ x.truncate = i := by
  have hpos : (0 : ℚ) < 2 ^ 1074 := pow_pos two_pos 1074
  have hvalue : x.value = i ↔ x.signed x.units = i * (2 ^ 1074 : ℕ) := by
    rw [value_eq, div_eq_iff hpos.ne', ← Int.cast_inj (α := ℚ), Int.cast_mul, Int.cast_natCast,
      Nat.cast_pow, Nat.cast_ofNat]
  rw [hvalue, isIntegral_iff, truncate_eq_signed]
  exact signed_eq_mul_iff x i x.units 1074

/-! ## Integers of 64 bits -/

/-- A double that stands for an integer of 64 bits, other than the zero that has a sign. -/
structure IsInt64 (x : Binary64) (i : ℤ) : Prop where
  isFinite : x.isFinite = true
  ne_negZero : x ≠ negZero
  value_eq : x.value = i
  lower : -2 ^ 63 ≤ i
  upper : i < 2 ^ 63

theorem isNaN_of_isFinite (h : x.isFinite = true) : x.isNaN = false := by
  simp only [isFinite, bne_iff_ne] at h
  simp [isNaN, h]

theorem value_minInt64 : minInt64.value = (-2 ^ 63 : ℤ) :=
  value_eq_intCast_iff.mpr ⟨by decide, by decide⟩

theorem value_maxInt64 : maxInt64.value = (2 ^ 63 : ℤ) :=
  value_eq_intCast_iff.mpr ⟨by decide, by decide⟩

theorem minInt64_le_iff (h : x.isFinite = true) : minInt64.le x = true ↔ -2 ^ 63 ≤ x.value := by
  have hnan : minInt64.isNaN = false := by decide
  rw [le, hnan, isNaN_of_isFinite h, Bool.not_false, Bool.true_and, Bool.true_and,
    decide_eq_true_eq, ← value_le_iff, value_minInt64]
  norm_num

theorem lt_maxInt64_iff (h : x.isFinite = true) : x.lt maxInt64 = true ↔ x.value < 2 ^ 63 := by
  have hnan : maxInt64.isNaN = false := by decide
  rw [lt, hnan, isNaN_of_isFinite h, Bool.not_false, Bool.true_and, Bool.true_and,
    decide_eq_true_eq, ← value_lt_iff, value_maxInt64]
  norm_num

/-- There is at most one such integer. -/
theorem IsInt64.truncate_eq (h : x.IsInt64 i) : x.truncate = i :=
  (value_eq_intCast_iff.mp h.value_eq).2

end Binary64

/-! ## Constants -/

namespace Constant

open Binary64

variable {x y : Binary64}

/-- What is tested of a literal. -/
theorem ofNumber_tests_iff :
    (x.isFinite && x.isIntegral && !(x.rank == 0 && x.isNegative) && minInt64.le x &&
      x.lt maxInt64) = true ↔ x.IsInt64 x.truncate := by
  have hzero : (!(x.rank == 0 && x.isNegative)) = true ↔ x ≠ negZero := by
    rw [Ne, eq_negZero_iff, Bool.not_eq_true', ← Bool.not_eq_true, Bool.and_eq_true, beq_iff_eq]
  simp only [Bool.and_eq_true, hzero]
  constructor
  · rintro ⟨⟨⟨⟨hfinite, hintegral⟩, hne⟩, hlower⟩, hupper⟩
    have hvalue : x.value = x.truncate := value_eq_intCast_iff.mpr ⟨hintegral, rfl⟩
    rw [minInt64_le_iff hfinite, hvalue] at hlower
    rw [lt_maxInt64_iff hfinite, hvalue] at hupper
    exact ⟨hfinite, hne, hvalue, by exact_mod_cast hlower, by exact_mod_cast hupper⟩
  · intro h
    refine ⟨⟨⟨⟨h.isFinite, (value_eq_intCast_iff.mp h.value_eq).1⟩, h.ne_negZero⟩, ?_⟩, ?_⟩
    · rw [minInt64_le_iff h.isFinite, h.value_eq]
      exact_mod_cast h.lower
    · rw [lt_maxInt64_iff h.isFinite, h.value_eq]
      exact_mod_cast h.upper

theorem ofNumber_of_isInt64 (h : x.IsInt64 x.truncate) :
    ofNumber x = .integer (Int64.ofInt x.truncate) :=
  if_pos (ofNumber_tests_iff.mpr h)

theorem ofNumber_of_not_isInt64 (h : ¬ x.IsInt64 x.truncate) : ofNumber x = .float x :=
  if_neg (ofNumber_tests_iff.not.mpr h)

theorem ofNumber_eq_integer_iff {n : Int64} : ofNumber x = .integer n ↔ x.IsInt64 n.toInt := by
  constructor
  · intro h
    by_cases hx : x.IsInt64 x.truncate
    · rw [ofNumber_of_isInt64 hx] at h
      cases h
      rwa [Int64.toInt_ofInt_of_le hx.lower hx.upper]
    · rw [ofNumber_of_not_isInt64 hx] at h
      cases h
  · intro h
    have hx : x.IsInt64 x.truncate := by rwa [h.truncate_eq]
    rw [ofNumber_of_isInt64 hx, h.truncate_eq, Int64.ofInt_toInt]

theorem ofNumber_cases (x : Binary64) : (∃ n, ofNumber x = .integer n) ∨ ofNumber x = .float x := by
  by_cases hx : x.IsInt64 x.truncate
  · exact .inl ⟨_, ofNumber_of_isInt64 hx⟩
  · exact .inr (ofNumber_of_not_isInt64 hx)

theorem ofNumber_injective : Function.Injective ofNumber := by
  intro x y h
  obtain ⟨n, hx⟩ | hx := ofNumber_cases x
  · have hx' := ofNumber_eq_integer_iff.mp hx
    have hy' := ofNumber_eq_integer_iff.mp (h.symm.trans hx)
    have hvalue : x.value = y.value := hx'.value_eq.trans hy'.value_eq.symm
    apply eq_of_rank_eq hx'.ne_negZero hy'.ne_negZero
    exact le_antisymm (value_le_iff.mp hvalue.le) (value_le_iff.mp hvalue.ge)
  · obtain ⟨n, hy⟩ | hy := ofNumber_cases y
    · cases (hx.symm.trans h).trans hy
    · exact Constant.float.inj ((hx.symm.trans h).trans hy)

end Constant

/-- A number literal is the integer constant `i` exactly if it has that value and is not the
negative zero. Any other is a float with the same bits. Different literals get different indices. -/
theorem number_classified (x : Binary64) :
    (∀ i : ℤ, (∃ n : Int64, n.toInt = i ∧ Constant.ofNumber x = .integer n) ↔ x.IsInt64 i) ∧
    (Constant.ofNumber x = .float x ↔ ¬ ∃ i : ℤ, x.IsInt64 i) ∧
    (∀ y, Constant.ofNumber x = .ofNumber y → x.bits = y.bits) ∧
    ∀ (ks : List Constant) (i j : Nat) (y : Binary64), ks[i]? = some (.ofNumber x) →
      ks[j]? = some (.ofNumber y) →
      (({} : Pool).indices ks)[i]? = (({} : Pool).indices ks)[j]? → x.bits = y.bits := by
  have hinteger (i : ℤ) :
      (∃ n : Int64, n.toInt = i ∧ Constant.ofNumber x = .integer n) ↔ x.IsInt64 i := by
    constructor
    · rintro ⟨n, rfl, hn⟩
      exact Constant.ofNumber_eq_integer_iff.mp hn
    · intro h
      have hi := Int64.toInt_ofInt_of_le h.lower h.upper
      refine ⟨Int64.ofInt i, hi, Constant.ofNumber_eq_integer_iff.mpr ?_⟩
      rwa [hi]
  have hbits (y : Binary64) (h : Constant.ofNumber x = .ofNumber y) : x.bits = y.bits :=
    congrArg Binary64.bits (Constant.ofNumber_injective h)
  refine ⟨hinteger, ?_, hbits, fun ks i j y hi hj hindex ↦ hbits y ?_⟩
  · constructor
    · rintro h ⟨i, hi⟩
      obtain ⟨n, -, hn⟩ := (hinteger i).mpr hi
      cases h.symm.trans hn
    · intro h
      apply (Constant.ofNumber_cases x).resolve_left
      rintro ⟨n, hn⟩
      exact h ⟨n.toInt, Constant.ofNumber_eq_integer_iff.mp hn⟩
  · obtain ⟨hilt, -⟩ := List.getElem?_eq_some_iff.mp hi
    obtain ⟨hjlt, -⟩ := List.getElem?_eq_some_iff.mp hj
    rw [Pool.getElem?_indices_eq_iff hilt hjlt, hi, hj] at hindex
    exact Option.some.inj hindex

/-- The least integer of 64 bits is one of the literals, and the greatest is not: the power of two
above it stays a float. -/
theorem number_classified_bounds :
    Constant.ofNumber .minInt64 = .integer Int64.minValue ∧ Binary64.minInt64.IsInt64 (-2 ^ 63) ∧
    Constant.ofNumber .maxInt64 = .float .maxInt64 ∧ (¬ ∃ i : ℤ, Binary64.maxInt64.IsInt64 i) ∧
    (({} : Pool).indices [.ofNumber .maxInt64, .string "x", .ofNumber ⟨0x43E0000000000000⟩])[0]? =
      (({} : Pool).indices [.ofNumber .maxInt64, .string "x", .ofNumber ⟨0x43E0000000000000⟩])[2]? ∧
    Binary64.maxInt64.bits = 0x43E0000000000000 := by
  have hmin : Constant.ofNumber .minInt64 = .integer Int64.minValue := by decide
  have hmax : Constant.ofNumber .maxInt64 = .float .maxInt64 := by decide
  have hindex : (({} : Pool).indices
      [.ofNumber .maxInt64, .string "x", .ofNumber ⟨0x43E0000000000000⟩])[0]? =
      (({} : Pool).indices
        [.ofNumber .maxInt64, .string "x", .ofNumber ⟨0x43E0000000000000⟩])[2]? := by
    decide +kernel
  obtain ⟨hinteger, -⟩ := number_classified .minInt64
  obtain ⟨-, hfloat, -, hslots⟩ := number_classified .maxInt64
  exact ⟨hmin, (hinteger (-2 ^ 63)).mp ⟨_, by decide, hmin⟩, hmax, hfloat.mp hmax, hindex,
    hslots _ 0 2 _ rfl rfl hindex⟩

end LuaLower
