import Mathlib.Algebra.Group.Nat.Defs
import Mathlib.Order.WellFounded

/-!
# Numbers with an exponent

Size bytes and doubles write a magnitude in one way, with an exponent above a mantissa of `k` bits.
The exponent zero leaves the mantissa alone; any other adds a bit at its top and scales it. So what
is written is in the order of what it stands for.
-/

namespace LuaLower

/-- What `y` stands for, with a mantissa in its low `k` bits and an exponent in those above. -/
def scaledMantissa (k y : Nat) : Nat :=
  if y < 2 ^ k then y else (y % 2 ^ k + 2 ^ k) <<< (y / 2 ^ k - 1)

namespace scaledMantissa

variable {k y : Nat}

/-- With the exponents zero and one, numbers stand for themselves. -/
theorem of_lt (hy : y < 2 * 2 ^ k) : scaledMantissa k y = y := by
  unfold scaledMantissa
  split
  · rfl
  case isFalse hk =>
    have hquotient : y / 2 ^ k = 1 := Nat.div_eq_of_lt_le (by omega) (by omega)
    have hsplit := Nat.div_add_mod y (2 ^ k)
    rw [hquotient] at hsplit ⊢
    rw [Nat.sub_self, Nat.shiftLeft_zero]
    omega

/-- The next exponent makes numbers twice as large. -/
theorem add_exponent (e : Nat) (hy : 2 ^ k ≤ y) :
    scaledMantissa k (y + 2 ^ k * e) = scaledMantissa k y * 2 ^ e := by
  have hpos := Nat.two_pow_pos k
  have hquotient : 0 < y / 2 ^ k := Nat.div_pos hy hpos
  unfold scaledMantissa
  rw [if_neg (by omega), if_neg (by omega), Nat.add_mul_mod_self_left,
    Nat.add_mul_div_left _ _ hpos, Nat.shiftLeft_eq, Nat.shiftLeft_eq, Nat.mul_assoc,
    ← Nat.pow_add]
  congr 2
  omega

theorem lt_succ (k y : Nat) : scaledMantissa k y < scaledMantissa k (y + 1) := by
  have hpos := Nat.two_pow_pos k
  by_cases hy : y + 1 < 2 * 2 ^ k
  · rw [of_lt (by omega), of_lt hy]
    omega
  · -- Take exponents off until the mantissa is all there is.
    obtain ⟨m, hle, hlt, e, rfl⟩ : ∃ m, 2 ^ k ≤ m ∧ m < 2 * 2 ^ k ∧ ∃ e, y = m + 2 ^ k * e := by
      have hquotient : 0 < y / 2 ^ k := Nat.div_pos (by omega) hpos
      have hsplit := Nat.div_add_mod y (2 ^ k)
      obtain ⟨e, he⟩ : ∃ e, y / 2 ^ k = e + 1 := ⟨y / 2 ^ k - 1, by omega⟩
      rw [he, Nat.mul_add, Nat.mul_one] at hsplit
      have hrest := Nat.mod_lt y hpos
      exact ⟨2 ^ k + y % 2 ^ k, by omega, by omega, e, by omega⟩
    rw [Nat.add_right_comm, add_exponent e hle, add_exponent e (by omega)]
    apply Nat.mul_lt_mul_of_pos_right _ (Nat.two_pow_pos e)
    rw [of_lt hlt]
    by_cases hnext : m + 1 < 2 * 2 ^ k
    · rw [of_lt hnext]
      omega
    · -- The mantissa overflows into the exponent.
      have hcarry : m + 1 = 2 ^ k + 2 ^ k * 1 := by omega
      rw [hcarry, add_exponent 1 (le_refl _), of_lt (by omega)]
      omega

theorem strictMono (k : Nat) : StrictMono (scaledMantissa k) :=
  strictMono_nat_of_lt_succ (lt_succ k)

end scaledMantissa

end LuaLower
