import LuaLower.Proofs.ExponentForm
import LuaLower.SizeByte
import Mathlib.Order.Bounds.Basic

/-!
# Rounding up to a size byte

However the halvings are grouped, and although each of them rounds, the byte of a size is the least
one that stands for at least that size. In the language of orders, encoding is the lower adjoint of
decoding: `encode x ≤ y` means the same as `x ≤ decode y`. That sizes are rounded up to the nearest
one that a byte stands for, in order and without a change to those, follows from it alone.
-/

namespace LuaLower.SizeByte

variable {stride x y m e : Nat}

/-! ## Decoding -/

theorem decode_of_lt (hy : y < 16) : decode y = y := scaledMantissa.of_lt (k := 3) hy

theorem decode_add (e : Nat) (hy : 8 ≤ y) : decode (y + 8 * e) = decode y * 2 ^ e :=
  scaledMantissa.add_exponent (k := 3) e hy

theorem decode_strictMono : StrictMono decode := scaledMantissa.strictMono 3

theorem le_decode (y : Nat) : y ≤ decode y := decode_strictMono.le_apply

/-! ## Halving -/

/-- `m` is what is left of `x` after `e` halvings that round up, and one halving less would have
left more than fifteen. -/
structure Scaled (x m e : Nat) : Prop where
  le_iff : ∀ d, m ≤ d ↔ x ≤ d * 2 ^ e
  eight_le : 8 ≤ m
  needed : e = 0 ∨ 15 * 2 ^ e < 2 * x

/-- Dividing by `2 ^ stride` and rounding up. -/
theorem quotient_le_iff (stride m d : Nat) :
    (m + (1 <<< stride - 1)) >>> stride ≤ d ↔ m ≤ d * 2 ^ stride := by
  have hpos := Nat.two_pow_pos stride
  rw [Nat.shiftRight_eq_div_pow, Nat.shiftLeft_eq, Nat.one_mul,
    Nat.div_le_iff_le_mul_add_pred hpos, Nat.mul_comm]
  omega

namespace Scaled

theorem start (hx : 8 ≤ x) : Scaled x x 0 where
  le_iff d := by rw [Nat.pow_zero, Nat.mul_one]
  eight_le := hx
  needed := .inl rfl

/-- A stride of halvings, as long as eight or more are left. -/
theorem shrink (h : Scaled x m e) (hstride : 0 < stride) (hm : 8 <<< stride ≤ m) :
    Scaled x ((m + (1 <<< stride - 1)) >>> stride) (e + stride) := by
  rw [Nat.shiftLeft_eq] at hm
  have hpos := Nat.two_pow_pos stride
  constructor
  · intro d
    rw [quotient_le_iff, h.le_iff, Nat.mul_assoc, ← Nat.pow_add, Nat.add_comm stride e]
  · by_contra! hlt
    have hle := (quotient_le_iff stride m 7).mp (Nat.le_of_lt_succ hlt)
    omega
  · -- With one halving less, sixteen or more would be left.
    obtain ⟨k, rfl⟩ := Nat.exists_eq_add_of_lt hstride
    have hmore : ¬ m ≤ 15 * 2 ^ k := by
      rw [Nat.zero_add, Nat.pow_succ] at hm hpos
      omega
    rw [h.le_iff, Nat.mul_assoc, ← Nat.pow_add] at hmore
    have hpow : 2 ^ (e + (0 + k + 1)) = 2 * 2 ^ (k + e) := by
      rw [← Nat.pow_succ', Nat.zero_add, ← Nat.add_assoc, Nat.add_comm e k]
    right
    omega

/-- Halvings leave room in a word for the next stride. -/
theorem within_word (h : Scaled x m e) (hx : x ≤ 2 ^ 32 - 16) (hstride : stride ≤ 4) :
    m + (1 <<< stride - 1) < UInt32.size ∧ e + stride < UInt32.size := by
  have hm : m ≤ x := (h.le_iff x).mpr (Nat.le_mul_of_pos_right x (Nat.two_pow_pos e))
  have hpow : 2 ^ stride ≤ 2 ^ 4 := Nat.pow_le_pow_right (by decide) hstride
  have he : e < 2 ^ e := Nat.lt_two_pow_self
  rw [Nat.shiftLeft_eq, Nat.one_mul, UInt32.size]
  obtain rfl | hneeded := h.needed
  · omega
  · omega

/-- All strides together. -/
theorem exists_shrink? (h : Scaled x m e) (hx : x ≤ 2 ^ 32 - 16) (hpos : 0 < stride)
    (hstride : stride ≤ 4) :
    ∃ m' e', shrink? stride hpos m e = some (m', e') ∧ Scaled x m' e' ∧ m' < 8 <<< stride := by
  fun_induction shrink? stride hpos m e with
  | case1 m e hm hword ih => exact ih (h.shrink hpos hm)
  | case2 m e hm hword => exact absurd (h.within_word hx hstride) hword
  | case3 m e hm => exact ⟨m, e, rfl, h, Nat.not_le.mp hm⟩

/-- Below the byte of `x` there are only smaller sizes. -/
theorem byte_le_iff (h : Scaled x m e) (hm : m < 16) : m + 8 * e ≤ y ↔ x ≤ decode y := by
  have height := h.eight_le
  by_cases hy : 8 + 8 * e ≤ y
  · obtain ⟨z, rfl⟩ : ∃ z, y = z + 8 * e := ⟨y - 8 * e, by omega⟩
    rw [decode_add e (by omega), ← h.le_iff]
    by_cases hz : z < 16
    · rw [decode_of_lt hz]
      omega
    · have hlarge := le_decode z
      omega
  · have hless : decode y < x := by
      cases e with
      | zero =>
        have hx := (h.le_iff 7).not.mp (by omega)
        rw [decode_of_lt (by omega)]
        omega
      | succ k =>
        have hneeded := h.needed.resolve_left (Nat.succ_ne_zero k)
        rw [Nat.pow_succ] at hneeded
        calc decode y
          _ ≤ decode (15 + 8 * k) := decode_strictMono.monotone (by omega)
          _ = 15 * 2 ^ k := by rw [decode_add k (by decide), decode_of_lt (by decide)]
          _ < x := by omega
    omega

end Scaled

/-! ## Encoding -/

/-- Three bits of a byte hold the mantissa, and the exponent is above them. -/
theorem byte_eq_add (e : Nat) (height : 8 ≤ m) (hm : m < 16) :
    (e + 1) <<< 3 ||| (m - 8) = m + 8 * e := by
  rw [← Nat.shiftLeft_add_eq_or_of_lt (by omega), Nat.shiftLeft_eq]
  omega

theorem exists_encode? (hx : x ≤ 2 ^ 32 - 16) :
    ∃ byte, encode? x = some byte ∧ ∀ y, byte ≤ y ↔ x ≤ decode y := by
  by_cases hsmall : x < 8
  · refine ⟨x, by rw [encode?, if_pos hsmall], fun y ↦ ?_⟩
    by_cases hy : y < 16
    · rw [decode_of_lt hy]
    · have hlarge := le_decode y
      omega
  · obtain ⟨m₁, e₁, hfours, hscaled, -⟩ :=
      (Scaled.start (Nat.not_lt.mp hsmall)).exists_shrink? hx (by decide) (le_refl 4)
    obtain ⟨m, e, hones, hscaled, hm⟩ := hscaled.exists_shrink? hx Nat.one_pos (by decide)
    refine ⟨m + 8 * e, ?_, fun y ↦ hscaled.byte_le_iff hm⟩
    rw [encode?, if_neg hsmall, hfours]
    simp only [Option.bind_eq_bind, Option.bind_some]
    rw [hones]
    simp only [Option.bind_some]
    rw [if_pos hscaled.eight_le, byte_eq_add e hscaled.eight_le hm]

theorem encode?_eq_encode (hx : x ≤ 2 ^ 32 - 16) : encode? x = some (encode x) := by
  obtain ⟨byte, hbyte, -⟩ := exists_encode? hx
  have hword : x < UInt32.size := Nat.lt_of_le_of_lt hx (by decide)
  rw [encode, Nat.mod_eq_of_lt hword, hbyte, Option.getD_some]

/-- Encoding is the lower adjoint of decoding. -/
theorem encode_le_iff (hx : x ≤ 2 ^ 32 - 16) : encode x ≤ y ↔ x ≤ decode y := by
  obtain ⟨byte, hbyte, hle⟩ := exists_encode? hx
  obtain rfl : byte = encode x := Option.some.inj (hbyte.symm.trans (encode?_eq_encode hx))
  exact hle y

theorem encode_lt (hx : x ≤ 2 ^ 32 - 16) : encode x < 2 ^ 8 := by
  have hlargest : 2 ^ 32 - 16 ≤ decode 255 := by decide
  exact Nat.lt_succ_of_le ((encode_le_iff hx).mpr (hx.trans hlargest))

/-- A sum with the largest words does not fit. -/
theorem encode?_eq_none (hx : 2 ^ 32 - 16 < x) : encode? x = none := by
  have hover : ¬ (x + (1 <<< 4 - 1) < UInt32.size ∧ 0 + 4 < UInt32.size) := by
    rw [UInt32.size]
    omega
  rw [encode?, if_neg (by omega), shrink?, if_pos (by omega), if_neg hover]
  rfl

/-- Exactly the sizes up to `2 ^ 32 - 16` are encoded without an overflow. The byte stands for the
least encodable size that is large enough, and is monotone. -/
theorem size_rounded_up (x : Nat) (hx : x ≤ 2 ^ 32 - 16) :
    encode? x = some (encode x) ∧ (∀ z, (encode? z).isSome ↔ z ≤ 2 ^ 32 - 16) ∧
    encode x ≤ 255 ∧
    IsLeast {n | x ≤ n ∧ ∃ y, decode y = n} (decode (encode x)) ∧
    (∀ z ≤ x, encode z ≤ encode x) ∧
    ∀ y, decode y = x → encode x = y := by
  have hroom : x ≤ decode (encode x) := (encode_le_iff hx).mp (le_refl _)
  refine ⟨encode?_eq_encode hx, fun z ↦ ?_, Nat.le_of_lt_succ (encode_lt hx), ⟨?_, ?_⟩, ?_, ?_⟩
  · obtain hz | hz := Nat.lt_or_ge (2 ^ 32 - 16) z
    · rw [encode?_eq_none hz]
      exact ⟨nofun, fun hle ↦ absurd hle (Nat.not_le.mpr hz)⟩
    · rw [encode?_eq_encode hz]
      exact ⟨fun _ ↦ hz, fun _ ↦ rfl⟩
  · exact ⟨hroom, encode x, rfl⟩
  · rintro _ ⟨hle, y, rfl⟩
    exact decode_strictMono.monotone ((encode_le_iff hx).mpr hle)
  · intro z hz
    exact (encode_le_iff (hz.trans hx)).mpr (hz.trans hroom)
  · rintro y rfl
    apply le_antisymm
    · exact (encode_le_iff hx).mpr (le_refl _)
    · exact decode_strictMono.le_iff_le.mp hroom

/-- The mantissa of 127 is rounded up beyond fifteen and carries over into the exponent. -/
theorem size_rounded_up_carried :
    encode? 127 = some 40 ∧ IsLeast {n | 127 ≤ n ∧ ∃ y, decode y = n} 128 ∧
      encode 120 ≤ 40 ∧ encode 128 = 40 := by
  have hbyte : encode 127 = 40 := by decide +kernel
  have hsize : decode 40 = 128 := by decide
  obtain ⟨hsome, -, -, hleast, hmono, -⟩ := size_rounded_up 127 (by decide)
  obtain ⟨-, -, -, -, -, hback⟩ := size_rounded_up 128 (by decide)
  rw [hbyte] at hsome hleast hmono
  rw [hsize] at hleast
  exact ⟨hsome, hleast, hmono 120 (by decide), hback 40 hsize⟩

end LuaLower.SizeByte
