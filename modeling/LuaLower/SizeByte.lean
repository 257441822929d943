/-!
# Size bytes

The size hints of a table constructor are bytes `eeeeexxx` that stand for `xxx` when the exponent
is zero and for `1xxx · 2^(eeeee - 1)` otherwise. Encoding rounds up, so a hint never promises
less room than was asked for. It is computed on words of 32 bits.
-/

namespace LuaLower.SizeByte

/-- Divide `x` by `2 ^ stride`, rounding up, as long as eight or more are left; `e` counts the
halvings. There is no result if a word overflows. -/
def shrink? (stride : Nat) (hstride : 0 < stride) (x e : Nat) : Option (Nat × Nat) :=
  if 8 <<< stride ≤ x then
    if x + (1 <<< stride - 1) < UInt32.size ∧ e + stride < UInt32.size then
      shrink? stride hstride ((x + (1 <<< stride - 1)) >>> stride) (e + stride)
    else none
  else some (x, e)
termination_by x
decreasing_by
  have hpow := Nat.pow_le_pow_right Nat.two_pos hstride
  have hdouble := Nat.mul_le_mul_left x hpow
  rw [Nat.shiftRight_eq_div_pow, Nat.div_lt_iff_lt_mul (by omega)]
  simp only [Nat.shiftLeft_eq] at *
  omega

/-- The byte of the least representable size that is at least `x`, unless a word overflows on the
way. Four halvings at a time come first, and then single ones. -/
def encode? (x : Nat) : Option Nat :=
  if x < 8 then some x
  else do
    let (x, e) ← shrink? 4 (by decide) x 0
    let (x, e) ← shrink? 1 (by decide) x e
    if 8 ≤ x then some ((e + 1) <<< 3 ||| (x - 8)) else none

/-- The size hint for a count, of which the low 32 bits are used. A word that overflows wraps around
to a result that no field holds. -/
def encode (count : Nat) : Nat := (encode? (count % UInt32.size)).getD (UInt32.size - 8)

def decode (y : Nat) : Nat :=
  if y < 8 then y else (y % 8 + 8) <<< (y / 8 - 1)

end LuaLower.SizeByte
