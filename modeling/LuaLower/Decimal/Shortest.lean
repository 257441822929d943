import LuaLower.Binary64

/-!
# Shortest decimals

The decimals that read back as a given double form an interval around it, which ends halfway to
its neighbours; the ends belong to it when the significand is even. The shortest decimal is the
point of that interval on the coarsest decimal grid that has one, and the one nearest to the double
if there are several.

All magnitudes here are counted in units of `2 ^ -1076`, in which the double, the ends of its
interval, and the midpoints are integers.
-/

namespace LuaLower

/-- The number `digits · 10 ^ exponent`. -/
structure Decimal where
  digits : Nat
  exponent : Int
  deriving DecidableEq, Repr, Inhabited

namespace Decimal

/-- The decimals that read back as a double of magnitude `value`. -/
structure Interval where
  low : Nat
  value : Nat
  high : Nat
  closed : Bool

namespace Interval

/-- The lower neighbour of a power of two is half as far away as the upper one, except where the
exponent is the least. -/
def ofBinary64 (x : Binary64) : Interval where
  low := (4 * x.significand - if x.fraction = 0 ∧ 1 < x.exponentField then 1 else 2) <<< x.scale
  value := (4 * x.significand) <<< x.scale
  high := (4 * x.significand + 2) <<< x.scale
  closed := x.significand % 2 = 0

def contains (i : Interval) (num den : Nat) : Bool :=
  if i.closed then i.low * den ≤ num && num ≤ i.high * den
  else i.low * den < num && num < i.high * den

/-- The multiple of `10 ^ e` in the interval that is nearest to its value, as a multiplier. Halfway
between two of them the larger is taken. -/
def gridPoint? (i : Interval) (e : Int) : Option Nat :=
  let unit := (1 <<< 1076) * Nat.pow 10 e.toNat
  let den := Nat.pow 10 (-e).toNat
  let below := i.value * den / unit
  let above := below + 1
  match i.contains (below * unit) den, i.contains (above * unit) den with
  | true, true =>
    if i.value * den - below * unit < above * unit - i.value * den then some below
    else some above
  | true, false => some below
  | false, true => some above
  | false, false => none

end Interval

/-- An exponent of ten beyond the magnitude of a number below `2 ^ bits`. -/
def coarseExponent (bits : Int) : Int := bits * 30103 / 100000 + 2

/-- The shortest decimal of the magnitude of a finite nonzero double. Seventeen digits always
suffice, so one of the grids tried has a point in the interval. -/
def shortest (x : Binary64) : Decimal :=
  let i := Interval.ofBinary64 x
  let first := coarseExponent ((Nat.log2 i.value : Int) + 1 - 1076)
  let grids := (List.range 24).map fun (n : Nat) ↦ first - n
  (grids.findSome? fun e ↦ (i.gridPoint? e).map fun d ↦ ⟨d, e⟩).getD ⟨0, 0⟩

end Decimal

end LuaLower
