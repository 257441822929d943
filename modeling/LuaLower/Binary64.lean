/-!
# Binary floating-point numbers

A number literal is kept as the 64 bits of its IEEE 754 double, so that two not-a-numbers with
different payloads stay apart and no arithmetic can change a value on its way to the output.
-/

namespace LuaLower

/-- A double-precision number, by its bits. -/
structure Binary64 where
  bits : UInt64
  deriving DecidableEq, Repr, Hashable, Inhabited

namespace Binary64

def isNegative (x : Binary64) : Bool := 1 <<< 63 ≤ x.bits.toNat

def exponentField (x : Binary64) : Nat := x.bits.toNat / (1 <<< 52) % (1 <<< 11)

def fraction (x : Binary64) : Nat := x.bits.toNat % (1 <<< 52)

def isFinite (x : Binary64) : Bool := x.exponentField != 2047

def isNaN (x : Binary64) : Bool := x.exponentField == 2047 && x.fraction != 0

/-- The integer significand of a finite number, with the hidden bit of a normal one. -/
def significand (x : Binary64) : Nat :=
  if x.exponentField = 0 then x.fraction else x.fraction + 1 <<< 52

/-- The power of two that scales the significand of a finite number, plus 1074. The number is
`significand · 2 ^ (scale - 1074)` up to its sign. -/
def scale (x : Binary64) : Nat := x.exponentField - 1

def isIntegral (x : Binary64) : Bool :=
  1074 ≤ x.scale || x.significand % (1 <<< (1074 - x.scale)) == 0

def truncate (x : Binary64) : Int :=
  let n := if 1074 ≤ x.scale then x.significand <<< (x.scale - 1074)
    else x.significand >>> (1074 - x.scale)
  if x.isNegative then -(n : Int) else n

/-- The place of a number in the order of all of them, counted from the zeros, which share one. -/
def rank (x : Binary64) : Int :=
  if x.isNegative then (1 <<< 63) - (x.bits.toNat : Int) else x.bits.toNat

def le (x y : Binary64) : Bool := !x.isNaN && !y.isNaN && decide (x.rank ≤ y.rank)

def lt (x y : Binary64) : Bool := !x.isNaN && !y.isNaN && decide (x.rank < y.rank)

def zero : Binary64 := ⟨0⟩

def negZero : Binary64 := ⟨0x8000000000000000⟩

def one : Binary64 := ⟨0x3FF0000000000000⟩

def infinity : Binary64 := ⟨0x7FF0000000000000⟩

def nan : Binary64 := ⟨0x7FF8000000000000⟩

def minInt64 : Binary64 := ⟨0xC3E0000000000000⟩

/-- The greatest integer of 64 bits, rounded: the power of two above it. -/
def maxInt64 : Binary64 := ⟨0x43E0000000000000⟩

end Binary64

end LuaLower
