import LuaLower.Decimal.Shortest

/-!
# The text of a double

The digits are the shortest that read back. Magnitudes from `1e-4` up to, not including, `1e16` are
written positionally and always show a decimal; all others have an exponent.
-/

namespace LuaLower.Decimal

def digitChars (d : Decimal) : List Char := Nat.toDigits 10 d.digits

/-- The position of the decimal point, counted from in front of the first digit. -/
def point (d : Decimal) : Int := d.digitChars.length + d.exponent

def positional (d : Decimal) : List Char :=
  let cs := d.digitChars
  if d.point ≤ 0 then
    "0.".toList ++ List.replicate (-d.point).toNat '0' ++ cs
  else if cs.length ≤ d.point then
    cs ++ List.replicate d.exponent.toNat '0' ++ ".0".toList
  else
    cs.take d.point.toNat ++ '.' :: cs.drop d.point.toNat

def scientific (d : Decimal) : List Char :=
  let exponent := 'e' :: (toString (d.point - 1)).toList
  match d.digitChars with
  | [] => exponent
  | [c] => c :: exponent
  | c :: cs => c :: '.' :: cs ++ exponent

def text (d : Decimal) : String :=
  String.ofList (if -4 < d.point ∧ d.point ≤ 16 then d.positional else d.scientific)

end LuaLower.Decimal

namespace LuaLower.Binary64

def magnitudeText (x : Binary64) : String :=
  if !x.isFinite then "inf"
  else if x.significand = 0 then "0.0"
  else (Decimal.shortest x).text

def text (x : Binary64) : String :=
  if x.isNaN then "NaN"
  else if x.isNegative then "-" ++ x.magnitudeText
  else x.magnitudeText

end LuaLower.Binary64
