import LuaLower.Binary64

/-!
# The primitive fields of a chunk

Numbers are written little-endian at a fixed width. A string is preceded by its size plus one, so
that a zero can stand for the absence of a string.
-/

namespace LuaLower.Chunk

def littleEndian : (width n : Nat) → List UInt8
  | 0, _ => []
  | width + 1, n => UInt8.ofNat n :: littleEndian width (n / 256)

@[simp] theorem length_littleEndian (width n : Nat) : (littleEndian width n).length = width := by
  induction width generalizing n with
  | zero => rfl
  | succ width ih => simp [littleEndian, ih]

def int (n : Int32) : List UInt8 := littleEndian 4 n.toUInt32.toNat

def word (w : UInt32) : List UInt8 := littleEndian 4 w.toNat

def size (n : UInt64) : List UInt8 := littleEndian 8 n.toNat

def integer (n : Int64) : List UInt8 := littleEndian 8 n.toUInt64.toNat

def number (x : Binary64) : List UInt8 := littleEndian 8 x.bits.toNat

def flag (b : Bool) : UInt8 := if b then 1 else 0

def count (n : Nat) : List UInt8 := littleEndian 4 n

/-- A size takes one byte below 255, and otherwise follows the byte 255. -/
def string : Option (List UInt8) → List UInt8
  | none => [0]
  | some bytes =>
    let n := bytes.length + 1
    (if n < 255 then [UInt8.ofNat n] else 255 :: size (UInt64.ofNat n)) ++ bytes

def utf8 (s : String) : List UInt8 := s.toUTF8.data.toList

end LuaLower.Chunk
