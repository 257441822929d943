import LuaLower.Chunk.Write
import LuaLower.Proofs.Instruction.Packing
import Mathlib.Algebra.Group.Nat.Defs
import Mathlib.Data.List.Forall2

/-!
# Loading chunks

A reader takes a value off the front of some bytes and leaves the rest. `Reads r bytes a` says that
`r` finds `a` in exactly `bytes`, whatever follows; readers in sequence read the pieces of a chunk
one after the other.
-/

namespace LuaLower.Chunk

variable {α β : Type}

abbrev Reader := StateT (List UInt8) Option

def ofLittleEndian : List UInt8 → Nat
  | [] => 0
  | b :: bytes => b.toNat + 256 * ofLittleEndian bytes

namespace Reader

def ofOption (x : Option α) : Reader α := fun bytes ↦ x.map fun a ↦ (a, bytes)

def byte : Reader UInt8 := fun bytes ↦
  match bytes with
  | [] => none
  | b :: rest => some (b, rest)

def take (n : Nat) : Reader (List UInt8) := fun bytes ↦
  if n ≤ bytes.length then some (bytes.take n, bytes.drop n) else none

def littleEndian (width : Nat) : Reader Nat := do return ofLittleEndian (← take width)

def int : Reader Int32 := do return (UInt32.ofNat (← littleEndian 4)).toInt32

def word : Reader UInt32 := do return UInt32.ofNat (← littleEndian 4)

def integer : Reader Int64 := do return (UInt64.ofNat (← littleEndian 8)).toInt64

def number : Reader Binary64 := do return ⟨UInt64.ofNat (← littleEndian 8)⟩

def flag : Reader Bool := do return (← byte) != 0

/-- A list with a negative length has no items. -/
def count : Reader Nat := do return (← int).toNatClampNeg

/-- The size of a string, which counts one more than its bytes. -/
def stringSize (first : UInt8) : Reader Nat :=
  if first = 255 then littleEndian 8 else return first.toNat

def string : Reader (Option (List UInt8)) := do
  let first ← byte
  if first = 0 then return none
  else
    match ← stringSize first with
    | 0 => failure
    | n + 1 => return some (← take n)

def text (bytes : List UInt8) : Reader String := ofOption (String.fromUTF8? ⟨bytes.toArray⟩)

def times (reader : Reader α) : Nat → Reader (List α)
  | 0 => return []
  | n + 1 => do
    let a ← reader
    let as ← times reader n
    return a :: as

def list (reader : Reader α) : Reader (List α) := do times reader (← count)

def constantString : Reader Constant := do
  match ← string with
  | none => failure
  | some bytes => return .string (← text bytes)

def constant : Reader Constant := do
  match ← byte with
  | 0 => return .nil
  | 1 => return .boolean (← flag)
  | 3 => return .float (← number)
  | 19 => return .integer (← integer)
  | 4 | 20 => constantString
  | _ => failure

def instruction : Reader Instruction := do ofOption (Instruction.decode? (← word))

def upvalue : Reader Upvalue := do
  let inStack ← flag
  let index ← byte
  return ⟨"", inStack, index⟩

/-- A function without a source name has that of the function around it. -/
def source (enclosing : Option String) : Reader (Option String) := do
  match ← string with
  | none => return enclosing
  | some bytes => return some (← text bytes)

def emptyTable : Reader Unit := do
  if (← int) = 0 then return else failure

def emptyDebug : Reader Unit := do
  emptyTable
  emptyTable
  emptyTable

/-- The block of a function, in which functions are nested at most `depth` deep. -/
def block : (depth : Nat) → (enclosing : Option String) → Reader Prototype
  | 0, _ => failure
  | depth + 1, enclosing => do
    let source ← source enclosing
    let line ← int
    let lastLine ← int
    let numParams ← byte
    let isVararg ← flag
    let stackSize ← byte
    let code ← list instruction
    let constants ← list constant
    let upvalues ← list upvalue
    let children ← list (block depth source)
    emptyDebug
    return {
      source, line, lastLine, numParams, isVararg, stackSize
      code := code.toArray
      constants := ⟨constants.toArray⟩
      upvalues, children }

/-- The header, and the number of upvalues of the main function. -/
def preamble : Reader UInt8 := do
  if (← take 33) = header then byte else failure

end Reader

/-- The main function of a chunk and the number of its upvalues. Nothing may follow it, and a
function takes at least one byte, so that the depth of the nesting is at most the size. -/
def load (bytes : List UInt8) : Option (Nat × Prototype) :=
  match Reader.preamble bytes with
  | none => none
  | some (upvalues, body) =>
    match Reader.block body.length none body with
    | some (main, []) => some (upvalues.toNat, main)
    | _ => none

/-! ## Rules -/

def Reads (reader : Reader α) (bytes : List UInt8) (a : α) : Prop :=
  ∀ rest, reader (bytes ++ rest) = some (a, rest)

variable {reader : Reader α} {k : α → Reader β} {bytes bytes' : List UInt8} {a : α} {b : β}

theorem reads_pure (a : α) : Reads (pure a) [] a := fun _ ↦ rfl

theorem reads_ofOption {x : Option α} (h : x = some a) : Reads (Reader.ofOption x) [] a := by
  intro rest
  rw [Reader.ofOption, h]
  rfl

namespace Reads

theorem bind (h : Reads reader bytes a) (hk : Reads (k a) bytes' b) :
    Reads (reader >>= k) (bytes ++ bytes') b := by
  intro rest
  have hfirst := h (bytes' ++ rest)
  rw [← List.append_assoc] at hfirst
  simp only [Bind.bind, StateT.bind, hfirst, Option.bind_some]
  exact hk rest

/-- What is read last takes no bytes of its own. -/
theorem bind_last (h : Reads reader bytes a) (hk : Reads (k a) [] b) :
    Reads (reader >>= k) bytes b := by
  have hbind := h.bind hk
  rwa [List.append_nil] at hbind

theorem map (h : Reads reader bytes a) (φ : α → β) : Reads (do return φ (← reader)) bytes (φ a) :=
  h.bind_last (reads_pure _)

end Reads

/-! ## Fields of fixed width -/

theorem reads_byte (b : UInt8) : Reads Reader.byte [b] b := fun _ ↦ rfl

theorem reads_take {n : Nat} (h : bytes.length = n) : Reads (Reader.take n) bytes bytes := by
  intro rest
  have hle : n ≤ (bytes ++ rest).length := by
    rw [List.length_append]
    omega
  rw [Reader.take, if_pos hle, List.take_left' h, List.drop_left' h]

theorem ofLittleEndian_littleEndian {width n : Nat} (h : n < 256 ^ width) :
    ofLittleEndian (littleEndian width n) = n := by
  induction width generalizing n with
  | zero =>
    have hzero : n = 0 := by simpa using h
    rw [hzero]
    rfl
  | succ width ih =>
    have hquotient : n / 256 < 256 ^ width := by
      rw [Nat.div_lt_iff_lt_mul (by decide), ← Nat.pow_succ]
      exact h
    rw [littleEndian, ofLittleEndian, ih hquotient, UInt8.toNat_ofNat']
    omega

theorem reads_littleEndian {width n : Nat} (h : n < 256 ^ width) :
    Reads (Reader.littleEndian width) (littleEndian width n) n := by
  have hread := (reads_take (length_littleEndian width n)).map ofLittleEndian
  rwa [ofLittleEndian_littleEndian h] at hread

theorem reads_four {n : Nat} (h : n < 2 ^ 32) :
    Reads (Reader.littleEndian 4) (littleEndian 4 n) n :=
  reads_littleEndian h

theorem reads_eight {n : Nat} (h : n < 2 ^ 64) :
    Reads (Reader.littleEndian 8) (littleEndian 8 n) n :=
  reads_littleEndian h

theorem reads_int (n : Int32) : Reads Reader.int (int n) n := by
  have hread := (reads_four n.toUInt32.toNat_lt).map fun n ↦ (UInt32.ofNat n).toInt32
  rwa [UInt32.ofNat_toNat, Int32.toInt32_toUInt32] at hread

theorem reads_word (w : UInt32) : Reads Reader.word (word w) w := by
  have hread := (reads_four w.toNat_lt).map UInt32.ofNat
  rwa [UInt32.ofNat_toNat] at hread

theorem reads_integer (n : Int64) : Reads Reader.integer (integer n) n := by
  have hread := (reads_eight n.toUInt64.toNat_lt).map fun n ↦ (UInt64.ofNat n).toInt64
  rwa [UInt64.ofNat_toNat, Int64.toInt64_toUInt64] at hread

theorem reads_number (x : Binary64) : Reads Reader.number (number x) x := by
  have hread := (reads_eight x.bits.toNat_lt).map fun n ↦ (⟨UInt64.ofNat n⟩ : Binary64)
  rwa [UInt64.ofNat_toNat] at hread

theorem reads_flag (b : Bool) : Reads Reader.flag [flag b] b := by
  have hread := (reads_byte (flag b)).map (· != 0)
  have hb : (flag b != 0) = b := by cases b <;> rfl
  rwa [hb] at hread

theorem reads_count {n : Nat} (h : n < 2 ^ 31) : Reads Reader.count (count n) n := by
  have hint : Reads Reader.int (count n) (UInt32.ofNat n).toInt32 :=
    (reads_four (by omega)).map fun n ↦ (UInt32.ofNat n).toInt32
  have hread := hint.map Int32.toNatClampNeg
  rwa [UInt32.toInt32_ofNat', Int32.toNatClampNeg_ofNat_of_lt h] at hread

/-! ## Strings and lists -/

theorem reads_string_none : Reads Reader.string (string none) none := fun _ ↦ rfl

theorem reads_string {bytes : List UInt8} (h : bytes.length + 1 < 2 ^ 64) :
    Reads Reader.string (string (some bytes)) (some bytes) := by
  have hrest : Reads (do return some (← Reader.take bytes.length) : Reader (Option (List UInt8)))
      bytes (some bytes) :=
    (reads_take rfl).map some
  by_cases hshort : bytes.length + 1 < 255
  · have hfirst : (UInt8.ofNat (bytes.length + 1)).toNat = bytes.length + 1 :=
      UInt8.toNat_ofNat_of_lt (Nat.lt_trans hshort (by decide))
    have hzero : UInt8.ofNat (bytes.length + 1) ≠ 0 := by
      intro heq
      rw [heq] at hfirst
      cases hfirst
    have hlong : UInt8.ofNat (bytes.length + 1) ≠ 255 := by
      intro heq
      rw [heq] at hfirst
      have hsize : (255 : UInt8).toNat = 255 := rfl
      omega
    have hread : Reads Reader.string ([UInt8.ofNat (bytes.length + 1)] ++ bytes) (some bytes) := by
      apply (reads_byte _).bind
      simp only [hzero, if_false]
      rw [Reader.stringSize, if_neg hlong, hfirst, pure_bind]
      exact hrest
    simp only [string, if_pos hshort]
    exact hread
  · have hsize : (UInt64.ofNat (bytes.length + 1)).toNat = bytes.length + 1 :=
      UInt64.toNat_ofNat_of_lt h
    have hread : Reads Reader.string
        ([255] ++ (size (UInt64.ofNat (bytes.length + 1)) ++ bytes)) (some bytes) := by
      apply (reads_byte _).bind
      have hnumber : Reads (Reader.stringSize 255) (size (UInt64.ofNat (bytes.length + 1)))
          (bytes.length + 1) := by
        rw [size, hsize]
        exact reads_eight h
      exact hnumber.bind hrest
    simp only [string, if_neg hshort]
    exact hread

theorem reads_text (s : String) : Reads (Reader.text (utf8 s)) [] s := by
  apply reads_ofOption
  exact dif_pos s.isValidUTF8

theorem reads_times {pieces : List (List UInt8)} {as : List α}
    (h : List.Forall₂ (Reads reader) pieces as) :
    Reads (Reader.times reader as.length) pieces.flatten as := by
  induction h with
  | nil => exact reads_pure []
  | cons hfirst _ ih => exact hfirst.bind (ih.map _)

theorem reads_list {pieces : List (List UInt8)} {as : List α}
    (h : List.Forall₂ (Reads reader) pieces as) (hlength : as.length < 2 ^ 31) :
    Reads (Reader.list reader) (count as.length ++ pieces.flatten) as :=
  (reads_count hlength).bind (reads_times h)

/-! ## The parts of a block -/

/-- The size of a string can be counted in a field of the format. -/
def SizeFits (s : String) : Prop := (utf8 s).length + 1 < 2 ^ 64

theorem reads_constantString {s : String} (h : SizeFits s) :
    Reads Reader.constantString (string (some (utf8 s))) (.string s) :=
  (reads_string h).bind_last ((reads_text s).map Constant.string)

theorem reads_constant {k : Constant} (h : ∀ s, k = .string s → SizeFits s) :
    Reads Reader.constant (constant k) k := by
  cases k with
  | nil => exact (reads_byte 0).bind_last (reads_pure _)
  | boolean b => exact (reads_byte 1).bind ((reads_flag b).map Constant.boolean)
  | integer n => exact (reads_byte 19).bind ((reads_integer n).map Constant.integer)
  | float x => exact (reads_byte 3).bind ((reads_number x).map Constant.float)
  | string s =>
    have hread := reads_constantString (h s rfl)
    rw [constant]
    by_cases hshort : (utf8 s).length ≤ maxShortLength
    · simp only [hshort, if_true]
      exact (reads_byte 4).bind hread
    · simp only [hshort, if_false]
      exact (reads_byte 20).bind hread

theorem reads_instruction {i : Instruction} {w : UInt32} (h : i.encode = .ok w) :
    Reads Reader.instruction (word w) i :=
  (reads_word w).bind_last (reads_ofOption (Instruction.decode?_encode h))

theorem reads_upvalue (u : Upvalue) : Reads Reader.upvalue (upvalue u) { u with name := "" } :=
  (reads_flag u.inStack).bind ((reads_byte u.index).map _)

/-- A source name that is left out is that of the enclosing function. -/
theorem reads_source {enclosing own : Option String} (hown : ∀ s ∈ own, SizeFits s)
    (henclosing : enclosing.isSome → own.isSome) :
    Reads (Reader.source enclosing) (sourceName false enclosing own) own := by
  have habsent : Reads (Reader.source enclosing) (string none) enclosing :=
    reads_string_none.bind_last (reads_pure _)
  by_cases hsame : (enclosing.isSome && own == enclosing) = true
  · have heq : own = enclosing := by simpa using (Bool.and_eq_true_iff.mp hsame).2
    rw [sourceName, Bool.false_or, if_pos hsame, heq]
    exact habsent
  · rw [sourceName, Bool.false_or, if_neg hsame]
    cases own with
    | none =>
      obtain rfl : enclosing = none := by
        cases enclosing with
        | none => rfl
        | some s => cases henclosing rfl
      exact habsent
    | some s => exact (reads_string (hown s rfl)).bind_last ((reads_text s).map some)

theorem reads_emptyDebug : Reads Reader.emptyDebug emptyDebug () := fun _ ↦ rfl

end LuaLower.Chunk
