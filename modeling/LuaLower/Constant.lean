import LuaLower.Binary64

/-!
# Constants and their pool

A pool lists the constants of a function without repetition, in the order in which they were first
asked for. Constants are equal when they have the same kind and the same value; floats are
compared by their bits, so the two zeros and distinct not-a-numbers keep slots of their own.
-/

namespace LuaLower

inductive Constant where
  | nil
  | boolean (value : Bool)
  | integer (value : Int64)
  | float (value : Binary64)
  | string (value : String)
  deriving DecidableEq, Repr, Inhabited

namespace Constant

/-- A number literal is an integer constant when its value is an integer of 64 bits. Negative zero
stays a float, since the integer zero would lose its sign. -/
def ofNumber (x : Binary64) : Constant :=
  if x.isFinite && x.isIntegral && !(x.rank == 0 && x.isNegative) &&
      Binary64.minInt64.le x && x.lt .maxInt64 then
    .integer (Int64.ofInt x.truncate)
  else .float x

end Constant

structure Pool where
  entries : Array Constant := #[]
  deriving DecidableEq, Repr, Inhabited

namespace Pool

def size (pool : Pool) : Nat := pool.entries.size

def isEmpty (pool : Pool) : Bool := pool.entries.isEmpty

def get? (pool : Pool) (index : Nat) : Option Constant := pool.entries[index]?

def toList (pool : Pool) : List Constant := pool.entries.toList

/-- The index of a constant, which is added at the end if it is new. By `Pool.indices_le` the index
is below `2 ^ 32` as long as there are fewer insertions. -/
def insert (pool : Pool) (k : Constant) : Nat × Pool :=
  match pool.entries.idxOf? k with
  | some index => (index, pool)
  | none => (pool.entries.size, ⟨pool.entries.push k⟩)

theorem toList_insert (pool : Pool) (k : Constant) :
    (pool.insert k).2.toList = if k ∈ pool.toList then pool.toList else pool.toList ++ [k] := by
  unfold insert
  cases h : pool.entries.idxOf? k with
  | some index =>
    have hk : k ∈ pool.entries := Array.isSome_idxOf?.mp (by simp [h])
    simp [toList, hk]
  | none => simp [toList, Array.idxOf?_eq_none_iff.mp h]

@[simp] theorem get?_insert (pool : Pool) (k : Constant) :
    (pool.insert k).2.get? (pool.insert k).1 = some k := by
  unfold insert
  cases h : pool.entries.idxOf? k with
  | some index =>
    rw [Array.idxOf?_eq_map_finIdxOf?_val] at h
    obtain ⟨i, hi, rfl⟩ := Option.map_eq_some_iff.mp h
    have hk : pool.entries[i] = k := (Array.finIdxOf?_eq_some_iff.mp hi).1
    simpa [get?] using hk
  | none => simp [get?]

def ofList (ks : List Constant) : Pool :=
  ks.foldl (fun pool k ↦ (pool.insert k).2) {}

end Pool

end LuaLower
