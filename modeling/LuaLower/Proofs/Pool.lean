import LuaLower.Constant
import Mathlib.Data.List.Induction
import Mathlib.Data.List.Nodup

/-!
# Pools

Insertion neither removes a constant nor moves one, and adds only what is not there. So whatever
comes later, the index of an insertion designates the constant that was inserted, and a pool that
was filled by insertions lists the distinct ones of them in the order of their first occurrences.
-/

namespace LuaLower.Pool

variable {pool later : Pool} {k : Constant} {ks : List Constant} {i j : Nat}

theorem get?_eq_getElem? (pool : Pool) (i : Nat) : pool.get? i = pool.toList[i]? := by
  simp [get?, toList]

/-! ## One insertion -/

theorem insert_eq_idxOf (pool : Pool) (k : Constant) :
    (pool.insert k).1 = pool.toList.idxOf k := by
  obtain ⟨⟨ks⟩⟩ := pool
  simp only [insert, toList, List.idxOf?_toArray, List.idxOf_eq_getD_idxOf?]
  cases ks.idxOf? k with
  | some index => rfl
  | none => rfl

theorem insert_lt_size (pool : Pool) (k : Constant) :
    (pool.insert k).1 < (pool.insert k).2.size := by
  have h := pool.get?_insert k
  exact (Array.getElem?_eq_some_iff.mp h).1

theorem prefix_toList_insert (pool : Pool) (k : Constant) :
    pool.toList <+: (pool.insert k).2.toList := by
  rw [toList_insert]
  split
  · exact List.prefix_refl _
  · exact List.prefix_append _ _

theorem mem_toList_insert (pool : Pool) (k : Constant) : k ∈ (pool.insert k).2.toList := by
  rw [toList_insert]
  split
  · assumption
  · exact List.mem_append_right _ (List.mem_singleton_self k)

theorem nodup_toList_insert (h : pool.toList.Nodup) (k : Constant) :
    (pool.insert k).2.toList.Nodup := by
  rw [toList_insert]
  split
  · exact h
  case isFalse hk =>
    exact List.nodup_append_comm.mp (List.nodup_cons.mpr ⟨hk, h⟩)

/-- A constant keeps its place in the pool. -/
theorem insert_later (h : (pool.insert k).2.toList <+: later.toList) :
    (later.insert k).1 = (pool.insert k).1 := by
  obtain ⟨more, hmore⟩ := h
  rw [insert_eq_idxOf, insert_eq_idxOf, ← hmore, toList_insert]
  by_cases hk : k ∈ pool.toList
  · rw [if_pos hk, List.idxOf_append_of_mem hk]
  · rw [if_neg hk, List.idxOf_append_of_mem (by simp), List.idxOf_append_of_notMem hk]
    simp [List.idxOf_eq_length_iff.mpr hk]

theorem insert_insert (pool : Pool) (k : Constant) :
    (pool.insert k).2.insert k = pool.insert k := by
  have hindex : ((pool.insert k).2.insert k).1 = (pool.insert k).1 := insert_later List.prefix_rfl
  have hlist : ((pool.insert k).2.insert k).2.toList = (pool.insert k).2.toList := by
    rw [toList_insert, if_pos (mem_toList_insert pool k)]
  have hpool : ((pool.insert k).2.insert k).2 = (pool.insert k).2 :=
    congrArg mk (Array.toList_inj.mp hlist)
  exact Prod.ext hindex hpool

/-! ## Successive insertions -/

def insertAll (pool : Pool) (ks : List Constant) : Pool :=
  ks.foldl (fun pool k ↦ (pool.insert k).2) pool

/-- The indices that successive insertions give. -/
def indices : Pool → List Constant → List Nat
  | _, [] => []
  | pool, k :: ks => (pool.insert k).1 :: indices (pool.insert k).2 ks

/-- `later` is what successive insertions make of `pool`. -/
def Extends (pool later : Pool) : Prop := ∃ ks, later = pool.insertAll ks

@[simp] theorem insertAll_cons (pool : Pool) (k : Constant) (ks : List Constant) :
    pool.insertAll (k :: ks) = (pool.insert k).2.insertAll ks := rfl

theorem insertAll_append (pool : Pool) (ks ls : List Constant) :
    pool.insertAll (ks ++ ls) = (pool.insertAll ks).insertAll ls :=
  List.foldl_append

namespace Extends

theorem refl (pool : Pool) : pool.Extends pool := ⟨[], rfl⟩

theorem insert (pool : Pool) (k : Constant) : pool.Extends (pool.insert k).2 := ⟨[k], rfl⟩

theorem trans {latest : Pool} (h : pool.Extends later) (h' : later.Extends latest) :
    pool.Extends latest := by
  obtain ⟨ks, rfl⟩ := h
  obtain ⟨ls, rfl⟩ := h'
  exact ⟨ks ++ ls, (insertAll_append pool ks ls).symm⟩

/-- What one insertion keeps, all of them keep. -/
theorem keeps {P : Pool → Prop} (hstep : ∀ pool k, P pool → P (pool.insert k).2)
    (h : pool.Extends later) (hpool : P pool) : P later := by
  obtain ⟨ks, rfl⟩ := h
  induction ks generalizing pool with
  | nil => exact hpool
  | cons k ks ih => exact ih (hstep pool k hpool)

theorem isPrefix (h : pool.Extends later) : pool.toList <+: later.toList :=
  h.keeps (P := fun p ↦ pool.toList <+: p.toList)
    (fun p k hp ↦ hp.trans (prefix_toList_insert p k)) List.prefix_rfl

theorem nodup (h : pool.Extends later) (hpool : pool.toList.Nodup) : later.toList.Nodup :=
  h.keeps (P := fun p ↦ p.toList.Nodup) (fun _ k hp ↦ nodup_toList_insert hp k) hpool

/-- An index designates the same constant in all later pools. -/
theorem get?_eq_some (h : pool.Extends later) (hi : pool.get? i = some k) :
    later.get? i = some k := by
  rw [get?_eq_getElem?] at hi ⊢
  obtain ⟨more, hmore⟩ := h.isPrefix
  obtain ⟨hlt, -⟩ := List.getElem?_eq_some_iff.mp hi
  rw [← hmore, List.getElem?_append_left hlt, hi]

end Extends

theorem extends_ofList_append (ks ls : List Constant) : (ofList ks).Extends (ofList (ks ++ ls)) :=
  ⟨ls, insertAll_append {} ks ls⟩

/-- The first occurrences stay. -/
theorem toList_ofList (ks : List Constant) : (ofList ks).toList = ks.eraseDups := by
  induction ks using List.reverseRecOn with
  | nil => rfl
  | append_singleton ks k ih =>
    have hlast : ofList (ks ++ [k]) = ((ofList ks).insert k).2 := insertAll_append {} ks [k]
    rw [hlast, toList_insert, ih, List.eraseDups_append]
    by_cases hk : k ∈ ks
    · simp [List.removeAll, hk]
    · simp [List.removeAll, hk, List.eraseDups_cons]

/-! ## The indices given -/

/-- Each insertion gives the place that its constant has in the end. -/
theorem indices_eq_map (pool : Pool) (ks : List Constant) :
    pool.indices ks = ks.map fun k ↦ (pool.insertAll ks).toList.idxOf k := by
  induction ks generalizing pool with
  | nil => rfl
  | cons k ks ih =>
    have hrest : (pool.insert k).2.Extends ((pool.insert k).2.insertAll ks) := ⟨ks, rfl⟩
    rw [indices, ih, List.map_cons, insertAll_cons, ← insert_eq_idxOf, insert_later hrest.isPrefix]

/-- Each insertion adds one constant at most, so its index is no larger than their number so far. -/
theorem indices_le {n : Nat} (h : (pool.indices ks)[i]? = some n) : n ≤ pool.toList.length + i := by
  induction ks generalizing pool i with
  | nil => cases h
  | cons k ks ih =>
    cases i with
    | zero =>
      obtain rfl : (pool.insert k).1 = n := Option.some.inj h
      rw [insert_eq_idxOf]
      exact List.idxOf_le_length
    | succ i =>
      have hsize : (pool.insert k).2.toList.length ≤ pool.toList.length + 1 := by
        rw [toList_insert]
        split <;> simp
      have hn := ih (i := i) h
      omega

theorem mem_toList_ofList : k ∈ (ofList ks).toList ↔ k ∈ ks := by
  rw [toList_ofList, List.mem_eraseDups]

theorem getElem?_indices (hi : ks[i]? = some k) :
    (({} : Pool).indices ks)[i]? = some ((ofList ks).toList.idxOf k) := by
  rw [indices_eq_map, List.getElem?_map, hi]
  rfl

/-- The index of an insertion designates what was inserted. -/
theorem get?_idxOf (hk : k ∈ ks) : (ofList ks).get? ((ofList ks).toList.idxOf k) = some k := by
  rw [get?_eq_getElem?]
  exact List.getElem?_idxOf (mem_toList_ofList.mpr hk)

/-- Insertions give the same index exactly if they are of the same constant. -/
theorem getElem?_indices_eq_iff (hi : i < ks.length) (hj : j < ks.length) :
    (({} : Pool).indices ks)[i]? = (({} : Pool).indices ks)[j]? ↔ ks[i]? = ks[j]? := by
  have hki := List.getElem?_eq_getElem hi
  have hkj := List.getElem?_eq_getElem hj
  have hmem : ks[i] ∈ (ofList ks).toList := mem_toList_ofList.mpr (List.getElem_mem hi)
  rw [getElem?_indices hki, getElem?_indices hkj, hki, hkj, Option.some_inj, Option.some_inj]
  exact List.idxOf_inj hmem

end LuaLower.Pool
