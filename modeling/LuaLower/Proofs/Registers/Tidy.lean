import LuaLower.Registers
import Mathlib.Data.List.Nodup
import Mathlib.Order.Lattice

/-!
# Registers in order

In tidy registers the locals fill the lowest registers in the order of their declaration, and the
marks are where they belong. On tidy registers every operation that is in order does what its name
says and leaves the record of order alone.
-/

namespace LuaLower.Registers

variable {rs : Registers}

structure Tidy (rs : Registers) : Prop where
  contiguous : rs.locals.map Local.register = (List.range rs.numLocals).reverse
  numLocals_le : rs.numLocals ≤ rs.next
  next_le : rs.next ≤ rs.high
  high_le : rs.high ≤ limit

theorem tidy_empty : ({} : Registers).Tidy where
  contiguous := rfl
  numLocals_le := le_refl 0
  next_le := le_refl 0
  high_le := Nat.zero_le limit

theorem marksInOrder_iff :
    rs.marksInOrder = true ↔ rs.numLocals ≤ rs.next ∧ rs.next ≤ rs.high ∧ rs.high ≤ limit := by
  simp [marksInOrder, and_assoc]

theorem Tidy.marksInOrder (h : rs.Tidy) : rs.marksInOrder = true :=
  marksInOrder_iff.mpr ⟨h.numLocals_le, h.next_le, h.high_le⟩

/-- The record stays clear only if the step and the marks are in order. -/
theorem note_inOrder_iff {stepInOrder : Bool} :
    (rs.note stepInOrder).inOrder = true ↔
      rs.inOrder = true ∧ stepInOrder = true ∧ rs.numLocals ≤ rs.next ∧ rs.next ≤ rs.high ∧
        rs.high ≤ limit := by
  simp [note, marksInOrder, and_assoc]

/-- A step in order that leaves the marks in order leaves no trace in the record. -/
theorem note_eq_self (h : rs.marksInOrder = true) : rs.note true = rs := by
  simp [note, h]

theorem Tidy.register_lt (h : rs.Tidy) {l : Local} (hl : l ∈ rs.locals) :
    l.register < rs.numLocals := by
  have hmem : l.register ∈ rs.locals.map Local.register := List.mem_map_of_mem hl
  rw [h.contiguous] at hmem
  simpa using hmem

/-- No two locals share a register. -/
theorem Tidy.local_eq (h : rs.Tidy) {l l' : Local} (hl : l ∈ rs.locals) (hl' : l' ∈ rs.locals)
    (hregister : l.register = l'.register) : l = l' := by
  have hnodup : (rs.locals.map Local.register).Nodup := by
    rw [h.contiguous]
    exact List.nodup_reverse.mpr List.nodup_range
  exact List.inj_on_of_nodup_map hnodup hl hl' hregister

theorem Tidy.find?_lt (h : rs.Tidy) {x : String} {l : Local} (hl : rs.find? x = some l) :
    l.register < rs.numLocals :=
  h.register_lt (List.mem_of_find?_eq_some hl)

theorem Tidy.take_eq (h : rs.Tidy) (hlimit : rs.next < limit) :
    rs.take = { rs with next := rs.next + 1, high := max rs.high (rs.next + 1) } := by
  apply note_eq_self
  rw [marksInOrder_iff]
  refine ⟨Nat.le_succ_of_le h.numLocals_le, le_max_right _ _, ?_⟩
  exact max_le h.high_le hlimit

theorem release_of_lt {r : Nat} (hr : r < rs.numLocals) : rs.release r = rs := by
  rw [release, if_neg (Nat.not_le.mpr hr)]

theorem Tidy.release_eq (h : rs.Tidy) {r : Nat} (hr : rs.numLocals ≤ r) (hnext : rs.next = r + 1) :
    rs.release r = { rs with next := r } := by
  have hhigh := h.next_le
  rw [release, if_pos hr, hnext]
  simp only [previous_succ, beq_self_eq_true]
  apply note_eq_self
  rw [marksInOrder_iff]
  exact ⟨hr, by simp only; omega, h.high_le⟩

theorem Tidy.releaseDownTo_eq (h : rs.Tidy) {m : Nat} (hm : rs.numLocals ≤ m)
    (hnext : m ≤ rs.next) : rs.releaseDownTo m = { rs with next := m } := by
  rw [releaseDownTo, if_pos hnext]
  apply note_eq_self
  rw [marksInOrder_iff]
  exact ⟨hm, hnext.trans h.next_le, h.high_le⟩

theorem Tidy.bind_eq (h : rs.Tidy) (name : String) (isConst : Bool)
    (hnext : rs.next = rs.numLocals + 1) :
    rs.bind name rs.numLocals isConst =
      { rs with locals := ⟨name, rs.numLocals, isConst⟩ :: rs.locals } := by
  rw [bind, beq_self_eq_true]
  apply note_eq_self
  rw [marksInOrder_iff]
  refine ⟨?_, h.next_le, h.high_le⟩
  simp only [numLocals, List.length_cons] at hnext ⊢
  omega

theorem Tidy.settle_eq (h : rs.Tidy) (hnext : rs.next = rs.numLocals) : rs.settle = rs := by
  rw [settle, hnext, beq_self_eq_true, note_eq_self h.marksInOrder]

/-! ## What keeps registers tidy -/

theorem Tidy.lower (h : rs.Tidy) {m : Nat} (hm : rs.numLocals ≤ m) (hnext : m ≤ rs.next) :
    ({ rs with next := m } : Registers).Tidy where
  contiguous := h.contiguous
  numLocals_le := hm
  next_le := hnext.trans h.next_le
  high_le := h.high_le

theorem Tidy.raise (h : rs.Tidy) (hlimit : rs.next < limit) :
    ({ rs with next := rs.next + 1, high := max rs.high (rs.next + 1) } : Registers).Tidy where
  contiguous := h.contiguous
  numLocals_le := Nat.le_succ_of_le h.numLocals_le
  next_le := le_max_right _ _
  high_le := max_le h.high_le hlimit

theorem Tidy.bound (h : rs.Tidy) (name : String) (isConst : Bool)
    (hnext : rs.next = rs.numLocals + 1) :
    ({ rs with locals := ⟨name, rs.numLocals, isConst⟩ :: rs.locals } : Registers).Tidy where
  contiguous := by
    have hrange : (List.range (rs.numLocals + 1)).reverse =
        rs.numLocals :: (List.range rs.numLocals).reverse := by
      simp [List.range_succ]
    simpa only [List.map_cons, h.contiguous, numLocals, List.length_cons] using hrange.symm
  numLocals_le := by
    simp only [numLocals, List.length_cons] at hnext ⊢
    omega
  next_le := h.next_le
  high_le := h.high_le

end LuaLower.Registers
