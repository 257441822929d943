import LuaLower.Proofs.Instruction.Flow
import LuaLower.Proofs.Semantics.Machine

/-!
# What the machine does in one step

An instruction that the machine executes moves to one of its successors and changes no register but
those that it writes.
-/

namespace LuaLower.Machine

variable {V : Type} {m : Meaning V} {frame : Frame V} {pc : Nat} {ρ : Nat → V} {s : State V}
  {i : Instruction} {op : Opcode} {a b c r : Nat}

theorem effect_of_arithmetic? (pc : Nat) {f : V → V → V} (h : m.arithmetic? op = some f) :
    (Instruction.abc op a b c).successors pc = [(pc : Int) + 1] ∧
      ∀ r, (Instruction.abc op a b c).writes r = decide (r = a) := by
  unfold Meaning.arithmetic? at h
  split at h <;> first | exact ⟨rfl, fun _ ↦ rfl⟩ | cases h

theorem effect_of_unary? (pc : Nat) {f : V → V} (h : m.unary? op = some f) :
    (Instruction.abc op a b c).successors pc = [(pc : Int) + 1] ∧
      ∀ r, (Instruction.abc op a b c).writes r = decide (r = a) := by
  unfold Meaning.unary? at h
  split at h <;> first | exact ⟨rfl, fun _ ↦ rfl⟩ | cases h

theorem successors_of_test? {f : V → V → Bool} (h : m.test? op = some f) :
    (Instruction.abc op a b c).successors pc = [(pc : Int) + 1, (pc : Int) + 2] := by
  unfold Meaning.test? at h
  split at h <;> first | rfl | cases h

theorem update_of_writes {x : V} (hr : decide (r = a) = false) : Function.update ρ a x r = ρ r :=
  Function.update_of_ne (of_decide_eq_false hr) x ρ

theorem exec_next (h : exec m frame pc ρ i = some (.next s)) :
    (s.pc : Int) ∈ i.successors pc ∧ ∀ r, i.writes r = false → s.registers r = ρ r := by
  -- The cases are those of `exec`, in its order. The last one is for operators and comparisons.
  unfold exec at h
  split at h
  case h_1 =>
    cases h
    exact ⟨List.mem_singleton.mpr rfl, fun r hr ↦ update_of_writes hr⟩
  case h_2 | h_6 | h_8 =>
    obtain ⟨x, -, h⟩ := Option.bind_eq_some_iff.mp h
    cases h
    exact ⟨List.mem_singleton.mpr rfl, fun r hr ↦ update_of_writes hr⟩
  case h_3 =>
    split at h
    · obtain ⟨x, -, h⟩ := Option.bind_eq_some_iff.mp h
      cases h
      exact ⟨List.mem_singleton.mpr rfl, fun r hr ↦ update_of_writes hr⟩
    · cases h
  case h_4 =>
    cases h
    refine ⟨?_, fun r hr ↦ update_of_writes hr⟩
    simp only [Instruction.successors]
    split <;> simp
  case h_5 =>
    cases h
    exact ⟨List.mem_singleton.mpr rfl, fun r hr ↦ if_neg (of_decide_eq_false hr)⟩
  case h_7 =>
    obtain ⟨x, -, h⟩ := Option.bind_eq_some_iff.mp h
    obtain ⟨y, -, h⟩ := Option.bind_eq_some_iff.mp h
    cases h
    exact ⟨List.mem_singleton.mpr rfl, fun r hr ↦ update_of_writes hr⟩
  case h_9 =>
    obtain ⟨x, -, h⟩ := Option.bind_eq_some_iff.mp h
    cases h
    refine ⟨List.mem_singleton.mpr rfl, fun r hr ↦ ?_⟩
    exact Function.update_of_ne (fun h ↦ of_decide_eq_false hr (.inl h)) x ρ
  case h_10 =>
    simp only at h
    split at h
    case isTrue htarget =>
      cases h
      exact ⟨List.mem_singleton.mpr (Int.toNat_of_nonneg htarget), fun r _ ↦ rfl⟩
    case isFalse => cases h
  case h_11 =>
    split at h
    · cases h
      exact ⟨List.mem_cons_self, fun r hr ↦ update_of_writes hr⟩
    · cases h
      exact ⟨List.mem_cons_of_mem _ (List.mem_singleton.mpr rfl), fun r _ ↦ rfl⟩
  case h_12 =>
    split at h <;> cases h
  case h_13 =>
    split at h
    case h_1 hop =>
      obtain ⟨x, -, h⟩ := Option.bind_eq_some_iff.mp h
      obtain ⟨y, -, h⟩ := Option.bind_eq_some_iff.mp h
      cases h
      obtain ⟨hnext, hwrites⟩ := effect_of_arithmetic? pc hop
      rw [hnext]
      refine ⟨List.mem_singleton.mpr rfl, fun r hr ↦ ?_⟩
      rw [hwrites] at hr
      exact update_of_writes hr
    case h_2 hop =>
      obtain ⟨x, -, h⟩ := Option.bind_eq_some_iff.mp h
      obtain ⟨y, -, h⟩ := Option.bind_eq_some_iff.mp h
      cases h
      rw [successors_of_test? hop]
      refine ⟨?_, fun r _ ↦ rfl⟩
      split <;> simp
    case h_3 hop =>
      cases h
      obtain ⟨hnext, hwrites⟩ := effect_of_unary? pc hop
      rw [hnext]
      refine ⟨List.mem_singleton.mpr rfl, fun r hr ↦ ?_⟩
      rw [hwrites] at hr
      exact update_of_writes hr
    case h_4 => cases h
  case h_14 => cases h

end LuaLower.Machine
