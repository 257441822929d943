import LuaLower.Proofs.OpenFunction.Holdings
import LuaLower.Proofs.Outcome

/-!
# Primitive steps as changes

On tidy registers each primitive step is one of the changes that make up growth. Releasing a value
goes back to the first register that it holds, and loading one emits its code.
-/

namespace LuaLower

open OpenFunction

variable {f g h : OpenFunction}

namespace Build

theorem push_apply (i : Instruction) (f : OpenFunction) : push i f = .ok () (f.emit [i]) := by
  simp only [push, OpenFunction.emit, ← Array.push_eq_append]
  rfl

theorem here_apply (f : OpenFunction) : here f = .ok f.proto.code.size f := rfl

theorem pushTest_apply (op : Opcode) (a b c : Nat) (offset : Int) (f : OpenFunction) :
    pushTest op a b c offset f =
      .ok (f.proto.code.size + 1) (f.emit [.abc op a b c, .asbx .jmp 0 offset]) := by
  rw [pushTest, bind_of_ok (push_apply _ _), bind_of_ok (here_apply _),
    bind_of_ok (push_apply _ _), emit_emit]
  simp only [OpenFunction.emit, Array.size_append]
  rfl

theorem landJump_apply (jump : Nat) (f : OpenFunction) :
    landJump jump f = .ok () (f.landing jump) := rfl

theorem constantIndex_apply (k : Constant) (f : OpenFunction) :
    constantIndex k f = .ok (f.proto.constants.insert k).1 (f.intern k) := rfl

theorem takeRegister_of_lt (hf : f.registers.Tidy) (hlimit : f.registers.next < Registers.limit) :
    takeRegister f = .ok f.registers.next f.taken := by
  have htake : f.taken = { f with registers := f.registers.take } := by
    rw [hf.take_eq hlimit]
    rfl
  rw [takeRegister, get_bind, if_pos hlimit, htake]
  rfl

theorem takeRegister_of_le (hlimit : Registers.limit ≤ f.registers.next) :
    takeRegister f = .error (.unimplemented .registerLimit) f := by
  rw [takeRegister, get_bind, if_neg (Nat.not_lt.mpr hlimit)]
  rfl

theorem releaseDownTo_apply (hf : f.registers.Tidy) {m : Nat} (hm : f.registers.numLocals ≤ m)
    (hnext : m ≤ f.registers.next) : releaseDownTo m f = .ok () (f.downTo m) := by
  have hrelease : f.downTo m = { f with registers := f.registers.releaseDownTo m } := by
    rw [hf.releaseDownTo_eq hm hnext]
    rfl
  rw [hrelease]
  rfl

theorem bindLocal_apply (hf : f.registers.Tidy) (name : String) (isConst : Bool)
    (hnext : f.registers.next = f.registers.numLocals + 1) :
    bindLocal name f.registers.numLocals isConst f = .ok () (f.binding name isConst) := by
  have hbind : f.binding name isConst =
      { f with registers := f.registers.bind name f.registers.numLocals isConst } := by
    rw [hf.bind_eq name isConst hnext]
    rfl
  rw [hbind]
  rfl

theorem settle_apply (hf : f.registers.Tidy) (hnext : f.registers.next = f.registers.numLocals) :
    settle f = .ok () f := by
  have hsettle : f = { f with registers := f.registers.settle } := by
    rw [hf.settle_eq hnext]
  conv_rhs => rw [hsettle]
  rfl

/-! ## Releasing -/

theorem release_local {r : Nat} (hr : r < f.registers.numLocals) : release r f = .ok () f := by
  have hrelease : f = { f with registers := f.registers.release r } := by
    rw [Registers.release_of_lt hr]
  conv_rhs => rw [hrelease]
  rfl

theorem release_temporary (hf : f.registers.Tidy) {r : Nat} (hr : f.registers.numLocals ≤ r)
    (hnext : f.registers.next = r + 1) : release r f = .ok () (f.downTo r) := by
  have hrelease : f.downTo r = { f with registers := f.registers.release r } := by
    rw [hf.release_eq hr hnext]
    rfl
  rw [hrelease]
  rfl

section Releasing

variable {v : Value} {x y r q lo mid : Nat}

theorem release_eq (hf : f.registers.Tidy) (hlo : f.registers.numLocals ≤ lo)
    (hr : f.HoldsRegister r lo f.registers.next) : release r f = .ok () (f.downTo lo) := by
  rcases hr with ⟨hr, rfl⟩ | ⟨rfl, hnext⟩
  · exact release_local hr
  · exact release_temporary hf hlo hnext

theorem releaseBoth_eq (hf : f.registers.Tidy) (hlo : f.registers.numLocals ≤ lo)
    (hr : f.HoldsRegister r lo mid) (hq : f.HoldsRegister q mid f.registers.next) :
    releaseBoth r q f = .ok () (f.downTo lo) := by
  have hlomid := hr.le
  have hmid := hq.le
  rcases le_total r q with hrq | hqr
  · rw [releaseBoth, max_eq_right hrq, min_eq_left hrq,
      bind_of_ok (release_eq hf (hlo.trans hlomid) hq)]
    exact release_eq (f := f.downTo mid) (hf.lower (hlo.trans hlomid) hmid) hlo hr
  -- Only a local stands below a temporary that was taken before.
  · have hlocal : q < f.registers.numLocals ∧ f.registers.next = mid := by
      rcases hq with hq | ⟨rfl, hq⟩
      · exact hq
      · rcases hr with ⟨hr, _⟩ | ⟨rfl, _⟩ <;> omega
    obtain ⟨hlocal, rfl⟩ := hlocal
    rw [releaseBoth, max_eq_left hqr, min_eq_right hqr, bind_of_ok (release_eq hf hlo hr)]
    exact release_local (f := f.downTo lo) hlocal

theorem releaseValue_eq (hf : f.registers.Tidy) (hlo : f.registers.numLocals ≤ lo)
    (hv : f.Holds v lo f.registers.next) : releaseValue v f = .ok () (f.downTo lo) := by
  cases v with
  | register r => exact release_eq hf hlo hv
  | constant k =>
    obtain ⟨_, rfl⟩ := hv
    rfl
  | upvalue u =>
    obtain ⟨_, rfl⟩ := hv
    rfl
  | member owner key =>
    obtain ⟨hTable, hKey, mid, hOwner, hHolds⟩ := hv
    cases owner with
    | register t =>
      cases key with
      | register r => exact releaseBoth_eq hf hlo hOwner hHolds
      | constant k =>
        obtain ⟨_, rfl⟩ := hHolds
        exact release_eq hf hlo hOwner
      | upvalue u => exact hKey.elim
      | member _ _ => exact hKey.elim
    | upvalue u =>
      obtain ⟨_, rfl⟩ := hOwner
      cases key with
      | register r => exact release_eq hf hlo hHolds
      | constant k =>
        obtain ⟨_, rfl⟩ := hHolds
        rfl
      | upvalue u => exact hKey.elim
      | member _ _ => exact hKey.elim
    | constant k => exact hTable.elim
    | member _ _ => exact hTable.elim

theorem isConstant_eq_false (hf : f.registers.Tidy) (hlo : f.registers.numLocals ≤ lo)
    (hr : f.HoldsRegister r lo mid) (hmid : mid ≤ f.registers.next) :
    RK.isConstant r = false := by
  have hlt := hr.lt hlo
  have hnext := hf.next_le
  have hlimit := hf.high_le
  apply RK.not_isConstant
  rw [Registers.limit] at hlimit
  omega

theorem releaseOperand_eq (hf : f.registers.Tidy) (hlo : f.registers.numLocals ≤ lo)
    (hx : f.HoldsOperand x lo f.registers.next) : releaseOperand x f = .ok () (f.downTo lo) := by
  rcases hx with ⟨k, _, _, rfl, rfl⟩ | hx
  · rw [releaseOperand, if_pos (RK.isConstant_constant k)]
    rfl
  · rw [releaseOperand, isConstant_eq_false hf hlo hx (le_refl _), if_neg Bool.false_ne_true]
    exact release_eq hf hlo hx

theorem releaseOperands_eq (hf : f.registers.Tidy) (hlo : f.registers.numLocals ≤ lo)
    (hx : f.HoldsOperand x lo mid) (hy : f.HoldsOperand y mid f.registers.next) :
    releaseOperands x y f = .ok () (f.downTo lo) := by
  have hmid := hlo.trans hx.le
  rcases hx with ⟨k, _, _, rfl, rfl⟩ | hx
  · rw [releaseOperands, if_pos (RK.isConstant_constant k)]
    exact releaseOperand_eq hf hlo hy
  · have hx' := isConstant_eq_false hf hlo hx hy.le
    rcases hy with ⟨k, _, _, rfl, rfl⟩ | hy
    · rw [releaseOperands, hx', if_neg Bool.false_ne_true, if_pos (RK.isConstant_constant k)]
      exact release_eq hf hlo hx
    · have hy' := isConstant_eq_false hf hmid hy (le_refl _)
      rw [releaseOperands, hx', hy', if_neg Bool.false_ne_true, if_neg Bool.false_ne_true]
      exact releaseBoth_eq hf hlo hx hy

theorem releaseOperands_comm (x y : Nat) : releaseOperands x y = releaseOperands y x := by
  cases hx : RK.isConstant x <;> cases hy : RK.isConstant y <;>
    simp [releaseOperands, releaseOperand, releaseBoth, hx, hy, max_comm, min_comm]

end Releasing

/-! ## Loading -/

theorem load_eq {v : Value} {lo hi : Nat} (hv : f.Holds v lo hi) (dst : Nat) (g : OpenFunction) :
    load v dst g = .ok () (g.emit (v.loadCode dst)) := by
  cases v with
  | register r =>
    simp only [load, Value.loadCode]
    split
    · rw [emit_nil]
      rfl
    · exact push_apply _ g
  | constant k =>
    simp only [load, loadFromPool, Value.loadCode]
    split
    · exact push_apply _ g
    · rw [bind_of_ok (push_apply _ g), push_apply, emit_emit]
      rfl
  | upvalue u => exact push_apply _ g
  | member owner key =>
    obtain ⟨hTable, hKey, _⟩ := hv
    have hoperand : (MonadExcept.ofExcept key.operand : Build Nat) g = .ok key.rk g := by
      rw [Value.operand_eq hKey]
      rfl
    simp only [load]
    rw [bind_of_ok hoperand]
    cases owner with
    | register t => exact push_apply _ g
    | upvalue u => exact push_apply _ g
    | constant k => exact hTable.elim
    | member _ _ => exact hTable.elim

end Build

end LuaLower
