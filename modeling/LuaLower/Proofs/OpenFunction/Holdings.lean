import LuaLower.OpenFunction.Placement
import LuaLower.Proofs.OpenFunction.Growth

/-!
# What values hold

A value holds the temporaries in which its parts wait: `f.Holds v lo hi` says that they are the
registers from `lo` up to `hi`, the table of a pending member access below its key, and that all
else the value names is there in `f`. The same is said of single registers and of operands.
-/

namespace LuaLower

namespace Value

/-- What instructions can index. -/
def IsTable : Value → Prop
  | .register _ | .upvalue _ => True
  | _ => False

/-- What instructions can use as a key without loading it. -/
def IsKey : Value → Prop
  | .register _ => True
  | .constant k => k ≤ RK.maxIndex
  | _ => False

/-- The operand for a value that can be a key. -/
def rk : Value → Nat
  | .register r => r
  | .constant k => RK.constant k
  | _ => 0

/-- The code that loads a value into a register. -/
def loadCode (dst : Nat) : Value → List Instruction
  | .register r => if r = dst then [] else [.abc .move dst r 0]
  | .constant k =>
    if k ≤ Field.bx.limit then [.abx .loadK dst k] else [.abx .loadKX dst 0, .ax .extraArg k]
  | .upvalue u => [.abc .getUpval dst u 0]
  | .member (.register t) key => [.abc .getTable dst t key.rk]
  | .member (.upvalue u) key => [.abc .getTabUp dst u key.rk]
  | .member _ _ => []

/-- The registers that a value names, those of the table of a member access first. -/
def registers : Value → List Nat
  | .register r => [r]
  | .member owner key => owner.registers ++ key.registers
  | _ => []

/-- The registers that a value names, without those of the locals. -/
def temporaries (numLocals : Nat) (v : Value) : List Nat := v.registers.filter (numLocals ≤ ·)

theorem operand_eq {v : Value} (h : v.IsKey) : v.operand = .ok v.rk := by
  cases v with
  | register r => rfl
  | constant k => simp only [operand, rk, if_pos (show k ≤ RK.maxIndex from h)]
  | upvalue u => exact h.elim
  | member owner key => exact h.elim

end Value

namespace OpenFunction

/-- A register is that of a local, and nothing is held, or it is the one temporary that is held. -/
def HoldsRegister (f : OpenFunction) (r lo hi : Nat) : Prop :=
  r < f.registers.numLocals ∧ hi = lo ∨ r = lo ∧ hi = lo + 1

def HoldsOperand (f : OpenFunction) (x lo hi : Nat) : Prop :=
  (∃ k, k < f.proto.constants.size ∧ k ≤ RK.maxIndex ∧ x = RK.constant k ∧ hi = lo) ∨
    f.HoldsRegister x lo hi

def Holds (f : OpenFunction) : Value → Nat → Nat → Prop
  | .register r, lo, hi => f.HoldsRegister r lo hi
  | .constant k, lo, hi => k < f.proto.constants.size ∧ hi = lo
  | .upvalue u, lo, hi => u < f.proto.upvalues.length ∧ hi = lo
  | .member owner key, lo, hi =>
    owner.IsTable ∧ key.IsKey ∧ ∃ mid, f.Holds owner lo mid ∧ f.Holds key mid hi

variable {f g : OpenFunction} {v : Value} {x r lo mid hi : Nat}

/-- All that values and operands can name in `f` is in `g` as well. -/
structure Within (f g : OpenFunction) : Prop where
  numLocals : g.registers.numLocals = f.registers.numLocals
  constants : f.proto.constants.size ≤ g.proto.constants.size
  upvalues : f.proto.upvalues.length ≤ g.proto.upvalues.length
  high : f.registers.high ≤ g.registers.high

theorem Within.trans {h : OpenFunction} (hfg : Within f g) (hgh : Within g h) : Within f h where
  numLocals := hgh.numLocals.trans hfg.numLocals
  constants := hfg.constants.trans hgh.constants
  upvalues := hfg.upvalues.trans hgh.upvalues
  high := hfg.high.trans hgh.high

theorem HoldsRegister.within (h : f.HoldsRegister r lo hi) (hfg : Within f g) :
    g.HoldsRegister r lo hi := by
  rwa [HoldsRegister, hfg.numLocals]

theorem HoldsRegister.le (h : f.HoldsRegister r lo hi) : lo ≤ hi := by
  rcases h with ⟨_, h⟩ | ⟨_, h⟩ <;> omega

theorem HoldsRegister.lt (h : f.HoldsRegister r lo hi) (hlo : f.registers.numLocals ≤ lo) :
    r < hi := by
  rcases h with ⟨_, h⟩ | ⟨_, h⟩ <;> omega

theorem HoldsOperand.within (h : f.HoldsOperand x lo hi) (hfg : Within f g) :
    g.HoldsOperand x lo hi := by
  rcases h with ⟨k, hk, hrest⟩ | hr
  · exact .inl ⟨k, hk.trans_le hfg.constants, hrest⟩
  · exact .inr (hr.within hfg)

theorem HoldsOperand.le (h : f.HoldsOperand x lo hi) : lo ≤ hi := by
  rcases h with ⟨k, _, _, _, h⟩ | hr
  · omega
  · exact hr.le

theorem Holds.within (h : f.Holds v lo hi) (hfg : Within f g) : g.Holds v lo hi := by
  induction v generalizing lo hi with
  | register r => exact HoldsRegister.within h hfg
  | constant k => exact ⟨h.1.trans_le hfg.constants, h.2⟩
  | upvalue u => exact ⟨h.1.trans_le hfg.upvalues, h.2⟩
  | member owner key ihOwner ihKey =>
    obtain ⟨hTable, hKey, mid, hOwner, hHolds⟩ := h
    exact ⟨hTable, hKey, mid, ihOwner hOwner, ihKey hHolds⟩

theorem Holds.le (h : f.Holds v lo hi) : lo ≤ hi := by
  induction v generalizing lo hi with
  | register r => exact HoldsRegister.le h
  | constant k => exact h.2.ge
  | upvalue u => exact h.2.ge
  | member owner key ihOwner ihKey =>
    obtain ⟨_, _, mid, hOwner, hHolds⟩ := h
    exact (ihOwner hOwner).trans (ihKey hHolds)

/-- A value that can be a key is an operand that holds the same. -/
theorem Holds.operand (h : f.Holds v lo hi) (hkey : v.IsKey) : f.HoldsOperand v.rk lo hi := by
  cases v with
  | register r => exact .inr h
  | constant k => exact .inl ⟨k, h.1, hkey, rfl, h.2⟩
  | upvalue u => exact hkey.elim
  | member owner key => exact hkey.elim

/-- The temporaries that a value names are those it is said to hold, in ascending order. -/
theorem Holds.temporaries (h : f.Holds v lo hi) (hlo : f.registers.numLocals ≤ lo) :
    v.temporaries f.registers.numLocals = List.range' lo (hi - lo) := by
  rw [Value.temporaries]
  induction v generalizing lo hi with
  | register r =>
    rcases h with ⟨hr, rfl⟩ | ⟨rfl, rfl⟩
    · simp [Value.registers, hr]
    · simp [Value.registers, hlo]
  | constant k =>
    obtain ⟨_, rfl⟩ := h
    simp [Value.registers]
  | upvalue u =>
    obtain ⟨_, rfl⟩ := h
    simp [Value.registers]
  | member owner key ihOwner ihKey =>
    obtain ⟨_, _, mid, hOwner, hKey⟩ := h
    have hlomid := hOwner.le
    have hmidhi := hKey.le
    have hrange := List.range'_append_1 (s := lo) (m := mid - lo) (n := hi - mid)
    rw [Value.registers, List.filter_append, ihOwner hOwner hlo, ihKey hKey (hlo.trans hlomid)]
    rw [show lo + (mid - lo) = mid by omega] at hrange
    rw [hrange, show mid - lo + (hi - mid) = hi - lo by omega]

/-! ## Operands of instructions -/

theorem HoldsRegister.lt_high (h : f.HoldsRegister r lo hi) (hf : f.registers.Tidy)
    (hhi : hi ≤ f.registers.high) : r < f.registers.high := by
  have hlocals := hf.numLocals_le.trans hf.next_le
  rcases h with ⟨hr, _⟩ | ⟨hr, hhi'⟩ <;> omega

/-- What an operand names is there: a register that has been taken or a constant of the pool. -/
structure OperandFits (f : OpenFunction) (x : Nat) : Prop where
  registers : ∀ r ∈ RK.registers x, r < f.registers.high
  constants : ∀ k ∈ RK.constants x, k < f.proto.constants.size

theorem HoldsOperand.fits (h : f.HoldsOperand x lo hi) (hf : f.registers.Tidy)
    (hhi : hi ≤ f.registers.high) : f.OperandFits x := by
  rcases h with ⟨k, hk, hindex, rfl, _⟩ | hr
  · exact ⟨by simp, by simpa [RK.constants_constant hindex] using hk⟩
  · have hlt := hr.lt_high hf hhi
    have hlimit := hf.high_le
    have hsmall : x < 256 := by
      rw [Registers.limit] at hlimit
      omega
    refine ⟨?_, ?_⟩
    · simpa [RK.registers_register hsmall] using hlt
    · simp [RK.constants_register hsmall]

end OpenFunction

/-- An instruction whose last two fields are operands. -/
theorem Instruction.Fits.of_operands {i : Instruction} {f : OpenFunction} {x y : Nat}
    {rs : List Nat} (hx : f.OperandFits x) (hy : f.OperandFits y)
    (hrs : ∀ r ∈ rs, r < f.registers.high)
    (hregisters : i.registers = rs ++ (RK.registers x ++ RK.registers y))
    (hconstants : i.constants = RK.constants x ++ RK.constants y)
    (hupvalues : ∀ u ∈ i.upvalues, u < f.proto.upvalues.length) (hclosures : i.closures = []) :
    i.Fits f := by
  refine ⟨?_, ?_, hupvalues, hclosures⟩
  · intro r hr
    rw [hregisters, List.mem_append, List.mem_append] at hr
    rcases hr with hr | hr | hr
    · exact hrs r hr
    · exact hx.registers r hr
    · exact hy.registers r hr
  · intro k hk
    rw [hconstants, List.mem_append] at hk
    rcases hk with hk | hk
    · exact hx.constants k hk
    · exact hy.constants k hk

/-- An instruction that names registers only. -/
theorem Instruction.Fits.of_registers {i : Instruction} {f : OpenFunction}
    (h : ∀ r ∈ i.registers, r < f.registers.high) (hconstants : i.constants = [])
    (hupvalues : i.upvalues = []) (hclosures : i.closures = []) : i.Fits f :=
  ⟨h, by simp [hconstants], by simp [hupvalues], hclosures⟩

end LuaLower
