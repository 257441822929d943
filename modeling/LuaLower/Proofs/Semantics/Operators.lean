import LuaLower.Proofs.Semantics.Evaluation
import LuaLower.Proofs.Semantics.Simulation

/-!
# Operations at work

The code of a binary operation runs the code of its right operand between that of its two halves, or
jumps past it. Whatever the kind of the operation, its value is left in the first register.
-/

namespace LuaLower.Machine

open OpenFunction

variable {V : Type} {m : Meaning V} {frame : Frame V} {ρ ρ' : Nat → V} {b pc : Nat}
  {f g h k : OpenFunction} {v v₂ : Value} {x y : V} {lo hi mid left right : Nat}

/-! ## Operands -/

theorem operand?_of_holds (hx : f.HoldsOperand left lo hi) (hlo : f.registers.numLocals ≤ lo)
    (hρ : ∀ r < hi, ρ' r = ρ r) : frame.operand? ρ' left = frame.operand? ρ left := by
  rcases hx with ⟨c, _, _, rfl, _⟩ | hr
  · simp [Frame.operand?, RK.isConstant_constant]
  · have hlt := hr.lt hlo
    simp only [Frame.operand?, hρ left hlt]

theorem Placed.registers_lt_256 {w : Value} (h : f.Placed v lo w g)
    (hv : f.Holds v lo f.registers.next) (hf : f.registers.Tidy)
    (hlo : f.registers.numLocals ≤ lo) : ∀ r ∈ w.registers, r < 256 := by
  have hnext := next_le_256 hf
  rcases h with ⟨rfl, _⟩ | ⟨rfl, _⟩
  · intro r hr
    exact (Holds.registers_lt hv hlo r hr).trans_le hnext
  · have hhigh := hf.next_le.trans hf.high_le
    have hle := hv.le
    rw [Registers.limit] at hhigh
    simp only [Value.registers, List.mem_singleton, forall_eq]
    omega

theorem steps_operand (h : f.PlacedOperand v lo left g) (hv : f.Holds v lo f.registers.next)
    (hf : f.registers.Tidy) (hlo : f.registers.numLocals ≤ lo) (hcode : frame.Follows b g)
    (hb : b ≤ f.proto.code.size) (hx : frame.value? m ρ v = some x) :
    ∃ ρ', Steps m frame ⟨f.proto.code.size, ρ⟩ ⟨g.proto.code.size, ρ'⟩ ∧
      (∀ r < lo, ρ' r = ρ r) ∧ frame.operand? ρ' left = some x := by
  obtain ⟨key, hkey, rfl, hplaced⟩ := h
  obtain ⟨ρ', hsteps, hkeep, hvalue⟩ := leads_placed hplaced hv hf hlo hcode hb hx
  have hsmall := Placed.registers_lt_256 hplaced hv hf hlo
  exact ⟨ρ', hsteps, hkeep, (operand?_rk hkey hsmall).trans hvalue⟩

/-! ## Single instructions -/

theorem arithmetic?_binary {op : BinaryOp} {opcode : Opcode} (hop : op.arithmetic? = some opcode) :
    ∃ fn, m.arithmetic? opcode = some fn ∧ ∀ x y, fn x y = m.binary op false x y := by
  cases op <;> cases hop <;> exact ⟨_, rfl, fun _ _ ↦ rfl⟩

theorem steps_arithmetic {op : BinaryOp} {opcode : Opcode} (hop : op.arithmetic? = some opcode)
    (hcode : frame.CodeAt pc [.abc opcode lo left right]) (hx : frame.operand? ρ left = some x)
    (hy : frame.operand? ρ right = some y) :
    Steps m frame ⟨pc, ρ⟩ ⟨pc + 1, Function.update ρ lo (m.binary op false x y)⟩ := by
  obtain ⟨fn, hfn, hvalue⟩ := arithmetic?_binary (m := m) hop
  rw [← hvalue]
  refine .of_exec hcode.head ?_
  cases op <;> cases hop <;> cases hfn <;> simp [exec, Meaning.arithmetic?, hx, hy]

theorem test?_comparison {op : BinaryOp} {test : Comparison} (hop : op.comparison? = some test)
    (joins : Bool) :
    ∃ fn, m.test? test.op = some fn ∧ ∀ x y, m.binary op joins x y =
      m.boolean (fn (if test.swapped then y else x) (if test.swapped then x else y) ==
        decide (test.holdsOn ≠ 0)) := by
  cases op <;> cases hop <;> exact ⟨_, rfl, fun _ _ ↦ by simp [Meaning.binary]⟩

theorem exec_test {op : BinaryOp} {test : Comparison} (hop : op.comparison? = some test)
    {fn : V → V → Bool} (hfn : m.test? test.op = some fn) (hx : frame.operand? ρ left = some x)
    (hy : frame.operand? ρ right = some y) :
    exec m frame pc ρ (.abc test.op test.holdsOn left right) =
      some (.next ⟨if fn x y = decide (test.holdsOn ≠ 0) then pc + 1 else pc + 2, ρ⟩) := by
  cases op <;> cases hop <;> cases hfn <;>
    simp [exec, Meaning.arithmetic?, Meaning.test?, hx, hy]

/-- The test is followed by a jump to the second load, and reaches the first one if it skips the
jump. -/
theorem steps_comparison {op : BinaryOp} {test : Comparison} (hop : op.comparison? = some test)
    (joins : Bool) (hcode : frame.CodeAt pc (test.code lo left right))
    (hx : frame.operand? ρ left = some x) (hy : frame.operand? ρ right = some y) :
    Steps m frame ⟨pc, ρ⟩ ⟨pc + 4, Function.update ρ lo (m.binary op joins x y)⟩ := by
  obtain ⟨fn, hfn, hvalue⟩ := test?_comparison (m := m) hop joins
  rw [hvalue]
  have htest : Steps m frame ⟨pc, ρ⟩
      ⟨if fn (if test.swapped then y else x) (if test.swapped then x else y) =
        decide (test.holdsOn ≠ 0) then pc + 1 else pc + 2, ρ⟩ := by
    refine .of_exec hcode.head ?_
    cases test.swapped
    · exact exec_test hop hfn hx hy
    · exact exec_test hop hfn hy hx
  have hjump := hcode.tail.head
  have hfirst := hcode.tail.tail.head
  have hsecond := hcode.tail.tail.tail.head
  by_cases houtcome : fn (if test.swapped then y else x) (if test.swapped then x else y) =
      decide (test.holdsOn ≠ 0)
  · rw [if_pos houtcome] at htest
    have hland : Steps m frame ⟨pc + 1, ρ⟩ ⟨pc + 3, ρ⟩ := by
      refine .of_exec hjump ?_
      have hnonneg : (0 : Int) ≤ ((pc + 1 : Nat) : Int) + 1 + 1 := by omega
      have htarget : (((pc + 1 : Nat) : Int) + 1 + 1).toNat = pc + 3 := by omega
      simp only [exec, if_pos hnonneg, htarget]
    have hload : Steps m frame ⟨pc + 3, ρ⟩ ⟨pc + 4, Function.update ρ lo (m.boolean true)⟩ := by
      exact .of_exec hsecond (by simp [exec])
    rw [houtcome, beq_self_eq_true]
    exact (htest.trans hland).trans hload
  · rw [if_neg houtcome] at htest
    have hload : Steps m frame ⟨pc + 2, ρ⟩ ⟨pc + 4, Function.update ρ lo (m.boolean false)⟩ := by
      exact .of_exec hfirst (by simp [exec])
    rw [beq_eq_false_iff_ne.mpr houtcome]
    exact htest.trans hload

/-! ## Whole operations -/

/-- What is known of the code for the right operand, which starts where the left one has been placed
and leads from `g` to `h`. -/
structure RightRun (m : Meaning V) (frame : Frame V) (g h : OpenFunction) (lo : Nat) (ρ : Nat → V)
    (v : Value) (y : V) : Prop where
  tidy : g.registers.Tidy
  tidy_after : h.registers.Tidy
  numLocals : g.registers.numLocals ≤ lo
  numLocals_after : h.registers.numLocals ≤ lo
  kept : Kept g.proto.code.size g h
  holds : h.Holds v g.registers.next h.registers.next
  leads : frame.Follows g.proto.code.size h → ∀ ρ₁ : Nat → V, (∀ r < lo, ρ₁ r = ρ r) →
    Leads m frame g h g.registers.next ρ₁ v y

/-- Both operands are placed, and the instructions that combine them come last. -/
theorem leads_operands {is : List Instruction} {h' : OpenFunction}
    (hrun : RightRun m frame g h lo ρ v₂ y) (hleft : f.PlacedOperand v lo left g)
    (hv : f.Holds v lo f.registers.next) (hf : f.registers.Tidy)
    (hlo : f.registers.numLocals ≤ lo) (hright : h.PlacedOperand v₂ g.registers.next right h')
    (hcode : frame.Follows b ((h'.downTo lo).taken.emit is)) (hb : b ≤ f.proto.code.size)
    (hx : frame.value? m ρ v = some x) {z : V}
    (his : ∀ ρ' : Nat → V, frame.CodeAt h'.proto.code.size is →
      frame.operand? ρ' left = some x → frame.operand? ρ' right = some y →
      Steps m frame ⟨h'.proto.code.size, ρ'⟩
        ⟨h'.proto.code.size + is.length, Function.update ρ' lo z⟩) :
    Leads m frame f ((h'.downTo lo).taken.emit is) lo ρ (.register lo) z := by
  have ⟨_, _, _, hrightPlaced⟩ := hright
  have ⟨_, _, _, hleftPlaced⟩ := hleft
  have hfollows' : frame.Follows b h' := Frame.Follows.of_emit (f := (h'.downTo lo).taken) hcode
  have hfollowsH : frame.Follows b h := hfollows'.of_kept hrightPlaced.kept
  have hfollowsG : frame.Follows b g := hfollowsH.of_kept hrun.kept
  have hbg : b ≤ g.proto.code.size := hb.trans hleftPlaced.kept.size_le
  have hbh : b ≤ h.proto.code.size := hbg.trans hrun.kept.size_le
  have hmid : lo ≤ g.registers.next := (hleft.holds hv).le
  -- The left operand stays in place while the right one is computed and placed.
  obtain ⟨ρ₁, hsteps₁, hkeep₁, hleft₁⟩ := steps_operand hleft hv hf hlo hfollowsG hb hx
  obtain ⟨ρ₂, hsteps₂, hkeep₂, hvalue₂⟩ := hrun.leads (hfollowsH.mono hbg) ρ₁ hkeep₁
  obtain ⟨ρ₃, hsteps₃, hkeep₃, hright₃⟩ := steps_operand hright hrun.holds hrun.tidy_after
    (hrun.numLocals_after.trans hmid) hfollows' hbh hvalue₂
  have hleft₃ : frame.operand? ρ₃ left = some x := by
    rw [operand?_of_holds (hleft.holds hv) hrun.numLocals
      (fun r hr ↦ (hkeep₃ r hr).trans (hkeep₂ r hr))]
    exact hleft₁
  have hat : frame.CodeAt h'.proto.code.size is :=
    Frame.Follows.codeAt (f := (h'.downTo lo).taken) hcode (hbh.trans hrightPlaced.kept.size_le)
  have hlast := his ρ₃ hat hleft₃ hright₃
  refine ⟨Function.update ρ₃ lo z, ?_, ?_, ?_⟩
  · have hsteps := ((hsteps₁.trans hsteps₂).trans hsteps₃).trans hlast
    simpa [OpenFunction.emit, taken, downTo] using hsteps
  · intro r hr
    rw [Function.update_of_ne hr.ne, hkeep₃ r (hr.trans_le hmid), hkeep₂ r (hr.trans_le hmid),
      hkeep₁ r hr]
  · simp [Frame.value?]

theorem leads_concat (hrun : RightRun m frame (f.loading v lo) h lo ρ v₂ y)
    (hv : f.Holds v lo f.registers.next) (hf : f.registers.Tidy)
    (hlo : f.registers.numLocals ≤ lo)
    (hcode : frame.Follows b (((h.loading v₂ (lo + 1)).downTo lo).taken.emit
      [.abc .concat lo lo (lo + 1)]))
    (hb : b ≤ f.proto.code.size) (hx : frame.value? m ρ v = some x) :
    Leads m frame f (((h.loading v₂ (lo + 1)).downTo lo).taken.emit [.abc .concat lo lo (lo + 1)])
      lo ρ (.register lo) (m.concat x y) := by
  have hleftPlaced : f.Placed v lo (.register lo) (f.loading v lo) := .inr ⟨rfl, rfl⟩
  have hrightPlaced : h.Placed v₂ (lo + 1) (.register (lo + 1)) (h.loading v₂ (lo + 1)) :=
    .inr ⟨rfl, rfl⟩
  have hfollows' : frame.Follows b (h.loading v₂ (lo + 1)) :=
    Frame.Follows.of_emit (f := ((h.loading v₂ (lo + 1)).downTo lo).taken) hcode
  have hfollowsH : frame.Follows b h := hfollows'.of_kept hrightPlaced.kept
  have hfollowsG : frame.Follows b (f.loading v lo) := hfollowsH.of_kept hrun.kept
  have hbg : b ≤ (f.loading v lo).proto.code.size := hb.trans hleftPlaced.kept.size_le
  have hbh : b ≤ h.proto.code.size := hbg.trans hrun.kept.size_le
  obtain ⟨ρ₁, hsteps₁, hkeep₁, hvalue₁⟩ := leads_placed hleftPlaced hv hf hlo hfollowsG hb hx
  obtain ⟨ρ₂, hsteps₂, hkeep₂, hvalue₂⟩ := hrun.leads (hfollowsH.mono hbg) ρ₁ hkeep₁
  obtain ⟨ρ₃, hsteps₃, hkeep₃, hvalue₃⟩ := leads_placed hrightPlaced hrun.holds hrun.tidy_after
    (Nat.le_succ_of_le hrun.numLocals_after) hfollows' hbh hvalue₂
  have hleft : ρ₃ lo = x := by
    rw [hkeep₃ lo (Nat.lt_succ_self lo), hkeep₂ lo (Nat.lt_succ_self lo)]
    exact Option.some.inj hvalue₁
  have hright : ρ₃ (lo + 1) = y := Option.some.inj hvalue₃
  have hat := Frame.Follows.codeAt (f := ((h.loading v₂ (lo + 1)).downTo lo).taken) hcode
    (hbh.trans hrightPlaced.kept.size_le)
  have hconcat : Steps m frame ⟨(h.loading v₂ (lo + 1)).proto.code.size, ρ₃⟩
      ⟨(h.loading v₂ (lo + 1)).proto.code.size + 1, Function.update ρ₃ lo (m.concat x y)⟩ := by
    refine .of_exec hat.head ?_
    have hrange : List.range' lo (lo + 1 + 1 - lo) = [lo, lo + 1] := by
      rw [show lo + 1 + 1 - lo = 2 by omega]
      rfl
    simp [exec, hrange, Meaning.concatAll, hleft, hright]
  refine ⟨Function.update ρ₃ lo (m.concat x y), ?_, ?_, ?_⟩
  · have hsteps := ((hsteps₁.trans hsteps₂).trans hsteps₃).trans hconcat
    simpa [OpenFunction.emit, taken, downTo] using hsteps
  · intro r hr
    rw [Function.update_of_ne hr.ne, hkeep₃ r (Nat.lt_succ_of_lt hr),
      hkeep₂ r (Nat.lt_succ_of_lt hr), hkeep₁ r hr]
  · simp [Frame.value?]

/-! ## Logical operators -/

theorem getElem?_landing {jump i : Nat} (hi : i ≠ jump) :
    (f.landing jump).proto.code[i]? = f.proto.code[i]? :=
  Array.getElem?_setIfInBounds_ne hi.symm

theorem size_landing (f : OpenFunction) (jump : Nat) :
    (f.landing jump).proto.code.size = f.proto.code.size := by
  simp [landing]

/-- Only the jump is not as it was when the right operand was lowered. -/
theorem Frame.Follows.of_landing {jump : Nat} (hcode : frame.Follows b (f.landing jump)) :
    frame.Follows (max b (jump + 1)) f := by
  intro i hi hsize
  rw [hcode i (by omega) (by rwa [size_landing]), getElem?_landing (by omega)]

theorem steps_landing {jump : Nat} (hcode : frame.Follows b (f.landing jump)) (hb : b ≤ jump)
    (hjump : jump < f.proto.code.size) :
    Steps m frame ⟨jump, ρ⟩ ⟨(f.landing jump).proto.code.size, ρ⟩ := by
  have hat : frame.code[jump]? = some (.asbx .jmp 0 (f.proto.code.size - jump - 1)) := by
    rw [hcode jump hb (by rwa [size_landing])]
    simp [landing, hjump]
  refine .of_exec hat ?_
  have hnonneg : (0 : Int) ≤ (jump : Int) + 1 + (f.proto.code.size - jump - 1) := by omega
  have htarget : ((jump : Int) + 1 + (f.proto.code.size - jump - 1)).toNat =
      f.proto.code.size := by omega
  simp only [exec, if_pos hnonneg, htarget, size_landing]

theorem binary_logical {op : BinaryOp} {decides : Nat} (hop : op.logical? = some decides)
    (joins : Bool) : m.binary op joins x y =
      if m.truthy x = decide (decides ≠ 0) then x else y := by
  cases op <;> cases hop <;> cases hx : m.truthy x <;> simp [Meaning.binary, hx]

/-- The code of a logical operator up to the right operand, which is skipped by the jump. -/
theorem leads_logical {op : BinaryOp} {decides src : Nat} {f' : OpenFunction} (joins : Bool)
    (hop : op.logical? = some decides) (hplaced : f.Placed v lo (.register src) f')
    (hg : g = (f'.downTo lo).taken.emit [.abc .testSet lo src decides, .asbx .jmp 0 0])
    (hrun : RightRun m frame g h lo ρ v₂ y) (hv : f.Holds v lo f.registers.next)
    (hf : f.registers.Tidy) (hlo : f.registers.numLocals ≤ lo)
    (hk : k = ((h.downTo (lo + 1)).emit (v₂.loadCode lo)).landing (f'.proto.code.size + 1))
    (hcode : frame.Follows b k) (hb : b ≤ f.proto.code.size)
    (hx : frame.value? m ρ v = some x) :
    Leads m frame f k lo ρ (.register lo) (m.binary op joins x y) := by
  have hnext : g.registers.next = lo + 1 := by
    rw [hg]
    rfl
  have hgsize : g.proto.code.size = f'.proto.code.size + 2 := by
    simp [hg, OpenFunction.emit, taken, downTo]
  have hhsize := hrun.kept.size_le
  have hbf' : b ≤ f'.proto.code.size := hb.trans hplaced.kept.size_le
  have hloaded : ((h.downTo (lo + 1)).emit (v₂.loadCode lo)).proto.code.size =
      h.proto.code.size + (v₂.loadCode lo).length := by
    simp [OpenFunction.emit, downTo]
  have hksize : k.proto.code.size = h.proto.code.size + (v₂.loadCode lo).length := by
    rw [hk, size_landing, hloaded]
  have hbefore : ∀ i < f'.proto.code.size + 1, k.proto.code[i]? = g.proto.code[i]? := by
    intro i hi
    have hih : i < h.proto.code.size := by omega
    rw [hk, getElem?_landing (by omega), ← hrun.kept.code i (by omega)]
    exact Array.getElem?_append_left hih
  have hfollows' : frame.Follows b f' := by
    refine hcode.of_agree (by omega) ?_
    intro i hi
    rw [hbefore i (by omega), hg]
    exact Array.getElem?_append_left hi
  have htest : frame.code[f'.proto.code.size]? = some (.abc .testSet lo src decides) := by
    rw [hcode _ hbf' (by omega), hbefore _ (by omega), hg]
    simp [OpenFunction.emit, taken, downTo]
  have hfollowsF : frame.Follows g.proto.code.size ((h.downTo (lo + 1)).emit (v₂.loadCode lo)) := by
    rw [hk] at hcode
    exact hcode.of_landing.mono (by omega)
  obtain ⟨ρ₁, hsteps₁, hkeep₁, hvalue₁⟩ := leads_placed hplaced hv hf hlo hfollows' hb hx
  have hsrc : ρ₁ src = x := Option.some.inj hvalue₁
  rw [binary_logical hop]
  by_cases hdecides : m.truthy x = decide (decides ≠ 0)
  · have hset : Steps m frame ⟨f'.proto.code.size, ρ₁⟩
        ⟨f'.proto.code.size + 1, Function.update ρ₁ lo x⟩ := by
      refine .of_exec htest ?_
      simp only [exec, hsrc, if_pos hdecides]
    have hjump : Steps m frame ⟨f'.proto.code.size + 1, Function.update ρ₁ lo x⟩
        ⟨k.proto.code.size, Function.update ρ₁ lo x⟩ := by
      rw [hk] at hcode ⊢
      exact steps_landing hcode (by omega) (by omega)
    rw [if_pos hdecides]
    refine ⟨Function.update ρ₁ lo x, (hsteps₁.trans hset).trans hjump, ?_, by simp [Frame.value?]⟩
    intro r hr
    rw [Function.update_of_ne hr.ne, hkeep₁ r hr]
  · have hskip : Steps m frame ⟨f'.proto.code.size, ρ₁⟩ ⟨g.proto.code.size, ρ₁⟩ := by
      refine .of_exec htest ?_
      simp only [exec, hsrc, if_neg hdecides, hgsize]
    have hfollowsH : frame.Follows g.proto.code.size h :=
      Frame.Follows.of_emit (f := h.downTo (lo + 1)) hfollowsF
    obtain ⟨ρ₂, hsteps₂, hkeep₂, hvalue₂⟩ := hrun.leads hfollowsH ρ₁ hkeep₁
    have hat := Frame.Follows.codeAt (f := h.downTo (lo + 1)) hfollowsF hhsize
    have hload : Steps m frame ⟨h.proto.code.size, ρ₂⟩
        ⟨k.proto.code.size, Function.update ρ₂ lo y⟩ := by
      rw [hksize]
      exact steps_load hrun.holds (by have := hrun.numLocals_after; omega)
        (next_le_256 hrun.tidy_after) hat hvalue₂
    rw [if_neg hdecides]
    refine ⟨Function.update ρ₂ lo y, ((hsteps₁.trans hskip).trans hsteps₂).trans hload, ?_,
      by simp [Frame.value?]⟩
    intro r hr
    rw [Function.update_of_ne hr.ne, hkeep₂ r (by omega), hkeep₁ r hr]

/-- The value of a binary operation, from the values of its operands. -/
theorem leads_binary {op : BinaryOp} {joins : Bool} {pending : Pending}
    (hjoins : joins = true → op = .add) (hbegun : f.Begun v lo op joins pending g)
    (hrun : RightRun m frame g h lo ρ v₂ y) (hv : f.Holds v lo f.registers.next)
    (hf : f.registers.Tidy) (hlo : f.registers.numLocals ≤ lo)
    (hfinished : h.Finished v₂ lo g.registers.next pending k) (hcode : frame.Follows b k)
    (hb : b ≤ f.proto.code.size) (hx : frame.value? m ρ v = some x) :
    Leads m frame f k lo ρ (.register lo) (m.binary op joins x y) := by
  cases pending with
  | logical dst jump =>
    obtain ⟨decides, src, f', hop, hplaced, rfl, rfl, hg⟩ := hbegun
    have hnext : g.registers.next = dst + 1 := by
      rw [hg]
      rfl
    have hk : k = ((h.downTo (dst + 1)).emit (v₂.loadCode dst)).landing
        (f'.proto.code.size + 1) := by
      rw [← hnext]
      exact hfinished
    exact leads_logical joins hop hplaced hg hrun hv hf hlo hk hcode hb hx
  | comparison test left =>
    obtain ⟨_, hop, hleft⟩ := hbegun
    obtain ⟨right, h', hright, rfl⟩ := hfinished
    exact leads_operands hrun hleft hv hf hlo hright hcode hb hx
      fun ρ' hat hx hy ↦ steps_comparison hop joins hat hx hy
  | concat left =>
    obtain ⟨_, _, rfl, rfl, rfl⟩ := hbegun
    obtain rfl := hjoins rfl
    subst hfinished
    exact leads_concat hrun hv hf hlo hcode hb hx
  | arithmetic opcode left =>
    obtain ⟨_, _, rfl, hop, hleft⟩ := hbegun
    obtain ⟨right, h', hright, rfl⟩ := hfinished
    exact leads_operands hrun hleft hv hf hlo hright hcode hb hx
      fun ρ' hat hx hy ↦ steps_arithmetic hop hat hx hy

end LuaLower.Machine
