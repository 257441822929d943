import LuaLower.Proofs.OpenFunction.Emission

/-!
# Binary operations build

Between its two halves a binary operation waits with its left operand placed. The right operand is
lowered above it, and the result takes the first register of the two.
-/

namespace LuaLower

open OpenFunction Build

variable {Nested : ParamTree → Prototype → Prop} {b : Nat} {f g : OpenFunction} {v : Value}
  {x y lo mid hi dst : Nat}

/-! ## Instructions with two operands -/

theorem fits_arithmetic {o : BinaryOp} {op : Opcode} (ho : o.arithmetic? = some op)
    (hx : f.OperandFits x) (hy : f.OperandFits y) (hdst : dst < f.registers.high) :
    (Instruction.abc op dst x y).Fits f := by
  have hrs : ∀ r ∈ [dst], r < f.registers.high := by simpa using hdst
  cases o <;> cases ho <;>
    exact .of_operands hx hy hrs rfl rfl (List.forall_mem_nil _) rfl

theorem fits_comparison {o : BinaryOp} {test : Comparison} (ho : o.comparison? = some test)
    (hx : f.OperandFits x) (hy : f.OperandFits y) :
    (Instruction.abc test.op test.holdsOn x y).Fits f := by
  have hrs : ∀ r ∈ [], r < f.registers.high := by simp
  cases o <;> cases ho <;>
    exact .of_operands hx hy hrs rfl rfl (List.forall_mem_nil _) rfl

theorem fits_jump (f : OpenFunction) (offset : Int) : (Instruction.asbx .jmp 0 offset).Fits f :=
  .of_registers (List.forall_mem_nil _) rfl rfl rfl

/-! ## The left operand -/

def OpenFunction.HoldsPending (f : OpenFunction) (b : Nat) : Pending → Nat → Nat → Prop
  | .logical dst jump, lo, hi =>
    dst = lo ∧ hi = lo + 1 ∧ b ≤ jump ∧ f.proto.code[jump]? = some (.asbx .jmp 0 0)
  | .comparison test left, lo, hi =>
    (∃ o : BinaryOp, o.comparison? = some test) ∧ f.HoldsOperand left lo hi
  | .concat left, lo, hi => left = lo ∧ hi = lo + 1
  | .arithmetic op left, lo, hi =>
    (∃ o : BinaryOp, o.arithmetic? = some op) ∧ f.HoldsOperand left lo hi

theorem OpenFunction.HoldsPending.le {pending : Pending} (h : f.HoldsPending b pending lo hi) :
    lo ≤ hi := by
  cases pending with
  | logical dst jump => exact h.2.1 ▸ Nat.le_succ lo
  | comparison test left => exact h.2.le
  | concat left => exact h.2 ▸ Nat.le_succ lo
  | arithmetic op left => exact h.2.le

/-- A pending operation is not disturbed by what is lowered after it. -/
theorem OpenFunction.HoldsPending.extends {pending : Pending} {ts : List ParamTree}
    (h : f.HoldsPending b pending lo hi) (hfg : Extends Nested f.proto.code.size f ts g) :
    g.HoldsPending b pending lo hi := by
  cases pending with
  | logical dst jump =>
    obtain ⟨hdst, hhi, hb, hcode⟩ := h
    have hjump : jump < f.proto.code.size := (Array.getElem?_eq_some_iff.mp hcode).1
    have hkept := (hfg.kept (le_refl _)).code jump hjump
    exact ⟨hdst, hhi, hb, hkept.trans hcode⟩
  | comparison test left => exact ⟨h.1, h.2.within hfg.within⟩
  | concat left => exact h
  | arithmetic op left => exact ⟨h.1, h.2.within hfg.within⟩

/-- What has happened when the left operand `v` has been placed. -/
def OpenFunction.Begun (f : OpenFunction) (v : Value) (lo : Nat) (op : BinaryOp) (isString : Bool) :
    Pending → OpenFunction → Prop
  | .logical dst jump, g => ∃ decides src h, op.logical? = some decides ∧
    f.Placed v lo (.register src) h ∧ dst = lo ∧ jump = h.proto.code.size + 1 ∧
    g = (h.downTo lo).taken.emit [.abc .testSet lo src decides, .asbx .jmp 0 0]
  | .comparison test left, g =>
    op.logical? = none ∧ op.comparison? = some test ∧ f.PlacedOperand v lo left g
  | .concat left, g => op.logical? = none ∧ op.comparison? = none ∧ isString = true ∧ left = lo ∧
    g = f.loading v lo
  | .arithmetic opcode left, g => op.logical? = none ∧ op.comparison? = none ∧ isString = false ∧
    op.arithmetic? = some opcode ∧ f.PlacedOperand v lo left g

theorem builds_beginLogical {op : BinaryOp} (isString : Bool) {decides : Nat}
    (hop : op.logical? = some decides) (hlo : f.registers.numLocals ≤ lo)
    (hv : f.Holds v lo f.registers.next) :
    Builds Nested b (beginLogical decides v) f
      (fun pending g ↦ f.Begun v lo op isString pending g ∧
        g.HoldsPending b pending lo g.registers.next) := by
  refine (builds_inRegister hlo hv).bind ?_
  intro src g hfg hplaced
  refine .assuming fun hg hb ↦ ?_
  have hlog : g.registers.numLocals ≤ lo := hfg.numLocals.trans_le hlo
  have hsrc : g.HoldsRegister src lo g.registers.next := hplaced.holds hv
  refine .replace [.abc .testSet lo src decides, .asbx .jmp 0 0]
    (a := .logical lo (g.proto.code.size + 1)) (fun hg ↦ release_eq hg hlog hsrc) hlog hsrc.le
    (bind_of_ok (pushTest_apply _ _ _ _ _ _)) ?_ ?_ ⟨?_, ?_⟩
  · intro h hh hwithin hnext hdst
    have hlt := (hsrc.within hwithin).lt_high hh hnext
    have hboth : ∀ r ∈ [lo, src], r < h.registers.high := by simp [hdst, hlt]
    simp only [List.forall_mem_cons]
    exact ⟨.of_registers hboth rfl rfl rfl, fits_jump _ _, List.forall_mem_nil _⟩
  · exact fun _ ↦ .inr ⟨_, List.mem_cons_self, List.mem_cons_self⟩
  · exact ⟨decides, src, g, hop, hplaced, rfl, rfl, rfl⟩
  · refine ⟨rfl, rfl, hb.trans (Nat.le_succ _), ?_⟩
    simp [OpenFunction.emit, taken, downTo]

theorem builds_beginBinary (op : BinaryOp) (isString : Bool) (hlo : f.registers.numLocals ≤ lo)
    (hv : f.Holds v lo f.registers.next) :
    Builds Nested b (beginBinary op isString v) f
      (fun pending g ↦ f.Begun v lo op isString pending g ∧
        g.HoldsPending b pending lo g.registers.next) := by
  rw [beginBinary]
  cases hlogical : op.logical? with
  | some decides => exact builds_beginLogical isString hlogical hlo hv
  | none =>
    cases hcomparison : op.comparison? with
    | some test =>
      refine (builds_toOperand hlo hv).bind ?_
      intro x g _ hx
      exact .pure ⟨⟨hlogical, hcomparison, hx⟩, ⟨op, hcomparison⟩, hx.holds hv⟩
    | none =>
      cases isString with
      | true =>
        refine (builds_inNewRegister hlo hv).bind ?_
        rintro r g _ ⟨rfl, rfl⟩
        exact .pure ⟨⟨hlogical, hcomparison, rfl, rfl, rfl⟩, rfl, rfl⟩
      | false =>
        cases harithmetic : op.arithmetic? with
        | some opcode =>
          refine (builds_toOperand hlo hv).bind ?_
          intro x g _ hx
          exact .pure
            ⟨⟨hlogical, hcomparison, rfl, harithmetic, hx⟩, ⟨op, harithmetic⟩, hx.holds hv⟩
        | none => exact .throw

/-! ## The right operand and the result -/

/-- The code of a comparison: one of the two loads skips the other. -/
def Comparison.code (test : Comparison) (dst left right : Nat) : List Instruction :=
  [if test.swapped then .abc test.op test.holdsOn right left
    else .abc test.op test.holdsOn left right,
    .asbx .jmp 0 1, .abc .loadBool dst 0 1, .abc .loadBool dst 1 0]

theorem pushComparison_apply (test : Comparison) (dst left right : Nat) (f : OpenFunction) :
    pushComparison test dst left right f = .ok () (f.emit (test.code dst left right)) := by
  cases hswapped : test.swapped <;>
    simp only [pushComparison, hswapped, Bool.false_eq_true, if_true, if_false] <;>
    rw [bind_of_ok (pushTest_apply _ _ _ _ _ _), bind_of_ok (push_apply _ _), push_apply,
      emit_emit, emit_emit] <;>
    simp [Comparison.code, hswapped]

theorem fits_loadBool (hdst : dst < f.registers.high) (value skip : Nat) :
    (Instruction.abc .loadBool dst value skip).Fits f :=
  .of_registers (List.forall_mem_singleton.mpr hdst) rfl rfl rfl

/-- What has happened when the operation is complete, with the right operand `v`. The result is in
register `lo`, and `mid` is the first register after those of the left operand. -/
def OpenFunction.Finished (f : OpenFunction) (v : Value) (lo mid : Nat) :
    Pending → OpenFunction → Prop
  | .logical _ jump, g => g = ((f.downTo mid).emit (v.loadCode lo)).landing jump
  | .comparison test left, g => ∃ right h, f.PlacedOperand v mid right h ∧
    g = (h.downTo lo).taken.emit (test.code lo left right)
  | .concat _, g => g = ((f.loading v mid).downTo lo).taken.emit [.abc .concat lo lo mid]
  | .arithmetic op left, g => ∃ right h, f.PlacedOperand v mid right h ∧
    g = (h.downTo lo).taken.emit [.abc op lo left right]

theorem OpenFunction.Finished.next_eq {pending : Pending} (h : f.Finished v lo mid pending g)
    (hpending : f.HoldsPending b pending lo mid) : g.registers.next = lo + 1 := by
  cases pending with
  | logical dst jump =>
    obtain ⟨_, hmid, _⟩ := hpending
    rw [h]
    exact hmid
  | comparison test left =>
    obtain ⟨right, h, _, rfl⟩ := h
    rfl
  | concat left =>
    rw [h]
    rfl
  | arithmetic op left =>
    obtain ⟨right, h, _, rfl⟩ := h
    rfl

theorem builds_finishLogical {jump : Nat} (hlo : f.registers.numLocals ≤ lo) (hb : b ≤ jump)
    (hcode : f.proto.code[jump]? = some (.asbx .jmp 0 0))
    (hv : f.Holds v (lo + 1) f.registers.next) :
    Builds Nested b (finishBinary (.logical lo jump) v) f
      (fun w g ↦ w = .register lo ∧ f.Finished v lo (lo + 1) (.logical lo jump) g) := by
  have hfinish : finishBinary (.logical lo jump) v = do
      setLocal lo v
      landJump jump
      return .register lo := by
    simp only [finishBinary, setLocal, bind_assoc]
  have hjump : jump < f.proto.code.size := (Array.getElem?_eq_some_iff.mp hcode).1
  rw [hfinish]
  refine (builds_setLocal (Nat.le_succ_of_le hlo) hv fun hf ↦ hv.le.trans hf.next_le).bind ?_
  rintro _ _ - rfl
  have hland : Builds Nested b (landJump jump) ((f.downTo (lo + 1)).emit (v.loadCode lo))
      (fun _ g ↦ f.Finished v lo (lo + 1) (.logical lo jump) g) := by
    refine .of_ok (fun _ ↦ landJump_apply jump _) (fun _ ↦ ⟨.land _ hb ?_, rfl⟩) rfl
    exact (Array.getElem?_append_left hjump).trans hcode
  exact hland.bind fun _ _ _ hfinished ↦ .pure ⟨rfl, hfinished⟩

theorem builds_finishComparison {o : BinaryOp} {test : Comparison} {left : Nat}
    (ho : o.comparison? = some test) (hlo : f.registers.numLocals ≤ lo)
    (hleft : f.HoldsOperand left lo mid) (hv : f.Holds v mid f.registers.next) :
    Builds Nested b (finishBinary (.comparison test left) v) f
      (fun w g ↦ w = .register lo ∧ f.Finished v lo mid (.comparison test left) g) := by
  refine (builds_toOperand (hlo.trans hleft.le) hv).bind ?_
  intro right g hfg hplaced
  have hlog : g.registers.numLocals ≤ lo := hfg.numLocals.trans_le hlo
  have hleftg := hleft.within hfg.within
  have hright := hplaced.holds hv
  rw [resultRegister, bind_assoc]
  refine .replace (test.code lo left right) (a := .register lo)
    (fun hg ↦ releaseOperands_eq hg hlog hleftg hright) hlog (hleftg.le.trans hright.le)
    (bind_of_ok (pushComparison_apply _ _ _ _ _)) ?_ ?_ ⟨rfl, right, g, hplaced, rfl⟩
  · intro h hh hwithin hnext hdst
    have hleft := (hleftg.within hwithin).fits hh (hright.le.trans hnext)
    have hright := (hright.within hwithin).fits hh hnext
    simp only [Comparison.code, List.forall_mem_cons]
    refine ⟨?_, fits_jump _ _, fits_loadBool hdst _ _, fits_loadBool hdst _ _, by simp⟩
    cases test.swapped
    · exact fits_comparison ho hleft hright
    · exact fits_comparison ho hright hleft
  · exact fun _ ↦ .inr ⟨.abc .loadBool lo 0 1, by simp [Comparison.code],
      List.mem_singleton_self _⟩

theorem builds_finishConcat (hlo : f.registers.numLocals ≤ lo)
    (hv : f.Holds v (lo + 1) f.registers.next) :
    Builds Nested b (finishBinary (.concat lo) v) f
      (fun w g ↦ w = .register lo ∧ f.Finished v lo (lo + 1) (.concat lo) g) := by
  refine (builds_inNewRegister (Nat.le_succ_of_le hlo) hv).bind ?_
  rintro _ g hfg ⟨rfl, rfl⟩
  have hlog : (f.loading v (lo + 1)).registers.numLocals ≤ lo := hfg.numLocals.trans_le hlo
  have hleft : (f.loading v (lo + 1)).HoldsRegister lo lo (lo + 1) := .inr ⟨rfl, rfl⟩
  have hright : (f.loading v (lo + 1)).HoldsRegister (lo + 1) (lo + 1) (lo + 2) :=
    .inr ⟨rfl, rfl⟩
  refine .replace [.abc .concat lo lo (lo + 1)] (a := .register lo)
    (fun hg ↦ releaseBoth_eq hg hlog hleft hright) hlog (hleft.le.trans hright.le)
    (bind_of_ok (push_apply _ _)) ?_ ?_ ⟨rfl, rfl⟩
  · intro h hh hwithin hle hdst
    have hrange : List.range' lo (lo + 1 + 1 - lo) = [lo, lo + 1] := by
      rw [show lo + 1 + 1 - lo = 2 by omega]
      rfl
    have hnext : lo + 1 < h.registers.high := hle
    have hall : ∀ r ∈ lo :: List.range' lo (lo + 1 + 1 - lo), r < h.registers.high := by
      simp [hrange, hdst, hnext]
    simp only [List.forall_mem_singleton]
    exact .of_registers hall rfl rfl rfl
  · exact fun _ ↦ .inr ⟨_, List.mem_singleton_self _, List.mem_cons_self⟩

theorem builds_finishArithmetic {o : BinaryOp} {op : Opcode} {left : Nat}
    (ho : o.arithmetic? = some op) (hlo : f.registers.numLocals ≤ lo)
    (hleft : f.HoldsOperand left lo mid) (hv : f.Holds v mid f.registers.next) :
    Builds Nested b (finishBinary (.arithmetic op left) v) f
      (fun w g ↦ w = .register lo ∧ f.Finished v lo mid (.arithmetic op left) g) := by
  refine (builds_toOperand (hlo.trans hleft.le) hv).bind ?_
  intro right g hfg hplaced
  have hlog : g.registers.numLocals ≤ lo := hfg.numLocals.trans_le hlo
  have hleftg := hleft.within hfg.within
  have hright := hplaced.holds hv
  rw [resultRegister, bind_assoc]
  refine .replace [.abc op lo left right] (a := .register lo)
    (fun hg ↦ releaseOperands_eq hg hlog hleftg hright) hlog (hleftg.le.trans hright.le)
    (bind_of_ok (push_apply _ _)) ?_ ?_ ⟨rfl, right, g, hplaced, rfl⟩
  · intro h hh hwithin hnext hdst
    simp only [List.forall_mem_singleton]
    exact fits_arithmetic ho ((hleftg.within hwithin).fits hh (hright.le.trans hnext))
      ((hright.within hwithin).fits hh hnext) hdst
  · refine fun _ ↦ .inr ⟨_, List.mem_singleton_self _, ?_⟩
    cases o <;> cases ho <;> exact List.mem_cons_self

theorem builds_finishBinary {pending : Pending} (hlo : f.registers.numLocals ≤ lo)
    (hpending : f.HoldsPending b pending lo mid) (hv : f.Holds v mid f.registers.next) :
    Builds Nested b (finishBinary pending v) f
      (fun w g ↦ w = .register lo ∧ f.Finished v lo mid pending g) := by
  cases pending with
  | logical dst jump =>
    obtain ⟨rfl, rfl, hb, hcode⟩ := hpending
    exact builds_finishLogical hlo hb hcode hv
  | comparison test left =>
    obtain ⟨⟨o, ho⟩, hleft⟩ := hpending
    exact builds_finishComparison ho hlo hleft hv
  | concat left =>
    obtain ⟨rfl, rfl⟩ := hpending
    exact builds_finishConcat hlo hv
  | arithmetic op left =>
    obtain ⟨⟨o, ho⟩, hleft⟩ := hpending
    exact builds_finishArithmetic ho hlo hleft hv

/-! ## The code of an operation -/

theorem Comparison.code_block {W : Nat → Prop} {o : BinaryOp} {test : Comparison}
    (ho : o.comparison? = some test) (left right : Nat) (hdst : W dst) :
    Block W false (test.code dst left right) := by
  have hop : test.op = .eq ∨ test.op = .lt ∨ test.op = .le := by
    cases o <;> cases ho <;> simp
  rw [Comparison.code]
  split
  · exact .comparison test.holdsOn right left hop hdst
  · exact .comparison test.holdsOn left right hop hdst

theorem arithmetic_block {W : Nat → Prop} {o : BinaryOp} {op : Opcode}
    (ho : o.arithmetic? = some op) (left right : Nat) (hdst : W dst) :
    Block W false [.abc op dst left right] := by
  have hplain : (Instruction.abc op dst left right).isPlain = true := by
    cases o <;> cases ho <;> rfl
  refine .single hplain (fun r hr ↦ ?_) hdst
  cases o <;> cases ho <;> simpa [Instruction.writes] using hr

/-- What a value above a register is loaded by is never nothing. -/
theorem Value.loadCode_ne_nil (hlo : f.registers.numLocals ≤ lo) (hv : f.Holds v (lo + 1) hi) :
    v.loadCode lo ≠ [] := by
  rcases Value.eq_register_or_named hv lo with rfl | ⟨i, hi, _⟩
  · rcases hv with ⟨hlocal, _⟩ | ⟨heq, _⟩ <;> omega
  · exact List.ne_nil_of_mem hi

/-- The jump past the right operand becomes one over a block. -/
theorem emitted_logical {W : Nat → Prop} {h : OpenFunction} {w : Value} (src decides : Nat)
    (hlo : W lo) (hlocals : g.registers.numLocals ≤ lo)
    (hright : (f.emit [.abc .testSet lo src decides, .asbx .jmp 0 0]).Emitted W false g)
    (hw : g.Holds w (lo + 1) hi)
    (hh : h.proto.code =
      ((g.emit (w.loadCode lo)).landing (f.proto.code.size + 1)).proto.code) :
    f.Emitted W false h := by
  obtain ⟨is, his, hblock⟩ := hright
  have hbody : is ++ w.loadCode lo ≠ [] := by
    simp [Value.loadCode_ne_nil hlocals hw]
  refine ⟨_, ?_, .guarded src decides hlo (.append hblock (w.loadCode_block hlo)) hbody⟩
  rw [hh]
  simp only [landing, OpenFunction.emit, his]
  apply Array.toList_inj.mp
  simp only [Array.toList_setIfInBounds, Array.toList_append, List.append_assoc]
  rw [List.set_append_right _ _ (by simp)]
  simp

theorem emitted_binary {W : Nat → Prop} {h k : OpenFunction} {w : Value} {op : BinaryOp}
    {isString : Bool} {pending : Pending} (hW : ∀ r, lo ≤ r → W r) (hmid : lo ≤ mid)
    (hlocals : h.registers.numLocals ≤ lo) (hbegun : f.Begun v lo op isString pending g)
    (hpending : h.HoldsPending b pending lo mid) (hright : g.Emitted W false h)
    (hw : h.Holds w mid hi) (hfinished : h.Finished w lo mid pending k) :
    f.Emitted W false k := by
  have hlo := hW lo (le_refl lo)
  cases pending with
  | logical dst jump =>
    obtain ⟨decides, src, h₀, _, hplaced, rfl, rfl, rfl⟩ := hbegun
    obtain ⟨_, rfl, _⟩ := hpending
    refine (hplaced.emitted hlo).trans (emitted_logical src decides hlo hlocals ?_ hw ?_)
    · exact hright
    · rw [hfinished]
      rfl
  | comparison test left =>
    obtain ⟨_, _, hplaced⟩ := hbegun
    obtain ⟨⟨o, ho⟩, _⟩ := hpending
    obtain ⟨x, h₁, hplaced', rfl⟩ := hfinished
    refine (hplaced.emitted hlo).trans (hright.trans ((hplaced'.emitted (hW mid hmid)).trans ?_))
    exact .of_emit rfl (Comparison.code_block ho left x hlo)
  | concat left =>
    obtain ⟨_, _, _, _, rfl⟩ := hbegun
    obtain ⟨_, rfl⟩ := hpending
    rw [hfinished]
    have hconcat : Block W false [.abc .concat lo lo (lo + 1)] := by
      refine .plain rfl fun r hr ↦ hW r ?_
      simp only [Instruction.writes, decide_eq_true_eq] at hr
      omega
    refine (emitted_loading f v hlo).trans (hright.trans
      ((emitted_loading h w (hW _ hmid)).trans (.of_emit rfl hconcat)))
  | arithmetic op left =>
    obtain ⟨_, _, _, _, hplaced⟩ := hbegun
    obtain ⟨⟨o, ho⟩, _⟩ := hpending
    obtain ⟨x, h₁, hplaced', rfl⟩ := hfinished
    refine (hplaced.emitted hlo).trans (hright.trans ((hplaced'.emitted (hW mid hmid)).trans ?_))
    exact .of_emit rfl (arithmetic_block ho left x hlo)

end LuaLower
