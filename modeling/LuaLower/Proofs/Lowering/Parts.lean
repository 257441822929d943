import LuaLower.Lowering.Parts
import LuaLower.Proofs.Lowering.Target

/-!
# The pieces of expressions and statements emit code

For each piece that works on the innermost function alone: what it emits, and where the first free
register is afterwards.
-/

namespace LuaLower

open OpenFunction Build

variable {Nested : ParamTree → Prototype → Prop} {W : Nat → Prop} {b : Nat} {f g : OpenFunction}
  {v : Value} {table lo mid : Nat}

/-! ## Literals and tables -/

/-- A new register that an instruction fills without naming anything else. -/
theorem Builds.fill {α : Type} {P : α → OpenFunction → Prop} {k : Nat → Build α} {a : α}
    (i : Instruction) (hk : k f.registers.next f.taken = .ok a (f.taken.emit [i]))
    (hregisters : i.registers = [f.registers.next]) (hconstants : i.constants = [])
    (hupvalues : i.upvalues = []) (hclosures : i.closures = [])
    (hpost : P a (f.taken.emit [i])) : Builds Nested b (takeRegister >>= k) f P := by
  refine .take [i] hk (fun htidy ↦ ?_) (.inr ⟨i, List.mem_singleton_self i, ?_⟩) hpost
  · have hdst : f.registers.next < f.taken.registers.high := htidy.next_le
    simp only [List.forall_mem_singleton]
    exact .of_registers (by simpa [hregisters] using hdst) hconstants hupvalues hclosures
  · simp [hregisters]

theorem builds_newNil : Builds Nested b newNil f (fun r g ↦ r = f.registers.next ∧
    g = f.taken.emit [.abc .loadNil f.registers.next 0 0]) :=
  .fill _ (bind_of_ok (push_apply _ _)) rfl rfl rfl rfl ⟨rfl, rfl⟩

/-- What has happened when a literal has been lowered to `v`. -/
def OpenFunction.LiteralBuilt (f : OpenFunction) : Literal → Value → OpenFunction → Prop
  | .boolean value, v, g => v = .register f.registers.next ∧
    g = f.taken.emit [.abc .loadBool f.registers.next (if value then 1 else 0) 0]
  | .null, v, g =>
    v = .register f.registers.next ∧ g = f.taken.emit [.abc .loadNil f.registers.next 0 0]
  | l, v, g => ∃ k, l.constant? = some k ∧ v = .constant (f.proto.constants.insert k).1 ∧
    g = f.intern k

theorem OpenFunction.LiteralBuilt.holds {l : Literal} (h : f.LiteralBuilt l v g) :
    g.Holds v f.registers.next g.registers.next := by
  cases l with
  | boolean value =>
    obtain ⟨rfl, rfl⟩ := h
    exact .inr ⟨rfl, rfl⟩
  | null =>
    obtain ⟨rfl, rfl⟩ := h
    exact .inr ⟨rfl, rfl⟩
  | _ =>
    obtain ⟨k, _, rfl, rfl⟩ := h
    exact holds_intern f k

theorem loadNil_block {dst : Nat} (hdst : W dst) : Block W false [.abc .loadNil dst 0 0] := by
  refine .single rfl (fun r hr ↦ ?_) hdst
  simp only [Instruction.writes, decide_eq_true_eq] at hr
  omega

theorem OpenFunction.LiteralBuilt.emitted {l : Literal} (h : f.LiteralBuilt l v g)
    (hnext : W f.registers.next) : f.Emitted W false g := by
  cases l with
  | boolean value =>
    obtain ⟨_, rfl⟩ := h
    exact .of_emit rfl (.single rfl (by simp [Instruction.writes]) hnext)
  | null =>
    obtain ⟨_, rfl⟩ := h
    exact .of_emit rfl (loadNil_block hnext)
  | _ =>
    obtain ⟨k, _, _, rfl⟩ := h
    exact .of_code_eq rfl

theorem builds_literal (l : Literal) :
    Builds Nested b (literal l) f (fun v g ↦ f.LiteralBuilt l v g) := by
  have hconstant (k : Constant) (hk : l.constant? = some k)
      (hl : ∀ v g, (∃ k, l.constant? = some k ∧ v = .constant (f.proto.constants.insert k).1 ∧
        g = f.intern k) → f.LiteralBuilt l v g) :
      Builds Nested b (do return .constant (← constantIndex k)) f
        (fun v g ↦ f.LiteralBuilt l v g) := by
    refine .bind (.intern k) ?_
    rintro _ _ - ⟨rfl, rfl⟩
    exact .pure (hl _ _ ⟨k, hk, rfl, rfl⟩)
  cases l with
  | number x => exact hconstant _ rfl fun _ _ h ↦ h
  | string s => exact hconstant _ rfl fun _ _ h ↦ h
  | boolean value =>
    exact .fill _ (bind_of_ok (push_apply _ _)) rfl rfl rfl rfl ⟨rfl, rfl⟩
  | null =>
    refine builds_newNil.bind ?_
    rintro _ _ - ⟨rfl, rfl⟩
    exact .pure ⟨rfl, rfl⟩
  | bigint digits => exact .throw
  | regex pattern flags => exact .throw

theorem builds_newTable (items fields : Nat) :
    Builds Nested b (newTable items fields) f
      (fun table g ↦ table = f.registers.next ∧ g = f.taken.emit [.abc .newTable f.registers.next
        (SizeByte.encode items) (SizeByte.encode fields)]) :=
  .fill _ (bind_of_ok (push_apply _ _)) rfl rfl rfl rfl ⟨rfl, rfl⟩

theorem emits_newTable (items fields : Nat) (hnext : W f.registers.next) :
    Emits Nested W b (newTable items fields) f
      (fun table g ↦ table = f.registers.next ∧ g.registers.next = table + 1) := by
  have hcode : Block W false [.abc .newTable f.registers.next (SizeByte.encode items)
      (SizeByte.encode fields)] :=
    .single rfl (by simp [Instruction.writes]) hnext
  refine (builds_newTable items fields).mono ?_
  rintro _ _ - ⟨rfl, rfl⟩
  exact ⟨.of_emit rfl hcode, rfl, rfl⟩

/-- The key and the value of a field may have been placed in either order. -/
theorem builds_setField {key value : Nat} (htable : table < f.registers.next)
    (hlo : f.registers.numLocals ≤ lo) (hnext : lo ≤ f.registers.next)
    (hkey : f.registers.Tidy → f.OperandFits key) (hvalue : f.registers.Tidy → f.OperandFits value)
    (hrelease : ∀ i : Instruction, f.registers.Tidy →
      releaseOperands key value (f.emit [i]) = .ok () ((f.emit [i]).downTo lo)) :
    Builds Nested b (setField table key value) f
      (fun _ g ↦ g = (f.emit [.abc .setTable table key value]).downTo lo) := by
  refine Builds.pushRelease (fun hf ↦ ?_) (hrelease _) hlo hnext
  have htable := htable.trans_le hf.next_le
  have hrs : ∀ r ∈ [table], r < f.registers.high := by simpa using htable
  exact .of_operands (hkey hf) (hvalue hf) hrs rfl rfl (List.forall_mem_nil _) rfl

theorem emitted_setField {key value : Nat} :
    f.Emitted W false ((f.emit [.abc .setTable table key value]).downTo lo) :=
  .of_emit rfl (.plain rfl nofun)

theorem emits_setField {key value : Nat} (htable : table < f.registers.next)
    (hlo : f.registers.numLocals ≤ lo) (hnext : lo ≤ f.registers.next)
    (hkey : f.registers.Tidy → f.OperandFits key) (hvalue : f.registers.Tidy → f.OperandFits value)
    (hrelease : ∀ i : Instruction, f.registers.Tidy →
      releaseOperands key value (f.emit [i]) = .ok () ((f.emit [i]).downTo lo)) :
    Emits Nested W b (setField table key value) f (fun _ g ↦ g.registers.next = lo) := by
  refine (builds_setField htable hlo hnext hkey hvalue hrelease).mono ?_
  rintro _ _ - rfl
  exact ⟨emitted_setField, rfl⟩

theorem emits_item (hlo : f.registers.numLocals ≤ lo) (hW : W lo)
    (hv : f.Holds v lo f.registers.next) :
    Emits Nested W b (item v) f (fun _ g ↦ g.registers.next = lo + 1) := by
  refine (emits_inNewRegister hlo hW hv).bind ?_
  rintro _ _ - ⟨rfl, rfl⟩
  exact .pure rfl

theorem emits_newNil (hnext : W f.registers.next) :
    Emits Nested W b newNil f (fun r g ↦ r = f.registers.next ∧
      g = f.taken.emit [.abc .loadNil f.registers.next 0 0]) :=
  .of_builds builds_newNil fun _ _ h ↦ .of_emit (by rw [h.2]; rfl) (loadNil_block hnext)

theorem emits_hole (hnext : W f.registers.next) :
    Emits Nested W b hole f (fun _ g ↦ g.registers.next = f.registers.next + 1) := by
  refine (emits_newNil hnext).bind ?_
  rintro _ _ - ⟨rfl, rfl⟩
  exact .pure rfl

theorem builds_storeBatch {count : Nat} (batch : Nat) (htable : f.registers.numLocals ≤ table)
    (hnext : f.registers.next = table + 1 + count) :
    Builds Nested b (storeBatch table count batch) f
      (fun _ g ↦ g = (f.emit [.abc .setList table count batch]).downTo (table + 1)) := by
  have hle : table + 1 ≤ f.registers.next := by omega
  refine Builds.pushRelease (f := f) (fun hf ↦ ?_)
    (fun hf ↦ releaseDownTo_apply (f := f.emit _) hf (Nat.le_succ_of_le htable) hle)
    (Nat.le_succ_of_le htable) hle
  refine .of_registers ?_ rfl rfl rfl
  have hhigh := hf.next_le
  intro r hr
  have hr : r ∈ List.range' table (count + 1) := hr
  simp only [List.mem_range'_1] at hr
  omega

/-- Groups of list items are counted from one. -/
theorem emits_storeBatch {count batch : Nat} (hbatch : batch ≠ 0) (hpos : 0 < count)
    (hcount : count ≤ batchSize) (htable : f.registers.numLocals ≤ table)
    (hnext : f.registers.next = table + 1 + count) :
    Emits Nested W b (storeBatch table count batch) f
      (fun _ g ↦ g.registers.next = table + 1) := by
  have hcode : Block W false [.abc .setList table count batch] :=
    .plain (decide_eq_true ⟨hbatch, hpos, hcount⟩) nofun
  refine (builds_storeBatch batch htable hnext).mono ?_
  rintro _ _ - rfl
  exact ⟨.of_emit rfl hcode, rfl⟩

/-- What has happened when the field zero has been set: first its value was placed, then its key. -/
def OpenFunction.FirstSet (f : OpenFunction) (v : Value) (table lo : Nat) (g : OpenFunction) :
    Prop :=
  ∃ value f₁ key f₂, f.PlacedOperand v lo value f₁ ∧ f₁.registers.Tidy ∧
    f₁.registers.numLocals ≤ lo ∧
    (f₁.intern (.integer 0)).PlacedOperand (.constant (f₁.proto.constants.insert (.integer 0)).1)
      f₁.registers.next key f₂ ∧
    g = (f₂.emit [.abc .setTable table key value]).downTo lo

theorem builds_setFirst (htable : table < lo) (hlo : f.registers.numLocals ≤ lo)
    (hv : f.Holds v lo f.registers.next) :
    Builds Nested b (setFirst table v) f (fun _ g ↦ f.FirstSet v table lo g) := by
  refine .assuming fun hf _ ↦ (builds_toOperand hlo hv).bind ?_
  intro value g hfg hplaced
  have hlog : g.registers.numLocals ≤ lo := hfg.numLocals.trans_le hlo
  have hvalue := hplaced.holds hv
  have hnumLocals := hlog.trans hvalue.le
  refine .bind (.intern (.integer 0)) ?_
  rintro _ _ - ⟨rfl, rfl⟩
  refine (builds_toOperand (f := g.intern _) hnumLocals (holds_intern g _)).bind ?_
  intro key h hgh hplacedKey
  have hkey := hplacedKey.holds (holds_intern g _)
  have hloh : h.registers.numLocals ≤ lo := hgh.numLocals.trans_le hlog
  have hvalueh := (hvalue.within (g := g.intern _)
    ⟨rfl, (g.proto.constants.prefix_toList_insert _).length_le, le_refl _, le_refl _⟩).within
    hgh.within
  have hlonext := hvalueh.le.trans hkey.le
  refine (builds_setField (htable.trans_le hlonext) hloh hlonext
    (fun hh ↦ hkey.fits hh hh.next_le) (fun hh ↦ hvalueh.fits hh (hkey.le.trans hh.next_le))
    ?_).mono fun _ _ _ h ↦
      ⟨value, g, key, _, hplaced, hfg.grows.tidy hf, hlog, hplacedKey, h⟩
  intro i hh
  rw [releaseOperands_comm]
  exact releaseOperands_eq (f := h.emit [i]) hh hloh hvalueh hkey

theorem emits_setFirst (htable : table < lo) (hlo : f.registers.numLocals ≤ lo)
    (hW : ∀ r, lo ≤ r → W r) (hv : f.Holds v lo f.registers.next) :
    Emits Nested W b (setFirst table v) f (fun _ g ↦ g.registers.next = lo) := by
  refine (builds_setFirst htable hlo hv).mono ?_
  rintro _ _ - ⟨value, f₁, key, f₂, hvalue, -, -, hkey, rfl⟩
  have hintern : f₁.Emitted W false (f₁.intern (.integer 0)) := .of_code_eq rfl
  have hnext := hW _ (hvalue.holds hv).le
  exact ⟨(((hvalue.emitted (hW lo (le_refl lo))).trans hintern).trans (hkey.emitted hnext)).trans
    emitted_setField, rfl⟩

/-! ## Operations and calls -/

theorem builds_unary {o : UnaryOp} {op : Opcode} (ho : o.opcode? = some op)
    (hlo : f.registers.numLocals ≤ lo) (hv : f.Holds v lo f.registers.next) :
    Builds Nested b (Build.unary op v) f
      (fun w g ↦ w = .register lo ∧ ∃ src h, f.Placed v lo (.register src) h ∧
        g = (h.downTo lo).taken.emit [.abc op lo src 0]) := by
  refine (builds_inRegister hlo hv).bind ?_
  intro src g hfg hplaced
  have hlog : g.registers.numLocals ≤ lo := hfg.numLocals.trans_le hlo
  have hsrc : g.HoldsRegister src lo g.registers.next := hplaced.holds hv
  refine .replace [.abc op lo src 0] (a := .register lo) (fun hg ↦ release_eq hg hlog hsrc) hlog
    hsrc.le (bind_of_ok (push_apply _ _)) ?_ ?_ ⟨rfl, src, g, hplaced, rfl⟩
  · intro h hh hwithin hnext hdst
    have hlt := (hsrc.within hwithin).lt_high hh hnext
    have hboth : ∀ r ∈ [lo, src], r < h.registers.high := by simp [hdst, hlt]
    simp only [List.forall_mem_singleton]
    cases o <;> cases ho <;> exact .of_registers hboth rfl rfl rfl
  · refine fun _ ↦ .inr ⟨_, List.mem_singleton_self _, ?_⟩
    cases o <;> cases ho <;> exact List.mem_cons_self

theorem emits_unary {o : UnaryOp} {op : Opcode} (ho : o.opcode? = some op)
    (hlo : f.registers.numLocals ≤ lo) (hW : W lo) (hv : f.Holds v lo f.registers.next) :
    Emits Nested W b (Build.unary op v) f
      (fun w g ↦ w = .register lo ∧ g.registers.next = lo + 1) := by
  refine (builds_unary ho hlo hv).mono ?_
  rintro w _ - ⟨rfl, src, h, hplaced, rfl⟩
  have hcode : Block W false [.abc op lo src 0] := by
    have hplain : (Instruction.abc op lo src 0).isPlain = true := by
      cases o <;> cases ho <;> rfl
    refine .single hplain (fun r hr ↦ ?_) hW
    cases o <;> cases ho <;> simpa [Instruction.writes] using hr
  exact ⟨(hplaced.emitted hW).trans (.of_emit rfl hcode), rfl, rfl⟩

/-- The first free register after a call. -/
def ResultUse.next (base : Nat) : ResultUse → Nat
  | .discard => base
  | _ => base + 1

theorem fits_call {base argCount : Nat} (isOpen : Bool) (use : ResultUse)
    (hhigh : base + 1 + argCount ≤ f.registers.high) :
    (Instruction.abc .call base (if isOpen then 0 else argCount + 1) use.operand).Fits f := by
  have hresults : use.operand - 1 ≤ 1 := by cases use <;> decide
  have hargs : (if isOpen then 0 else argCount + 1) ≤ argCount + 1 := by
    split <;> omega
  have hall : ∀ r ∈ base :: (List.range' base (if isOpen then 0 else argCount + 1) ++
      List.range' base (use.operand - 1)), r < f.registers.high := by
    intro r hr
    simp only [List.mem_cons, List.mem_append, List.mem_range'_1] at hr
    omega
  exact .of_registers hall rfl rfl rfl

theorem builds_call {base argCount : Nat} (isOpen : Bool) (use : ResultUse)
    (hbase : f.registers.numLocals ≤ base) (hnext : f.registers.next = base + 1 + argCount) :
    Builds Nested b (call base argCount isOpen use) f
      (fun _ g ↦ g.registers.next = use.next base ∧ g.proto.code = (f.emit
        [.abc .call base (if isOpen then 0 else argCount + 1) use.operand]).proto.code) := by
  refine .assuming fun hf _ ↦ ?_
  have hle : base ≤ f.registers.next := by omega
  have hhigh : base + 1 + argCount ≤ f.registers.high := hnext ▸ hf.next_le
  have hcall : Builds Nested b (do
      push (.abc .call base (if isOpen then 0 else argCount + 1) use.operand)
      releaseDownTo base) f _ :=
    .pushRelease (fun _ ↦ fits_call isOpen use hhigh)
      (fun hf ↦ releaseDownTo_apply (f := f.emit _) hf hbase hle) hbase hle
  have heq : call base argCount isOpen use = (do
      push (.abc .call base (if isOpen then 0 else argCount + 1) use.operand)
      releaseDownTo base) >>= fun _ ↦
        if use ≠ .discard then do let _ ← takeRegister else return := by
    simp only [call, bind_assoc]
  rw [heq]
  refine hcall.bind ?_
  rintro _ _ - rfl
  cases use with
  | discard => exact .pure ⟨rfl, rfl⟩
  | _ =>
    refine .take [] (congrArg (EStateM.Result.ok ()) (emit_nil _).symm) ?_ (.inl ?_) ?_
    · simp
    · exact Nat.lt_of_lt_of_le (by simp only [downTo]; omega) hhigh
    · rw [emit_nil]
      exact ⟨rfl, rfl⟩

theorem emits_drop (hlo : f.registers.numLocals ≤ lo) (hW : W lo)
    (hv : f.Holds v lo f.registers.next) :
    Emits Nested W b (drop v) f (fun _ g ↦ g.registers.next = lo) := by
  refine (emits_inRegister hlo hW hv).bind ?_
  intro r g hfg hplaced
  have hlog : g.registers.numLocals ≤ lo := hfg.numLocals.trans_le hlo
  have hr : g.HoldsRegister r lo g.registers.next := hplaced.holds hv
  refine (Builds.lower (fun hg ↦ release_eq hg hlog hr) hlog hr.le).mono ?_
  rintro _ _ - rfl
  exact ⟨.of_code_eq rfl, rfl⟩

theorem builds_returnValue (hlo : f.registers.numLocals ≤ lo)
    (hv : f.Holds v lo f.registers.next) :
    Builds Nested b (returnValue v) f (fun _ g ↦ ∃ r h, f.Placed v lo (.register r) h ∧
      g = (h.emit [.abc .ret r 2 0]).downTo lo) := by
  refine (builds_inRegister hlo hv).bind ?_
  intro r g hfg hplaced
  have hlog : g.registers.numLocals ≤ lo := hfg.numLocals.trans_le hlo
  have hr : g.HoldsRegister r lo g.registers.next := hplaced.holds hv
  refine (Builds.pushRelease (fun hg ↦ ?_)
    (fun hg ↦ release_eq (f := g.emit _) hg hlog hr) hlog hr.le).mono ?_
  · have hlt := hr.lt_high hg hg.next_le
    exact .of_registers (List.forall_mem_singleton.mpr hlt) rfl rfl rfl
  · rintro _ _ - rfl
    exact ⟨r, g, hplaced, rfl⟩

theorem emits_returnValue (hlo : f.registers.numLocals ≤ lo) (hW : W lo)
    (hv : f.Holds v lo f.registers.next) :
    Emits Nested W b (returnValue v) f (fun _ g ↦ g.registers.next = lo) := by
  refine (builds_returnValue hlo hv).mono ?_
  rintro - _ - ⟨r, h, hplaced, rfl⟩
  have hcode : Block W false [.abc .ret r 2 0] := .plain rfl nofun
  exact ⟨(hplaced.emitted hW).trans (.of_emit rfl hcode), rfl⟩

theorem builds_returnNone :
    Builds Nested b returnNone f (fun _ g ↦ g = f.emit [.abc .ret 0 1 0]) :=
  .push (fun _ ↦ .of_registers (List.forall_mem_nil _) rfl rfl rfl) rfl

/-! ## Closures -/

theorem yields_closure {t : ParamTree} {p : Prototype} (hp : Nested t p) (hf : f.registers.Tidy) :
    Yields (Build.closure p) f
      (fun v g ↦ Extends Nested b f [t] g ∧ v = .register f.registers.next ∧
        g.registers.next = f.registers.next + 1 ∧ g.proto.code = (f.emit
          [.abx .closure f.registers.next f.proto.children.length]).proto.code)
      (fun _ g ↦ Kept b f g) := by
  have hattach : attach p f = .ok f.proto.children.length (f.adopting p) := rfl
  rcases Nat.lt_or_ge f.registers.next Registers.limit with hlimit | hlimit
  · have htake := takeRegister_of_lt (f := f.adopting p) hf hlimit
    refine .of_ok ?_ ⟨⟨.closure f hp hlimit, rfl⟩, rfl, rfl, rfl⟩
    rw [Build.closure, bind_of_ok hattach, bind_of_ok htake, bind_of_ok (push_apply _ _)]
    rfl
  · have htake := takeRegister_of_le (f := f.adopting p) hlimit
    refine .of_error (t := f.adopting p) (e := .unimplemented .registerLimit) ?_ ?_
    · rw [Build.closure, bind_of_ok hattach, bind_of_error htake]
    · exact { Kept.refl b f with children := List.prefix_append _ _ }

end LuaLower
