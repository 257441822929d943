import LuaLower.Proofs.Lowering.TaskParts
import LuaLower.Proofs.OpenFunction.Accretion
import LuaLower.Proofs.SizeByte

/-!
# Lowering only adds

Every part of a program is lowered by steps that add code which can be packed into words. They find
only values that instructions can name, however the parts before them have ended. Nested functions
are built apart and attached when they are complete.
-/

namespace LuaLower

open OpenFunction

variable {sizes : Nat → Prop} {b : Nat}

/-! ## Opcodes of operators -/

theorem BinaryOp.logical?_lt {op : BinaryOp} {decides : Nat} (h : op.logical? = some decides) :
    decides < 2 ^ 9 := by
  cases op <;> cases h <;> decide

theorem BinaryOp.comparison?_family {op : BinaryOp} {test : Comparison}
    (h : op.comparison? = some test) : test.op.family = .abc ∧ test.holdsOn < 2 ^ 8 := by
  cases op <;> cases h <;> decide

theorem BinaryOp.arithmetic?_family {op : BinaryOp} {opcode : Opcode}
    (h : op.arithmetic? = some opcode) : opcode.family = .abc := by
  cases op <;> cases h <;> rfl

theorem UnaryOp.opcode?_family {op : UnaryOp} {opcode : Opcode} (h : op.opcode? = some opcode) :
    opcode.family = .abc := by
  cases op <;> cases h <;> rfl

namespace Build

open Instruction (packable_abc)

/-! ## Assignment -/

theorem accretes_globalTarget (name : String) :
    Accretes sizes b Target.Nameable (globalTarget name) := by
  apply (accretes_globalField name).bind
  rintro ⟨env, key⟩ ⟨henv, hkey⟩
  apply (Accretes.ofExcept fun x hx ↦ hkey.operand_lt hx).bind
  intro x hx
  exact .pure ⟨henv, hx⟩

theorem accretive_setLocal {r : Nat} {v : Value} (hr : r < 2 ^ 8) (hv : v.Nameable) :
    Accretive sizes b (setLocal r v) :=
  (accretive_releaseValue v).bind fun _ _ ↦ accretive_load hv hr

theorem accretes_read {target : Target} (h : target.Nameable) :
    Accretes sizes b Value.Nameable target.read := by
  cases target with
  | register r => exact .pure h
  | upvalue u =>
    apply accretes_takeRegister.bind
    intro dst hdst
    have hdst := lt_of_lt_limit hdst
    apply (accretive_push (packable_abc rfl hdst (lt_of_lt_two_pow h) (by decide))).bind
    intro _ _
    exact .pure hdst
  | member owner key =>
    apply accretes_takeRegister.bind
    intro dst hdst
    have hdst := lt_of_lt_limit hdst
    have hread : Accretive sizes b (Target.readField owner key dst) := by
      cases owner <;> exact accretive_push (packable_abc rfl hdst (lt_of_lt_two_pow h.1) h.2)
    exact hread.bind fun _ _ ↦ .pure hdst

theorem accretive_write {target : Target} {v : Value} (h : target.Nameable) (hv : v.Nameable) :
    Accretive sizes b (target.write v) := by
  cases target with
  | register r => exact accretive_setLocal h hv
  | upvalue u =>
    apply (accretes_inRegister hv).bind
    intro r hr
    apply (accretive_push (packable_abc rfl hr (lt_of_lt_two_pow h) (by decide))).bind
    intro _ _
    exact accretive_release r
  | member owner key =>
    apply (accretes_toOperand hv).bind
    intro x hx
    have hwrite : Accretive sizes b (Target.writeField owner key x) := by
      cases owner <;> exact accretive_push (packable_abc rfl h.1 h.2 hx)
    exact hwrite.bind fun _ _ ↦ accretive_releaseOperand x

theorem accretive_releaseTarget (target : Target) : Accretive sizes b target.release := by
  rw [Target.release.eq_def]
  split
  · exact accretive_releaseOperands _ _
  · exact accretive_releaseOperand _
  · exact .pure trivial

theorem accretive_assign {target : Target} {v : Value} (h : target.Nameable) (hv : v.Nameable) :
    Accretive sizes b (target.assign v) :=
  (accretive_write h hv).bind fun _ _ ↦ accretive_releaseTarget target

theorem accretes_assignValue {target : Target} {v : Value} (h : target.Nameable)
    (hv : v.Nameable) : Accretes sizes b Value.Nameable (target.assignValue v) := by
  have hkeep : Accretes sizes b Value.Nameable (do
      let r ← inRegister v
      target.assign (.register r)
      if r < (← get).registers.numLocals then
        return .register r
      else
        let dst ← takeRegister
        load (.register r) dst
        return .register dst) := by
    apply (accretes_inRegister hv).bind
    intro r hr
    have hregister : (Value.register r).Nameable := hr
    apply (accretive_assign h hregister).bind
    intro _ _
    apply Accretes.get
    intro f _
    split
    · exact .pure hr
    · apply accretes_takeRegister.bind
      intro dst hdst
      apply (accretive_load hregister (lt_of_lt_limit hdst)).bind
      intro _ _
      exact .pure (lt_of_lt_limit hdst)
  cases target with
  | register r => exact (accretive_setLocal h hv).bind fun _ _ ↦ .pure h
  | upvalue u => exact hkeep
  | member owner key => exact hkeep

/-! ## Operators -/

theorem accretes_beginBinary (op : BinaryOp) (isString : Bool) {v : Value} (hv : v.Nameable) :
    Accretes sizes b (Pending.Nameable b) (beginBinary op isString v) := by
  rw [beginBinary.eq_def]
  split
  case h_1 decides _ _ hlogical =>
    apply (accretes_inRegister hv).bind
    intro src hsrc
    apply (accretive_release src).bind
    intro _ _
    apply accretes_takeRegister.bind
    intro dst hdst
    have hdst := lt_of_lt_limit hdst
    apply (accretes_pushTest rfl hdst (lt_of_lt_two_pow hsrc)
      (BinaryOp.logical?_lt hlogical)).bind
    intro jump hjump
    exact .pure ⟨hdst, hjump⟩
  case h_2 test _ _ hcomparison =>
    obtain ⟨hop, hholdsOn⟩ := BinaryOp.comparison?_family hcomparison
    exact (accretes_toOperand hv).bind fun x hx ↦ .pure ⟨hop, hholdsOn, hx⟩
  case h_3 =>
    split
    · exact (accretes_inNewRegister hv).bind fun r hr ↦ .pure (lt_of_lt_limit hr)
    · split
      case h_1 opcode harithmetic =>
        have hop := BinaryOp.arithmetic?_family harithmetic
        exact (accretes_toOperand hv).bind fun x hx ↦ .pure ⟨hop, hx⟩
      case h_2 => exact .throw

theorem accretes_resultRegister (x y : Nat) :
    Accretes sizes b (· < 2 ^ 8) (resultRegister x y) :=
  (accretive_releaseOperands x y).bind fun _ _ ↦
    accretes_takeRegister.mono fun _ hr ↦ lt_of_lt_limit hr

theorem accretive_pushComparison {test : Comparison} {dst x y : Nat}
    (htest : test.op.family = .abc ∧ test.holdsOn < 2 ^ 8) (hdst : dst < 2 ^ 8) (hx : x < 2 ^ 9)
    (hy : y < 2 ^ 9) : Accretive sizes b (pushComparison test dst x y) := by
  intro f hb _
  refine .of_ok (pushComparison_apply test dst x y f) ⟨.emit ?_, rfl, trivial⟩
  have hbool (value skip : Nat) (hvalue : value < 2 ^ 9) (hskip : skip < 2 ^ 9) :
      (Instruction.abc .loadBool dst value skip).Packable sizes :=
    packable_abc rfl hdst hvalue hskip
  simp only [Comparison.code, List.forall_mem_cons]
  refine ⟨?_, ⟨rfl, by decide⟩, hbool 0 1 (by decide) (by decide),
    hbool 1 0 (by decide) (by decide), List.forall_mem_nil _⟩
  split
  · exact packable_abc htest.1 htest.2 hy hx
  · exact packable_abc htest.1 htest.2 hx hy

theorem accretes_finishBinary {pending : Pending} {v : Value} (h : pending.Nameable b)
    (hv : v.Nameable) : Accretes sizes b Value.Nameable (finishBinary pending v) := by
  cases pending with
  | logical dst jump =>
    apply (accretive_releaseValue v).bind
    intro _ _
    apply (accretive_load hv h.1).bind
    intro _ _
    apply (accretive_landJump h.2).bind
    intro _ _
    exact .pure h.1
  | comparison test left =>
    obtain ⟨hop, hholdsOn, hleft⟩ := h
    apply (accretes_toOperand hv).bind
    intro right hright
    apply (accretes_resultRegister left right).bind
    intro dst hdst
    apply (accretive_pushComparison ⟨hop, hholdsOn⟩ hdst hleft hright).bind
    intro _ _
    exact .pure hdst
  | concat left =>
    apply (accretes_inNewRegister hv).bind
    intro right hright
    apply (accretive_releaseBoth left right).bind
    intro _ _
    apply accretes_takeRegister.bind
    intro dst hdst
    have hdst := lt_of_lt_limit hdst
    have hright := lt_of_lt_two_pow (lt_of_lt_limit hright)
    apply (accretive_push (packable_abc rfl hdst (lt_of_lt_two_pow h) hright)).bind
    intro _ _
    exact .pure hdst
  | arithmetic op left =>
    obtain ⟨hop, hleft⟩ := h
    apply (accretes_toOperand hv).bind
    intro right hright
    apply (accretes_resultRegister left right).bind
    intro dst hdst
    apply (accretive_push (packable_abc hop hdst hleft hright)).bind
    intro _ _
    exact .pure hdst

theorem accretes_unary {op : Opcode} {v : Value} (hop : op.family = .abc) (hv : v.Nameable) :
    Accretes sizes b Value.Nameable (unary op v) := by
  apply (accretes_inRegister hv).bind
  intro src hsrc
  apply (accretive_release src).bind
  intro _ _
  apply accretes_takeRegister.bind
  intro dst hdst
  have hdst := lt_of_lt_limit hdst
  apply (accretive_push (packable_abc hop hdst (lt_of_lt_two_pow hsrc) (by decide))).bind
  intro _ _
  exact .pure hdst

/-! ## Literals, tables and calls -/

theorem accretes_newNil : Accretes sizes b (· < Registers.limit) newNil :=
  accretes_takeRegister.bind fun _ hr ↦
    (accretive_loadNil (lt_of_lt_limit hr)).bind fun _ _ ↦ .pure hr

theorem accretes_constant (k : Constant) :
    Accretes sizes b Value.Nameable (do return .constant (← constantIndex k)) :=
  Accretes.bind (accretive_constantIndex k) fun _ _ ↦ .pure trivial

theorem accretes_literal (l : Literal) : Accretes sizes b Value.Nameable (literal l) := by
  cases l with
  | number x => exact accretes_constant _
  | string s => exact accretes_constant _
  | boolean value =>
    apply accretes_takeRegister.bind
    intro r hr
    have hvalue : (if value then 1 else 0) < 2 ^ 9 := by cases value <;> decide
    apply (accretive_push (packable_abc rfl (lt_of_lt_limit hr) hvalue (by decide))).bind
    intro _ _
    exact .pure (lt_of_lt_limit hr)
  | null => exact accretes_newNil.bind fun _ hr ↦ .pure (lt_of_lt_limit hr)
  | bigint digits => exact .throw
  | regex pattern flags => exact .throw

theorem accretes_newTable {items fields : Nat} (hitems : items ≤ 2 ^ 32 - 16)
    (hfields : fields ≤ 2 ^ 32 - 16 ∨ sizes fields) :
    Accretes sizes b (· < 2 ^ 8) (newTable items fields) := by
  apply accretes_takeRegister.bind
  intro table htable
  have htable := lt_of_lt_limit htable
  have hsize {n : Nat} (hn : n ≤ 2 ^ 32 - 16) : SizeByte.encode n < 2 ^ 9 :=
    lt_of_lt_two_pow (SizeByte.encode_lt hn)
  have hpackable : (Instruction.abc .newTable table (SizeByte.encode items)
      (SizeByte.encode fields)).Packable sizes := by
    refine ⟨rfl, htable, .inl (hsize hitems), ?_⟩
    obtain hfields | hfields := hfields
    · exact .inl (hsize hfields)
    · exact .inr ⟨rfl, fields, hfields, rfl⟩
  apply (accretive_push hpackable).bind
  intro _ _
  exact .pure htable

theorem accretive_setField {table x y : Nat} (htable : table < 2 ^ 8) (hx : x < 2 ^ 9)
    (hy : y < 2 ^ 9) : Accretive sizes b (setField table x y) :=
  (accretive_push (packable_abc rfl htable hx hy)).bind fun _ _ ↦ accretive_releaseOperands x y

theorem accretive_item {v : Value} (hv : v.Nameable) : Accretive sizes b (item v) :=
  (accretes_inNewRegister hv).bind fun _ _ ↦ .pure trivial

theorem accretive_hole : Accretive sizes b hole :=
  Accretes.bind accretes_newNil fun _ _ ↦ .pure trivial

theorem accretive_storeBatch {table count batch : Nat} (htable : table < 2 ^ 8)
    (hcount : count < 2 ^ 9) (hbatch : batch < 2 ^ 9) :
    Accretive sizes b (storeBatch table count batch) :=
  (accretive_push (packable_abc rfl htable hcount hbatch)).bind fun _ _ ↦
    accretive_releaseDownTo (table + 1)

theorem accretive_setFirst {table : Nat} {v : Value} (htable : table < 2 ^ 8) (hv : v.Nameable) :
    Accretive sizes b (setFirst table v) := by
  apply (accretes_toOperand hv).bind
  intro value hvalue
  apply (accretive_constantIndex _).bind
  intro k _
  have hk : (Value.constant k).Nameable := trivial
  apply (accretes_toOperand hk).bind
  intro key hkey
  exact accretive_setField htable hkey hvalue

theorem accretive_call {base : Nat} (argCount : Nat) (isOpen : Bool) (use : ResultUse)
    (hbase : base < 2 ^ 8) : Accretive sizes b (call base argCount isOpen use) := by
  have huse : use.operand < 2 ^ 9 := by cases use <;> decide
  have hpackable : (Instruction.abc .call base (if isOpen then 0 else argCount + 1)
      use.operand).Packable sizes := ⟨rfl, hbase, .inr rfl, .inl huse⟩
  apply (accretive_push hpackable).bind
  intro _ _
  apply (accretive_releaseDownTo base).bind
  intro _ _
  split
  · exact accretes_takeRegister.bind fun _ _ ↦ .pure trivial
  · exact .pure trivial

theorem accretive_drop {v : Value} (hv : v.Nameable) : Accretive sizes b (drop v) :=
  (accretes_inRegister hv).bind fun r _ ↦ accretive_release r

theorem accretive_returnValue {v : Value} (hv : v.Nameable) :
    Accretive sizes b (returnValue v) := by
  apply (accretes_inRegister hv).bind
  intro r hr
  apply (accretive_push (packable_abc rfl hr (by decide) (by decide))).bind
  intro _ _
  exact accretive_release r

theorem accretive_returnNone : Accretive sizes b returnNone :=
  accretive_push (packable_abc rfl (by decide) (by decide) (by decide))

/-! ## Functions -/

theorem accretive_bindParams (names : List String) : Accretive sizes b (bindParams names) := by
  induction names with
  | nil => exact .pure trivial
  | cons name names ih =>
    apply accretes_takeRegister.bind
    intro r _
    apply (accretive_bindLocal name r false).bind
    intro _ _
    exact ih

theorem accretive_setParamCount (n : Nat) : Accretive sizes b (setParamCount n) :=
  fun _ _ _ ↦ .of_ok rfl ⟨.of_eq (.of_registers rfl id id) rfl rfl rfl rfl rfl, rfl, trivial⟩

theorem accretes_closure {p : Prototype} (hp : p.Packed sizes) :
    Accretes sizes b Value.Nameable (closure p) := by
  have hattach : Accretive sizes b (attach p) := fun _ _ _ ↦ .of_ok rfl ⟨.adopt hp, rfl, trivial⟩
  apply hattach.bind
  intro index _
  apply accretes_takeRegister.bind
  intro dst hdst
  have hdst := lt_of_lt_limit hdst
  have hpackable : (Instruction.abx .closure dst index).Packable sizes := ⟨rfl, hdst, .inr rfl⟩
  apply (accretive_push hpackable).bind
  intro _ _
  exact .pure hdst

end Build

end LuaLower
