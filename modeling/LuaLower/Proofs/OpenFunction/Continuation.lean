import LuaLower.Proofs.Lowering.Binary
import LuaLower.Proofs.OpenFunction.Variables

/-!
# Steps that go on with a function

A step in the construction of a function goes on from what is there: the code so far stays, and
registers that were used out of order are never in order again. Hardly any step adds a call or a
nested function, so where these come from can be told from the few that do.
-/

namespace LuaLower

def Instruction.isCall : Instruction → Bool
  | .abc .call .. => true
  | _ => false

/-- The record of registers in order can be relied on. -/
def Registers.Orderly (rs : Registers) : Prop := rs.inOrder = true → rs.Tidy

namespace Registers.Orderly

variable {rs : Registers}

/-- A note adds to the record what has to be known of the marks. -/
theorem note {stepInOrder : Bool} (h : rs.inOrder = true → stepInOrder = true →
    rs.locals.map Local.register = (List.range rs.numLocals).reverse) :
    (rs.note stepInOrder).Orderly := by
  intro hnote
  obtain ⟨hrs, hstep, hlocals, hnext, hhigh⟩ := note_inOrder_iff.mp hnote
  exact ⟨h hrs hstep, hlocals, hnext, hhigh⟩

/-- The marks have moved, and the locals are the same. -/
theorem note_of_locals_eq {ms : Registers} {stepInOrder : Bool} (h : rs.Orderly)
    (hinOrder : ms.inOrder = rs.inOrder) (hlocals : ms.locals = rs.locals) :
    (ms.note stepInOrder).Orderly := by
  apply note
  intro hms _
  rw [numLocals, hlocals]
  exact (h (hinOrder ▸ hms)).contiguous

theorem bind (h : rs.Orderly) (name : String) (register : Nat) (isConst : Bool) :
    (rs.bind name register isConst).Orderly := by
  apply note
  intro hrs hregister
  have hcontiguous := (h hrs).contiguous
  rw [beq_iff_eq] at hregister
  simp [numLocals, List.range_succ, hcontiguous, hregister]

end Registers.Orderly

namespace OpenFunction

variable {F : Nat → Prop} {f g h : OpenFunction}

/-- `g` is what has become of `f`. Of its code the part at the positions `F` is as it was. -/
structure Continues (F : Nat → Prop) (f g : OpenFunction) : Prop where
  code : ∀ i, F i → i < f.proto.code.size → g.proto.code[i]? = f.proto.code[i]?
  size_le : f.proto.code.size ≤ g.proto.code.size
  inOrder : g.registers.inOrder = true → f.registers.inOrder = true
  orderly : f.registers.Orderly → g.registers.Orderly

/-- No nested function has been added, and a call only if that is what the step is for. -/
structure Works (calling : Prop) (F : Nat → Prop) (f g : OpenFunction) : Prop
    extends f.Continues F g where
  children : g.proto.children = f.proto.children
  calls : ¬calling → ∀ {pc : Nat} {i : Instruction}, g.proto.code[pc]? = some i →
    i.isCall = true → f.proto.code[pc]? = some i

/-- All of the code is as it was, and neither a call nor a nested function has been added. -/
abbrev CallFree (f g : OpenFunction) : Prop := f.Works False (fun _ ↦ True) g

namespace Continues

theorem refl (f : OpenFunction) : f.Continues F f := ⟨fun _ _ _ ↦ rfl, le_refl _, id, id⟩

theorem trans (hfg : f.Continues F g) (hgh : g.Continues F h) : f.Continues F h where
  code i hF hi := (hgh.code i hF (hi.trans_le hfg.size_le)).trans (hfg.code i hF hi)
  size_le := hfg.size_le.trans hgh.size_le
  inOrder hh := hfg.inOrder (hgh.inOrder hh)
  orderly hf := hgh.orderly (hfg.orderly hf)

theorem getElem?_eq {j : Nat} {i : Instruction} (hfg : f.Continues (fun _ ↦ True) g)
    (hj : f.proto.code[j]? = some i) : g.proto.code[j]? = some i :=
  (hfg.code j trivial (Array.getElem?_eq_some_iff.mp hj).1).trans hj

/-- Less of the code is asked for. -/
theorem mono {F' : Nat → Prop} (hfg : f.Continues F g)
    (h : ∀ i, F' i → i < f.proto.code.size → F i) :
    f.Continues F' g :=
  { hfg with code := fun i hF hi ↦ hfg.code i (h i hF hi) hi }

/-- The code is the same, and the registers are known. -/
theorem of_registers (hcode : g.proto.code = f.proto.code)
    (hinOrder : g.registers.inOrder = true → f.registers.inOrder = true)
    (horderly : f.registers.Orderly → g.registers.Orderly) : f.Continues F g where
  code i _ _ := by rw [hcode]
  size_le := by rw [hcode]
  inOrder := hinOrder
  orderly := horderly

theorem emit (f : OpenFunction) (is : List Instruction) : f.Continues F (f.emit is) where
  code _ _ hi := Array.getElem?_append_left hi
  size_le := by simp [OpenFunction.emit]
  inOrder := id
  orderly := id

/-- A jump outside the part that stays gets its destination. -/
theorem land {jump : Nat} (hjump : ¬F jump) : f.Continues F (f.landing jump) where
  code i hF _ := by
    apply Array.getElem?_setIfInBounds_ne
    rintro rfl
    exact hjump hF
  size_le := by simp [landing]
  inOrder := id
  orderly := id

end Continues

namespace Works

variable {calling : Prop}

theorem refl (f : OpenFunction) : f.Works calling F f := ⟨.refl f, rfl, fun _ _ _ h _ ↦ h⟩

theorem trans (hfg : f.Works calling F g) (hgh : g.Works calling F h) : f.Works calling F h where
  toContinues := hfg.toContinues.trans hgh.toContinues
  children := hgh.children.trans hfg.children
  calls hcalling _ _ hcode hi := hfg.calls hcalling (hgh.calls hcalling hcode hi) hi

theorem of_callFree (h : f.CallFree g) : f.Works calling F g where
  toContinues := h.toContinues.mono fun _ _ _ ↦ trivial
  children := h.children
  calls _ := h.calls not_false

/-- A jump outside the part that stays gets its destination. -/
theorem land {jump : Nat} (hjump : ¬F jump) : f.Works calling F (f.landing jump) where
  toContinues := .land hjump
  children := rfl
  calls _ pc i hpc hi := by
    rw [landing, Array.getElem?_setIfInBounds] at hpc
    split at hpc
    · split at hpc
      · cases hpc
        cases hi
      · cases hpc
    · exact hpc

end Works

namespace CallFree

/-- Only the registers have changed. -/
theorem of_registers {rs : Registers}
    (hinOrder : rs.inOrder = true → f.registers.inOrder = true)
    (horderly : f.registers.Orderly → rs.Orderly) : f.CallFree { f with registers := rs } where
  toContinues := .of_registers rfl hinOrder horderly
  children := rfl
  calls _ _ _ hpc _ := hpc

/-- The marks have moved, and this has been noted. -/
theorem of_note {ms : Registers} {stepInOrder : Bool}
    (hinOrder : ms.inOrder = f.registers.inOrder) (hlocals : ms.locals = f.registers.locals) :
    f.CallFree { f with registers := ms.note stepInOrder } := by
  apply of_registers
  · intro hnote
    exact hinOrder ▸ (Registers.note_inOrder_iff.mp hnote).1
  · intro hf
    exact hf.note_of_locals_eq hinOrder hlocals

theorem emit {is : List Instruction} (h : ∀ i ∈ is, i.isCall = false) : f.CallFree (f.emit is) where
  toContinues := .emit f is
  children := rfl
  calls _ pc i hpc hi := by
    rw [OpenFunction.emit, Array.getElem?_append] at hpc
    split at hpc
    · exact hpc
    · have hmem : i ∈ is.toArray := Array.mem_of_getElem? hpc
      have hfree := h i (by simpa using hmem)
      cases hi.symm.trans hfree

end CallFree

end OpenFunction

namespace Build

variable {α β : Type}

/-- A step that goes on without a call, if it succeeds. -/
def CallFree (step : Build α) : Prop := ∀ ⦃f a g⦄, step f = .ok a g → f.CallFree g

/-! ## Rules -/

@[simp] theorem callFree_pure (a : α) : CallFree (pure a) := by
  rintro f _ _ ⟨⟩
  exact .refl f

@[simp] theorem callFree_throw (e : Failure) : CallFree (throw e : Build α) := nofun

@[simp] theorem callFree_bind {x : Build α} {k : α → Build β} (hx : CallFree x)
    (hk : ∀ a, CallFree (k a)) : CallFree (x >>= k) := by
  intro f b h hrun
  obtain ⟨a, g, ha, hb⟩ := bind_eq_ok hrun
  exact (hx ha).trans (hk a hb)

@[simp] theorem callFree_map {x : Build α} (φ : α → β) (hx : CallFree x) : CallFree (φ <$> x) := by
  rw [map_eq_pure_bind]
  exact callFree_bind hx fun a ↦ callFree_pure (φ a)

@[simp] theorem callFree_get : CallFree get := by
  rintro f _ _ ⟨⟩
  exact .refl f

@[simp] theorem callFree_ofExcept (x : Except Failure α) : CallFree (MonadExcept.ofExcept x) := by
  cases x with
  | ok a => exact callFree_pure a
  | error e => exact callFree_throw e

theorem callFree_modify {φ : OpenFunction → OpenFunction}
    (h : ∀ f : OpenFunction, f.CallFree (φ f)) : CallFree (modify φ) := by
  rintro f _ _ ⟨⟩
  exact h f

/-! ## Code, constants and registers -/

theorem callFree_push {i : Instruction} (hi : i.isCall = false) : CallFree (push i) := by
  intro f _ g hrun
  cases (push_apply i f).symm.trans hrun
  exact .emit (List.forall_mem_singleton.mpr hi)

/-- An operation other than a call. -/
@[simp] theorem callFree_push_abc {op : Opcode} (hop : op ≠ .call) (x y z : Nat) :
    CallFree (push (.abc op x y z)) := by
  apply callFree_push
  cases op <;> simp_all [Instruction.isCall]

@[simp] theorem callFree_push_abx (op : Opcode) (x y : Nat) : CallFree (push (.abx op x y)) :=
  callFree_push rfl

@[simp] theorem callFree_push_asbx (op : Opcode) (x : Nat) (y : Int) :
    CallFree (push (.asbx op x y)) :=
  callFree_push rfl

@[simp] theorem callFree_push_ax (op : Opcode) (x : Nat) : CallFree (push (.ax op x)) :=
  callFree_push rfl

@[simp] theorem callFree_here : CallFree here := by simp [here]

@[simp] theorem callFree_pushTest {op : Opcode} (hop : op ≠ .call) (x y z : Nat) (offset : Int) :
    CallFree (pushTest op x y z offset) :=
  callFree_bind (callFree_push_abc hop x y z) fun _ ↦ by simp

@[simp] theorem callFree_constantIndex (k : Constant) : CallFree (constantIndex k) := by
  rintro f _ _ ⟨⟩
  exact ⟨.of_registers rfl id id, rfl, fun _ _ _ hpc _ ↦ hpc⟩

@[simp] theorem callFree_stringIndex (s : String) : CallFree (stringIndex s) :=
  callFree_constantIndex _

theorem takeRegister_eq_ok {f g : OpenFunction} {r : Nat} (h : takeRegister f = .ok r g) :
    r = f.registers.next ∧ g = { f with registers := f.registers.take } := by
  rw [takeRegister, get_bind] at h
  split at h
  · cases h
    exact ⟨rfl, rfl⟩
  · cases h

@[simp] theorem callFree_takeRegister : CallFree takeRegister := by
  intro f r g hrun
  obtain ⟨-, rfl⟩ := takeRegister_eq_ok hrun
  exact .of_note rfl rfl

@[simp] theorem callFree_release (r : Nat) : CallFree (release r) := by
  apply callFree_modify
  intro f
  simp only [Registers.release]
  split
  · exact .of_note rfl rfl
  · exact .refl f

@[simp] theorem callFree_releaseDownTo (level : Nat) : CallFree (releaseDownTo level) := by
  apply callFree_modify
  intro f
  simp only [Registers.releaseDownTo]
  split
  · exact .of_note rfl rfl
  · exact .refl f

@[simp] theorem callFree_bindLocal (name : String) (r : Nat) (isConst : Bool) :
    CallFree (bindLocal name r isConst) := by
  apply callFree_modify
  intro f
  apply OpenFunction.CallFree.of_registers
  · intro hbound
    exact (Registers.note_inOrder_iff.mp hbound).1
  · intro hf
    exact hf.bind name r isConst

@[simp] theorem callFree_settle : CallFree settle := callFree_modify fun _ ↦ .of_note rfl rfl

/-! ## Placing -/

@[simp] theorem callFree_releaseBoth (r s : Nat) : CallFree (releaseBoth r s) := by
  simp [releaseBoth]

@[simp] theorem callFree_releaseValue (v : Value) : CallFree (releaseValue v) := by
  unfold releaseValue
  split <;> simp

@[simp] theorem callFree_releaseOperand (x : Nat) : CallFree (releaseOperand x) := by
  unfold releaseOperand
  split <;> simp

@[simp] theorem callFree_releaseOperands (x y : Nat) : CallFree (releaseOperands x y) := by
  unfold releaseOperands
  split
  · simp
  · split <;> simp

@[simp] theorem callFree_loadFromPool (register k : Nat) : CallFree (loadFromPool register k) := by
  unfold loadFromPool
  split <;> simp

@[simp] theorem callFree_loadNil (register : Nat) : CallFree (loadNil register) :=
  callFree_push rfl

@[simp] theorem callFree_load (v : Value) (register : Nat) : CallFree (load v register) := by
  cases v with
  | register r =>
    simp only [load]
    split <;> simp
  | constant k => exact callFree_loadFromPool register k
  | upvalue u => exact callFree_push rfl
  | member owner key => cases owner <;> simp [load]

@[simp] theorem callFree_inNewRegister (v : Value) : CallFree (inNewRegister v) :=
  callFree_bind (callFree_releaseValue v) fun _ ↦ by simp

@[simp] theorem callFree_inRegister (v : Value) : CallFree (inRegister v) := by
  unfold inRegister
  split <;> simp

@[simp] theorem callFree_toOperand (v : Value) : CallFree (toOperand v) := by
  unfold toOperand
  split
  · split <;> simp
  · simp

@[simp] theorem callFree_toKey (v : Value) : CallFree (toKey v) := by
  unfold toKey
  split
  · split <;> simp
  · simp

@[simp] theorem callFree_toTable (v : Value) : CallFree (toTable v) := by
  unfold toTable
  split <;> simp

@[simp] theorem callFree_globalField (name : String) : CallFree (globalField name) := by
  unfold globalField
  apply callFree_bind callFree_get
  intro f
  split <;> simp

@[simp] theorem callFree_globalValue (name : String) : CallFree (globalValue name) := by
  simp [globalValue]

/-! ## Assignment -/

@[simp] theorem callFree_globalTarget (name : String) : CallFree (globalTarget name) := by
  simp [globalTarget]

@[simp] theorem callFree_setLocal (register : Nat) (v : Value) :
    CallFree (setLocal register v) := by
  simp [setLocal]

@[simp] theorem callFree_read (target : Target) : CallFree target.read := by
  have hread (i : Nat → Instruction) (hi : ∀ dst, (i dst).isCall = false) : CallFree (do
      let dst ← takeRegister
      push (i dst)
      return Value.register dst) :=
    callFree_bind callFree_takeRegister fun dst ↦ callFree_bind (callFree_push (hi dst)) (by simp)
  cases target with
  | register r => exact callFree_pure _
  | upvalue u => exact hread (fun dst ↦ .abc .getUpval dst u 0) fun _ ↦ rfl
  | member owner key =>
    cases owner with
    | register t => exact hread (fun dst ↦ .abc .getTable dst t key) fun _ ↦ rfl
    | upvalue u => exact hread (fun dst ↦ .abc .getTabUp dst u key) fun _ ↦ rfl

@[simp] theorem callFree_write (target : Target) (v : Value) : CallFree (target.write v) := by
  cases target with
  | register r => exact callFree_setLocal r v
  | upvalue u =>
    apply callFree_bind (callFree_inRegister v)
    intro r
    exact callFree_bind (callFree_push rfl) fun _ ↦ callFree_release r
  | member owner key =>
    apply callFree_bind (callFree_toOperand v)
    intro x
    apply callFree_bind
    · cases owner <;> exact callFree_push rfl
    · exact fun _ ↦ callFree_releaseOperand x

theorem callFree_releaseTarget (target : Target) : CallFree target.release := by
  unfold Target.release
  split <;> simp

@[simp] theorem callFree_assign (target : Target) (v : Value) : CallFree (target.assign v) :=
  callFree_bind (callFree_write target v) fun _ ↦ callFree_releaseTarget target

@[simp] theorem callFree_assignValue (target : Target) (v : Value) :
    CallFree (target.assignValue v) := by
  unfold Target.assignValue
  split
  · simp
  · apply callFree_bind (callFree_inRegister v)
    intro r
    apply callFree_bind (callFree_assign _ _)
    intro _
    apply callFree_bind callFree_get
    intro f
    split <;> simp

/-! ## Constructs -/

@[simp] theorem callFree_newNil : CallFree newNil := by simp [newNil]

@[simp] theorem callFree_literal (l : Literal) : CallFree (literal l) := by
  cases l with
  | boolean value =>
    exact callFree_bind callFree_takeRegister fun r ↦ callFree_bind (callFree_push rfl) (by simp)
  | _ => simp [literal]

@[simp] theorem callFree_newTable (items fields : Nat) : CallFree (newTable items fields) :=
  callFree_bind callFree_takeRegister fun r ↦ callFree_bind (callFree_push rfl) (by simp)

@[simp] theorem callFree_setField (table key value : Nat) :
    CallFree (setField table key value) := by
  simp [setField]

@[simp] theorem callFree_item (v : Value) : CallFree (item v) := by simp [item]

@[simp] theorem callFree_hole : CallFree hole := by simp [hole]

@[simp] theorem callFree_storeBatch (table count batch : Nat) :
    CallFree (storeBatch table count batch) := by
  simp [storeBatch]

@[simp] theorem callFree_setFirst (table : Nat) (v : Value) : CallFree (setFirst table v) :=
  callFree_bind (callFree_toOperand v) fun _ ↦ by simp

theorem callFree_unary {o : UnaryOp} {op : Opcode} (ho : o.opcode? = some op) (v : Value) :
    CallFree (unary op v) := by
  have hop : op ≠ .call := by
    cases o <;> cases ho <;> simp
  apply callFree_bind (callFree_inRegister v)
  intro src
  apply callFree_bind (callFree_release src)
  intro _
  apply callFree_bind callFree_takeRegister
  intro dst
  exact callFree_bind (callFree_push_abc hop dst src 0) (by simp)

@[simp] theorem callFree_drop (v : Value) : CallFree (drop v) := by simp [drop]

@[simp] theorem callFree_returnValue (v : Value) : CallFree (returnValue v) :=
  callFree_bind (callFree_inRegister v) fun _ ↦ by simp

@[simp] theorem callFree_returnNone : CallFree returnNone := callFree_push rfl

/-! ## Operators -/

@[simp] theorem callFree_beginBinary (op : BinaryOp) (isString : Bool) (v : Value) :
    CallFree (beginBinary op isString v) := by
  unfold beginBinary
  split
  · apply callFree_bind (callFree_inRegister v)
    intro src
    apply callFree_bind (callFree_release src)
    intro _
    apply callFree_bind callFree_takeRegister
    intro dst
    exact callFree_bind (callFree_pushTest (by simp) _ _ _ _) (by simp)
  · simp
  · split
    · simp
    · split <;> simp

end Build

namespace Pending

open Build

/-- An operation that always evaluates its right operand. -/
def IsPlain : Pending → Prop
  | .logical .. => False
  | .comparison test _ => test.op ≠ .call
  | .concat _ => True
  | .arithmetic op _ => op ≠ .call

def left : Pending → Nat
  | .logical x _ | .comparison _ x | .concat x | .arithmetic _ x => x

/-- How both operands of an operation are placed. -/
def place : Pending → Value → Build Nat
  | .concat _ => inNewRegister
  | _ => toOperand

/-- What is left to do when the right operand has been placed. -/
def conclude : Pending → Nat → Build Value
  | .logical dst _, _ => return .register dst
  | .comparison test left, right => do
    let dst ← resultRegister left right
    pushComparison test dst left right
    return .register dst
  | .concat left, right => do
    releaseBoth left right
    let dst ← takeRegister
    push (.abc .concat dst left right)
    return .register dst
  | .arithmetic op left, right => do
    let dst ← resultRegister left right
    push (.abc op dst left right)
    return .register dst

variable {pending : Pending}

theorem finishBinary_eq (h : pending.IsPlain) (v : Value) :
    finishBinary pending v = pending.place v >>= pending.conclude := by
  cases pending with
  | logical dst jump => exact h.elim
  | _ => rfl

@[simp] theorem callFree_place (pending : Pending) (v : Value) : CallFree (pending.place v) := by
  cases pending with
  | concat left => exact callFree_inNewRegister v
  | _ => exact callFree_toOperand v

theorem callFree_conclude (h : pending.IsPlain) (right : Nat) :
    CallFree (pending.conclude right) := by
  cases pending with
  | logical dst jump => exact h.elim
  | comparison test left =>
    apply callFree_bind (by simp [resultRegister])
    intro dst
    apply callFree_bind
    · exact callFree_bind (callFree_pushTest h _ _ _ _) fun _ ↦ by simp
    · exact fun _ ↦ callFree_pure _
  | concat left =>
    apply callFree_bind (callFree_releaseBoth left right)
    intro _
    apply callFree_bind callFree_takeRegister
    intro dst
    exact callFree_bind (callFree_push rfl) fun _ ↦ callFree_pure _
  | arithmetic op left =>
    apply callFree_bind (by simp [resultRegister])
    intro dst
    exact callFree_bind (callFree_push_abc h _ _ _) fun _ ↦ callFree_pure _

end Pending

theorem BinaryOp.op_comparison?_ne_call {op : BinaryOp} {test : Comparison}
    (h : op.comparison? = some test) : test.op ≠ .call := by
  cases op <;> cases h <;> decide

theorem BinaryOp.arithmetic?_ne_call {op : BinaryOp} {opcode : Opcode}
    (h : op.arithmetic? = some opcode) : opcode ≠ .call := by
  cases op <;> cases h <;> decide

namespace Build

variable {f g : OpenFunction} {op : BinaryOp} {isString : Bool} {v w : Value} {pending : Pending}

theorem beginBinary_eq_ok (hop : op.logical? = none)
    (h : beginBinary op isString v f = .ok pending g) :
    pending.IsPlain ∧ pending.place v f = .ok pending.left g := by
  rw [beginBinary, hop] at h
  cases hcomparison : op.comparison? with
  | some test =>
    simp only [hcomparison] at h
    obtain ⟨x, g', hplace, ⟨⟩⟩ := bind_eq_ok h
    exact ⟨BinaryOp.op_comparison?_ne_call hcomparison, hplace⟩
  | none =>
    simp only [hcomparison] at h
    split at h
    · obtain ⟨r, g', hplace, ⟨⟩⟩ := bind_eq_ok h
      exact ⟨trivial, hplace⟩
    · cases harithmetic : op.arithmetic? with
      | some opcode =>
        simp only [harithmetic] at h
        obtain ⟨x, g', hplace, ⟨⟩⟩ := bind_eq_ok h
        exact ⟨BinaryOp.arithmetic?_ne_call harithmetic, hplace⟩
      | none =>
        simp only [harithmetic] at h
        cases h

theorem callFree_finishBinary (h : pending.IsPlain) (v : Value) :
    CallFree (finishBinary pending v) := by
  rw [Pending.finishBinary_eq h]
  exact callFree_bind (pending.callFree_place v) (Pending.callFree_conclude h)

/-- The jump past the right operand belongs to the code that comes before this operand. -/
theorem jump_of_beginBinary {decides : Nat} (hop : op.logical? = some decides)
    (h : beginBinary op isString v f = .ok pending g) :
    ∃ dst jump, pending = .logical dst jump ∧ f.proto.code.size ≤ jump ∧
      jump < g.proto.code.size := by
  rw [beginBinary, hop] at h
  obtain ⟨src, f₁, hsrc, h⟩ := bind_eq_ok h
  obtain ⟨_, f₂, hrelease, h⟩ := bind_eq_ok h
  obtain ⟨dst, f₃, htake, h⟩ := bind_eq_ok h
  rw [bind_of_ok (pushTest_apply _ _ _ _ _ _)] at h
  cases h
  have hsize : f.proto.code.size ≤ f₃.proto.code.size :=
    (((callFree_inRegister v hsrc).trans (callFree_release src hrelease)).trans
      (callFree_takeRegister htake)).size_le
  exact ⟨dst, f₃.proto.code.size + 1, rfl, Nat.le_succ_of_le hsize, by simp [OpenFunction.emit]⟩

theorem landing_of_finishBinary {dst jump : Nat}
    (h : finishBinary (.logical dst jump) v f = .ok w g) :
    ∃ f', f.CallFree f' ∧ g = f'.landing jump := by
  obtain ⟨_, f₁, hrelease, h⟩ := bind_eq_ok h
  obtain ⟨_, f₂, hload, h⟩ := bind_eq_ok h
  rw [bind_of_ok (landJump_apply _ _)] at h
  cases h
  exact ⟨f₂, (callFree_releaseValue v hrelease).trans (callFree_load v dst hload), rfl⟩

/-! ## Calls and closures -/

theorem works_call {calling : Prop} {F : Nat → Prop} {base argCount : Nat} {isOpen : Bool}
    {use : ResultUse} (hcalling : calling) (h : call base argCount isOpen use f = .ok () g) :
    f.Works calling F g := by
  rw [call, bind_of_ok (push_apply _ _)] at h
  obtain ⟨_, f₁, hrelease, h⟩ := bind_eq_ok h
  have hrest : CallFree (if use ≠ .discard then do let _ ← takeRegister else return) := by
    split <;> simp
  have hfree := (callFree_releaseDownTo base hrelease).trans (hrest h)
  have hworks : OpenFunction.Works calling F _ g := .of_callFree hfree
  exact ⟨(OpenFunction.Continues.emit f _).trans hworks.toContinues, hfree.children,
    fun hnot ↦ (hnot hcalling).elim⟩

end Build

end LuaLower
