import LuaLower.Lowering.Parts
import LuaLower.Proofs.Outcome

/-!
# Steps that do not concern variables

Most steps in the construction of a function add code and constants or take and release temporaries.
Whether they succeed or fail, they leave its locals, its upvalues and the functions nested in it
alone.
-/

namespace LuaLower

structure OpenFunction.SameVariables (f g : OpenFunction) : Prop where
  locals : g.registers.locals = f.registers.locals
  upvalues : g.proto.upvalues = f.proto.upvalues
  children : g.proto.children = f.proto.children

namespace OpenFunction.SameVariables

variable {f g h : OpenFunction}

theorem refl (f : OpenFunction) : f.SameVariables f := ⟨rfl, rfl, rfl⟩

theorem trans (hfg : f.SameVariables g) (hgh : g.SameVariables h) : f.SameVariables h where
  locals := hgh.locals.trans hfg.locals
  upvalues := hgh.upvalues.trans hfg.upvalues
  children := hgh.children.trans hfg.children

end OpenFunction.SameVariables

namespace Build

variable {α β : Type}

def Neutral (step : Build α) : Prop :=
  ∀ f, Yields step f (fun _ g ↦ f.SameVariables g) (fun _ g ↦ f.SameVariables g)

/-- A neutral step whose result is a register that instructions can name. -/
def GivesRegister (step : Build Nat) : Prop :=
  ∀ f, Yields step f (fun r g ↦ r < Registers.limit ∧ f.SameVariables g)
    (fun _ g ↦ f.SameVariables g)

theorem GivesRegister.neutral {step : Build Nat} (h : GivesRegister step) : Neutral step :=
  fun f ↦ (h f).mono (fun _ _ h ↦ h.2) fun _ _ h ↦ h

/-! ## Rules -/

@[simp] theorem neutral_pure (a : α) : Neutral (pure a) := fun f ↦ yields_pure (.refl f)

@[simp] theorem neutral_throw (e : Failure) : Neutral (throw e : Build α) :=
  fun f ↦ yields_throw (.refl f)

@[simp] theorem neutral_bind {x : Build α} {k : α → Build β} (hx : Neutral x)
    (hk : ∀ a, Neutral (k a)) : Neutral (x >>= k) := by
  intro f
  refine (hx f).bind fun a g hfg ↦ ?_
  exact (hk a g).mono (fun _ _ hgh ↦ hfg.trans hgh) (fun _ _ hgh ↦ hfg.trans hgh)

@[simp] theorem neutral_map {x : Build α} (φ : α → β) (hx : Neutral x) : Neutral (φ <$> x) := by
  rw [map_eq_pure_bind]
  exact neutral_bind hx fun a ↦ neutral_pure (φ a)

@[simp] theorem neutral_get : Neutral get := fun f ↦ .of_ok rfl (.refl f)

@[simp] theorem neutral_ofExcept (x : Except Failure α) : Neutral (MonadExcept.ofExcept x) := by
  cases x with
  | ok a => exact neutral_pure a
  | error e => exact neutral_throw e

theorem neutral_modify {φ : OpenFunction → OpenFunction}
    (h : ∀ f : OpenFunction, f.SameVariables (φ f)) : Neutral (modify φ) :=
  fun f ↦ .of_ok rfl (h f)

/-! ## Code, constants and registers -/

@[simp] theorem neutral_push (i : Instruction) : Neutral (push i) :=
  neutral_modify fun _ ↦ ⟨rfl, rfl, rfl⟩

@[simp] theorem neutral_here : Neutral here := by simp [here]

@[simp] theorem neutral_pushTest (op : Opcode) (a b c : Nat) (offset : Int) :
    Neutral (pushTest op a b c offset) :=
  neutral_bind (neutral_push _) fun _ ↦ by simp

@[simp] theorem neutral_landJump (jump : Nat) : Neutral (landJump jump) :=
  neutral_modify fun _ ↦ ⟨rfl, rfl, rfl⟩

@[simp] theorem neutral_constantIndex (k : Constant) : Neutral (constantIndex k) :=
  fun _ ↦ .of_ok rfl ⟨rfl, rfl, rfl⟩

@[simp] theorem neutral_stringIndex (s : String) : Neutral (stringIndex s) :=
  neutral_constantIndex _

theorem givesRegister_takeRegister : GivesRegister takeRegister := by
  intro f
  by_cases h : f.registers.next < Registers.limit
  · refine .of_ok (a := f.registers.next) (t := { f with registers := f.registers.take }) ?_
      ⟨h, rfl, rfl, rfl⟩
    rw [takeRegister, get_bind, if_pos h]
    rfl
  · refine .of_error (e := .unimplemented .registerLimit) (t := f) ?_ (.refl f)
    rw [takeRegister, get_bind, if_neg h]
    rfl

@[simp] theorem neutral_takeRegister : Neutral takeRegister := givesRegister_takeRegister.neutral

@[simp] theorem neutral_release (r : Nat) : Neutral (release r) := by
  refine neutral_modify fun f ↦ ⟨?_, rfl, rfl⟩
  simp only [Registers.release]
  split <;> rfl

@[simp] theorem neutral_releaseDownTo (level : Nat) : Neutral (releaseDownTo level) := by
  refine neutral_modify fun f ↦ ⟨?_, rfl, rfl⟩
  simp only [Registers.releaseDownTo]
  split <;> rfl

@[simp] theorem neutral_settle : Neutral settle := neutral_modify fun _ ↦ ⟨rfl, rfl, rfl⟩

/-! ## Placing -/

@[simp] theorem neutral_releaseBoth (r s : Nat) : Neutral (releaseBoth r s) := by simp [releaseBoth]

@[simp] theorem neutral_releaseValue (v : Value) : Neutral (releaseValue v) := by
  unfold releaseValue
  split <;> simp

@[simp] theorem neutral_releaseOperand (x : Nat) : Neutral (releaseOperand x) := by
  unfold releaseOperand
  split <;> simp

@[simp] theorem neutral_releaseOperands (x y : Nat) : Neutral (releaseOperands x y) := by
  unfold releaseOperands
  split
  · simp
  · split <;> simp

@[simp] theorem neutral_loadFromPool (register k : Nat) : Neutral (loadFromPool register k) := by
  unfold loadFromPool
  split <;> simp

@[simp] theorem neutral_loadNil (register : Nat) : Neutral (loadNil register) := neutral_push _

@[simp] theorem neutral_load (v : Value) (register : Nat) : Neutral (load v register) := by
  cases v with
  | register r =>
    simp only [load]
    split <;> simp
  | constant k => exact neutral_loadFromPool register k
  | upvalue u => exact neutral_push _
  | member owner key => cases owner <;> simp [load]

theorem givesRegister_inNewRegister (v : Value) : GivesRegister (inNewRegister v) := by
  intro f
  refine (neutral_releaseValue v f).bind fun _ g hfg ↦ ?_
  have htake : Yields takeRegister g (fun r h ↦ r < Registers.limit ∧ f.SameVariables h)
      (fun _ h ↦ f.SameVariables h) :=
    (givesRegister_takeRegister g).mono (fun _ _ h ↦ ⟨h.1, hfg.trans h.2⟩) fun _ _ h ↦ hfg.trans h
  refine htake.bind fun r h ⟨hr, hfh⟩ ↦ ?_
  have hload := (neutral_load v r h).mono (fun _ _ hhi ↦ hfh.trans hhi) fun _ _ hhi ↦ hfh.trans hhi
  exact hload.bind fun _ i hfi ↦ yields_pure ⟨hr, hfi⟩

@[simp] theorem neutral_inNewRegister (v : Value) : Neutral (inNewRegister v) :=
  (givesRegister_inNewRegister v).neutral

@[simp] theorem neutral_inRegister (v : Value) : Neutral (inRegister v) := by
  unfold inRegister
  split <;> simp

@[simp] theorem neutral_toOperand (v : Value) : Neutral (toOperand v) := by
  unfold toOperand
  split
  · split <;> simp
  · simp

@[simp] theorem neutral_toKey (v : Value) : Neutral (toKey v) := by
  unfold toKey
  split
  · split <;> simp
  · simp

@[simp] theorem neutral_toTable (v : Value) : Neutral (toTable v) := by
  unfold toTable
  split <;> simp

@[simp] theorem neutral_globalField (name : String) : Neutral (globalField name) := by
  unfold globalField
  refine neutral_bind neutral_get fun f ↦ ?_
  split <;> simp

@[simp] theorem neutral_globalValue (name : String) : Neutral (globalValue name) := by
  simp [globalValue]

/-! ## Operators and assignment -/

@[simp] theorem neutral_beginBinary (op : BinaryOp) (isString : Bool) (v : Value) :
    Neutral (beginBinary op isString v) := by
  unfold beginBinary
  split
  · refine neutral_bind (neutral_inRegister v) fun src ↦ neutral_bind (neutral_release src) ?_
    simp
  · simp
  · split
    · simp
    · split <;> simp

@[simp] theorem neutral_finishBinary (pending : Pending) (v : Value) :
    Neutral (finishBinary pending v) := by
  cases pending with
  | logical dst jump => exact neutral_bind (neutral_releaseValue v) fun _ ↦ by simp
  | comparison test left =>
    refine neutral_bind (neutral_toOperand v) fun right ↦ neutral_bind ?_ fun dst ↦ ?_
    · simp [resultRegister]
    · refine neutral_bind (neutral_bind (neutral_pushTest _ _ _ _ _) ?_) fun _ ↦ neutral_pure _
      simp
  | concat left =>
    refine neutral_bind (neutral_inNewRegister v) fun right ↦ ?_
    exact neutral_bind (neutral_releaseBoth left right) fun _ ↦ by simp
  | arithmetic op left =>
    refine neutral_bind (neutral_toOperand v) fun right ↦ neutral_bind ?_ fun dst ↦ ?_
    · simp [resultRegister]
    · simp

@[simp] theorem neutral_globalTarget (name : String) : Neutral (globalTarget name) := by
  simp [globalTarget]

@[simp] theorem neutral_setLocal (register : Nat) (v : Value) : Neutral (setLocal register v) := by
  simp [setLocal]

@[simp] theorem neutral_read (target : Target) : Neutral target.read := by
  unfold Target.read Target.readField
  split
  · simp
  · simp
  · split <;> simp

@[simp] theorem neutral_write (target : Target) (v : Value) : Neutral (target.write v) := by
  unfold Target.write Target.writeField
  split
  · simp
  · simp
  · split <;> simp

@[simp] theorem neutral_assign (target : Target) (v : Value) : Neutral (target.assign v) := by
  refine neutral_bind (neutral_write target v) fun _ ↦ ?_
  unfold Target.release
  split <;> simp

@[simp] theorem neutral_assignValue (target : Target) (v : Value) :
    Neutral (target.assignValue v) := by
  unfold Target.assignValue
  split
  · simp
  · refine neutral_bind (neutral_inRegister v) fun r ↦ neutral_bind (neutral_assign _ _) fun _ ↦ ?_
    refine neutral_bind neutral_get fun f ↦ ?_
    split <;> simp

/-! ## Constructs -/

theorem givesRegister_newNil : GivesRegister newNil := by
  intro f
  refine (givesRegister_takeRegister f).bind fun r g ⟨hr, hfg⟩ ↦ ?_
  have hload := (neutral_loadNil r g).mono (fun _ _ hgh ↦ hfg.trans hgh) fun _ _ hgh ↦ hfg.trans hgh
  exact hload.bind fun _ h hfh ↦ yields_pure ⟨hr, hfh⟩

@[simp] theorem neutral_newNil : Neutral newNil := givesRegister_newNil.neutral

@[simp] theorem neutral_literal (l : Literal) : Neutral (literal l) := by
  cases l <;> simp [literal]

@[simp] theorem neutral_newTable (items fields : Nat) : Neutral (newTable items fields) := by
  simp [newTable]

@[simp] theorem neutral_setField (table key value : Nat) : Neutral (setField table key value) := by
  simp [setField]

@[simp] theorem neutral_item (v : Value) : Neutral (item v) := by simp [item]

@[simp] theorem neutral_hole : Neutral hole := by simp [hole]

@[simp] theorem neutral_storeBatch (table count batch : Nat) :
    Neutral (storeBatch table count batch) := by
  simp [storeBatch]

@[simp] theorem neutral_setFirst (table : Nat) (v : Value) : Neutral (setFirst table v) :=
  neutral_bind (neutral_toOperand v) fun _ ↦ by simp

@[simp] theorem neutral_unary (op : Opcode) (v : Value) : Neutral (unary op v) :=
  neutral_bind (neutral_inRegister v) fun src ↦ neutral_bind (neutral_release src) fun _ ↦ by simp

@[simp] theorem neutral_call (base argCount : Nat) (isOpen : Bool) (use : ResultUse) :
    Neutral (call base argCount isOpen use) := by
  unfold call
  refine neutral_bind (neutral_push _) fun _ ↦ neutral_bind (neutral_releaseDownTo base) fun _ ↦ ?_
  split <;> simp

@[simp] theorem neutral_drop (v : Value) : Neutral (drop v) := by simp [drop]

@[simp] theorem neutral_returnValue (v : Value) : Neutral (returnValue v) := by simp [returnValue]

@[simp] theorem neutral_returnNone : Neutral returnNone := neutral_push _

end Build

end LuaLower
