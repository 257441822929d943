import LuaLower.Lowering.Body
import LuaLower.Proofs.Session.Resolution
import LuaLower.Proofs.Syntax.Subset

/-!
# Why lowering fails

A step that lowers part of a program succeeds only if that part is in the compiled subset. If it
fails, then either it refuses a construct outside the subset, or the failure is one of a few that a
program of the subset can have. To see that no other failure is possible it is enough to follow what
values look like; how many registers are in use does not matter.
-/

namespace LuaLower

/-- The failures that a program of the compiled subset can have. -/
inductive Failure.IsLimit : Failure → Prop
  | unresolved (name : String) : IsLimit (.unresolved name)
  | registerLimit : IsLimit (.unimplemented .registerLimit)
  | upvalueLimit : IsLimit (.unimplemented .upvalueLimit)
  | constantTarget (name : String) : IsLimit (.unsupported (.constantTarget name))
  | namedConstantTarget {name : String} : (namedConstant? name).isSome = true →
    IsLimit (.unsupported (.namedConstantTarget name))

/-- The failures that name a construct outside the compiled subset. -/
inductive Failure.IsRefusal : Failure → Prop
  | node (kind : String) : IsRefusal (.unsupported (.node kind))
  | bigint : IsRefusal (.unsupported .bigint)
  | regex : IsRefusal (.unsupported .regex)
  | propertyKey : IsRefusal (.unsupported .propertyKey)
  | unary (op : UnaryOp) : IsRefusal (.unsupported (.unary op))
  | binary (op : BinaryOp) : IsRefusal (.unsupported (.binary op))
  | logicalAssignment (op : BinaryOp) : IsRefusal (.unsupported (.logicalAssignment op))
  | target (kind : String) : IsRefusal (.unsupported (.target kind))
  | arrayLimit : IsRefusal (.unimplemented .arrayLimit)
  | expressionArrow : IsRefusal (.unimplemented .expressionArrow)
  | postfixUpdate : IsRefusal (.unimplemented .postfixUpdate)

/-- A failure on something that is supported or not. -/
def Failure.Excused (supported : Bool) (e : Failure) : Prop :=
  e.IsLimit ∨ e.IsRefusal ∧ supported = false

theorem Failure.Excused.and_right {e : Failure} {p : Bool} (h : e.Excused p) (q : Bool) :
    e.Excused (p && q) := by
  rcases h with h | ⟨h, rfl⟩
  · exact .inl h
  · exact .inr ⟨h, rfl⟩

theorem Failure.Excused.and_left {e : Failure} {q : Bool} (h : e.Excused q) (p : Bool) :
    e.Excused (p && q) := by
  rcases h with h | ⟨h, rfl⟩
  · exact .inl h
  · exact .inr ⟨h, Bool.and_false p⟩

/-- Member accesses are put together from tables and keys. -/
def Value.IsLoadable : Value → Prop
  | .member owner key => owner.IsTable ∧ key.IsKey
  | _ => True

theorem Place.isLoadable_toValue (place : Place) : place.toValue.IsLoadable := by
  cases place <;> exact trivial

/-! ## Steps on the innermost function -/

namespace Build

variable {α β : Type} {p q : Bool} {P : α → Prop} {Q : β → Prop} {x : Build α} {k : α → Build β}

def Judged (supported : Bool) (P : α → Prop) (step : Build α) : Prop :=
  ∀ f, Yields step f (fun a _ ↦ supported = true ∧ P a) (fun e _ ↦ e.Excused supported)

namespace Judged

theorem pure {a : α} (h : P a) : Judged true P (pure a) := fun _ ↦ yields_pure ⟨rfl, h⟩

theorem throw {e : Failure} (h : e.IsLimit) : Judged p P (throw e : Build α) :=
  fun _ ↦ yields_throw (.inl h)

theorem refuse {e : Failure} (h : e.IsRefusal) : Judged false P (MonadExcept.throw e : Build α) :=
  fun _ ↦ yields_throw (.inr ⟨h, rfl⟩)

theorem bind (hx : Judged p P x) (hk : ∀ a, P a → Judged q Q (k a)) :
    Judged (p && q) Q (x >>= k) := by
  intro f
  refine Yields.bind ((hx f).mono (fun _ _ h ↦ h) fun e _ h ↦ h.and_right q) ?_
  rintro a g ⟨rfl, ha⟩
  exact (hk a ha g).mono (fun _ _ h ↦ h) fun e _ h ↦ h.and_left true

theorem of_ok {a : OpenFunction → α} {g : OpenFunction → OpenFunction}
    (hx : ∀ f, x f = .ok (a f) (g f)) (h : ∀ f, P (a f)) : Judged true P x :=
  fun f ↦ .of_ok (hx f) ⟨rfl, h f⟩

theorem get {k : OpenFunction → Build β} (hk : ∀ f, Judged q Q (k f)) : Judged q Q (get >>= k) :=
  fun f ↦ hk f f

end Judged

/-- A step that refuses nothing. -/
abbrev Tame (step : Build α) : Prop := Judged true (fun _ ↦ True) step

theorem tame_modify (φ : OpenFunction → OpenFunction) : Tame (modify φ : Build Unit) :=
  .of_ok (fun _ ↦ rfl) fun _ ↦ trivial

theorem tame_constantIndex (c : Constant) : Tame (constantIndex c) :=
  .of_ok (constantIndex_apply c) fun _ ↦ trivial

theorem tame_pushTest (op : Opcode) (a b c : Nat) (offset : Int) :
    Tame (pushTest op a b c offset) :=
  .of_ok (pushTest_apply op a b c offset) fun _ ↦ trivial

theorem tame_takeRegister : Tame takeRegister := by
  refine .get fun f ↦ ?_
  split
  · exact (Judged.of_ok (fun _ ↦ rfl) fun _ ↦ trivial : Tame (set _)).bind fun _ _ ↦ .pure trivial
  · exact .throw .registerLimit

/-! ### Placing values -/

theorem tame_releaseBoth (r s : Nat) : Tame (releaseBoth r s) :=
  (tame_modify _).bind fun _ _ ↦ tame_modify _

theorem tame_releaseValue (v : Value) : Tame (releaseValue v) := by
  rw [releaseValue.eq_def]
  split
  · exact tame_modify _
  · exact tame_releaseBoth _ _
  · exact tame_modify _
  · exact tame_modify _
  · exact .pure trivial

theorem tame_releaseOperand (x : Nat) : Tame (releaseOperand x) := by
  rw [releaseOperand]
  split
  · exact .pure trivial
  · exact tame_modify _

theorem tame_releaseOperands (x y : Nat) : Tame (releaseOperands x y) := by
  rw [releaseOperands]
  split
  · exact tame_releaseOperand y
  · split
    · exact tame_modify _
    · exact tame_releaseBoth x y

theorem tame_load {v : Value} (hv : v.IsLoadable) (r : Nat) : Tame (load v r) := by
  cases v with
  | register q =>
    rw [load]
    split
    · exact .pure trivial
    · exact tame_modify _
  | constant k =>
    rw [load, loadFromPool]
    split
    · exact tame_modify _
    · exact (tame_modify _).bind fun _ _ ↦ tame_modify _
  | upvalue u => exact tame_modify _
  | member owner key =>
    rw [load, Value.operand_eq hv.2]
    cases owner with
    | register t => exact tame_modify _
    | upvalue u => exact tame_modify _
    | constant k => exact hv.1.elim
    | member _ _ => exact hv.1.elim

theorem tame_inNewRegister {v : Value} (hv : v.IsLoadable) : Tame (inNewRegister v) := by
  refine (tame_releaseValue v).bind fun _ _ ↦ ?_
  refine tame_takeRegister.bind fun r _ ↦ ?_
  exact (tame_load hv r).bind fun _ _ ↦ .pure trivial

theorem tame_inRegister {v : Value} (hv : v.IsLoadable) : Tame (inRegister v) := by
  cases v with
  | register r => exact .pure trivial
  | _ => exact tame_inNewRegister hv

theorem tame_toOperand {v : Value} (hv : v.IsLoadable) : Tame (toOperand v) := by
  cases v with
  | constant k =>
    rw [toOperand]
    split
    · exact .pure trivial
    · exact tame_inRegister hv
  | _ => exact tame_inRegister hv

theorem judged_toKey {v : Value} (hv : v.IsLoadable) : Judged true Value.IsKey (toKey v) := by
  have hregister : Judged true Value.IsKey (do return .register (← inRegister v)) :=
    (tame_inRegister hv).bind fun _ _ ↦ .pure trivial
  cases v with
  | constant k =>
    rw [toKey]
    split
    case isTrue hk => exact .pure hk
    case isFalse => exact hregister
  | _ => exact hregister

theorem tame_toTable {v : Value} (hv : v.IsLoadable) : Tame (toTable v) := by
  have hregister : Tame (do return Place.register (← inRegister v)) :=
    (tame_inRegister hv).bind fun _ _ ↦ .pure trivial
  cases v with
  | register r => exact .pure trivial
  | upvalue u => exact .pure trivial
  | _ => exact hregister

theorem judged_constantKey (k : Constant) :
    Judged true Value.IsKey (do toKey (.constant (← constantIndex k))) :=
  (tame_constantIndex k).bind fun _ _ ↦ judged_toKey trivial

theorem judged_globalField (name : String) :
    Judged true (fun field ↦ field.2.IsKey) (globalField name) := by
  refine .get fun f ↦ ?_
  split
  · exact .throw (.unresolved _)
  · rw [← bind_assoc]
    exact (judged_constantKey (.string name)).bind fun _ hkey ↦ .pure hkey

theorem judged_globalValue (name : String) : Judged true Value.IsLoadable (globalValue name) :=
  (judged_globalField name).bind fun _ hkey ↦ .pure ⟨trivial, hkey⟩

theorem tame_globalTarget (name : String) : Tame (globalTarget name) := by
  refine (judged_globalField name).bind fun field hkey ↦ ?_
  simp only [Value.operand_eq hkey]
  exact .pure trivial

/-! ### Assignments -/

theorem tame_setLocal {v : Value} (hv : v.IsLoadable) (r : Nat) : Tame (setLocal r v) :=
  (tame_releaseValue v).bind fun _ _ ↦ tame_load hv r

theorem judged_read (target : Target) : Judged true Value.IsLoadable target.read := by
  cases target with
  | register r => exact .pure trivial
  | upvalue u =>
    exact tame_takeRegister.bind fun _ _ ↦ (tame_modify _).bind fun _ _ ↦ .pure trivial
  | member owner key =>
    refine tame_takeRegister.bind fun dst _ ↦ ?_
    rw [Target.readField_eq]
    exact (tame_modify _).bind fun _ _ ↦ .pure trivial

theorem tame_write (target : Target) {v : Value} (hv : v.IsLoadable) : Tame (target.write v) := by
  cases target with
  | register r => exact tame_setLocal hv r
  | upvalue u =>
    exact (tame_inRegister hv).bind fun _ _ ↦ (tame_modify _).bind fun _ _ ↦ tame_modify _
  | member owner key =>
    refine (tame_toOperand hv).bind fun x _ ↦ ?_
    rw [Target.writeField_eq]
    exact (tame_modify _).bind fun _ _ ↦ tame_releaseOperand x

theorem tame_releaseTarget (target : Target) : Tame target.release := by
  rw [Target.release.eq_def]
  split
  · exact tame_releaseOperands _ _
  · exact tame_releaseOperand _
  · exact .pure trivial

theorem tame_assign (target : Target) {v : Value} (hv : v.IsLoadable) : Tame (target.assign v) :=
  (tame_write target hv).bind fun _ _ ↦ tame_releaseTarget target

theorem judged_assignValue (target : Target) {v : Value} (hv : v.IsLoadable) :
    Judged true Value.IsLoadable (target.assignValue v) := by
  have hkeep : Judged true Value.IsLoadable (do
      let r ← inRegister v
      target.assign (.register r)
      if r < (← get).registers.numLocals then
        return .register r
      else
        let dst ← takeRegister
        load (.register r) dst
        return .register dst) := by
    refine (tame_inRegister hv).bind fun r _ ↦ ?_
    have hr : (Value.register r).IsLoadable := trivial
    refine (tame_assign target hr).bind fun _ _ ↦ .get fun f ↦ ?_
    split
    · exact .pure trivial
    · exact tame_takeRegister.bind fun dst _ ↦ (tame_load hr dst).bind fun _ _ ↦ .pure trivial
  cases target with
  | register r => exact (tame_setLocal hv r).bind fun _ _ ↦ .pure trivial
  | upvalue u => exact hkeep
  | member owner key => exact hkeep

/-! ### Operators -/

theorem judged_beginBinary {op : BinaryOp} {isString : Bool} (hstring : isString = true → op = .add)
    {v : Value} (hv : v.IsLoadable) :
    Judged op.isSupported (fun _ ↦ True) (beginBinary op isString v) := by
  have hlogical (decides : Nat) : Tame (beginLogical decides v) := by
    refine (tame_inRegister hv).bind fun src _ ↦ (tame_modify _).bind fun _ _ ↦ ?_
    exact tame_takeRegister.bind fun dst _ ↦ (tame_pushTest _ _ _ _ _).bind fun _ _ ↦ .pure trivial
  have hoperand (pending : Nat → Pending) : Tame (do return pending (← toOperand v)) :=
    (tame_toOperand hv).bind fun _ _ ↦ .pure trivial
  cases isString with
  | true =>
    obtain rfl := hstring rfl
    exact (tame_inNewRegister hv).bind fun _ _ ↦ .pure trivial
  | false =>
    cases op with
    | and | or => exact hlogical _
    | nullish | inside | instanceOf => exact .refuse (.binary _)
    | _ => exact hoperand _

theorem tame_resultRegister (x y : Nat) : Tame (resultRegister x y) :=
  (tame_releaseOperands x y).bind fun _ _ ↦ tame_takeRegister

theorem tame_pushComparison (test : Comparison) (dst left right : Nat) :
    Tame (pushComparison test dst left right) :=
  .of_ok (pushComparison_apply test dst left right) fun _ ↦ trivial

theorem judged_finishBinary (pending : Pending) {v : Value} (hv : v.IsLoadable) :
    Judged true Value.IsLoadable (finishBinary pending v) := by
  cases pending with
  | logical dst jump =>
    refine (tame_releaseValue v).bind fun _ _ ↦ (tame_load hv dst).bind fun _ _ ↦ ?_
    exact (tame_modify _).bind fun _ _ ↦ .pure trivial
  | comparison test left =>
    refine (tame_toOperand hv).bind fun x _ ↦ (tame_resultRegister left x).bind fun dst _ ↦ ?_
    exact (tame_pushComparison test dst left x).bind fun _ _ ↦ .pure trivial
  | concat left =>
    refine (tame_inNewRegister hv).bind fun r _ ↦ (tame_releaseBoth left r).bind fun _ _ ↦ ?_
    exact tame_takeRegister.bind fun _ _ ↦ (tame_modify _).bind fun _ _ ↦ .pure trivial
  | arithmetic op left =>
    refine (tame_toOperand hv).bind fun x _ ↦ (tame_resultRegister left x).bind fun dst _ ↦ ?_
    exact (tame_modify _).bind fun _ _ ↦ .pure trivial

theorem judged_unary (op : Opcode) {v : Value} (hv : v.IsLoadable) :
    Judged true Value.IsLoadable (unary op v) := by
  refine (tame_inRegister hv).bind fun src _ ↦ (tame_modify _).bind fun _ _ ↦ ?_
  exact tame_takeRegister.bind fun dst _ ↦ (tame_modify _).bind fun _ _ ↦ .pure trivial

/-! ### Literals, tables and calls -/

theorem tame_newNil : Tame newNil :=
  tame_takeRegister.bind fun _ _ ↦ (tame_modify _).bind fun _ _ ↦ .pure trivial

theorem judged_constant (k : Constant) :
    Judged true Value.IsLoadable (do return .constant (← constantIndex k)) :=
  Judged.bind (tame_constantIndex k) fun _ _ ↦ .pure trivial

theorem judged_literal (l : Literal) : Judged l.isSupported Value.IsLoadable (literal l) := by
  cases l with
  | number x => exact judged_constant _
  | string s => exact judged_constant _
  | boolean value =>
    exact tame_takeRegister.bind fun _ _ ↦ (tame_modify _).bind fun _ _ ↦ .pure trivial
  | null => exact tame_newNil.bind fun _ _ ↦ .pure trivial
  | bigint digits => exact .refuse .bigint
  | regex pattern flags => exact .refuse .regex

theorem tame_newTable (items fields : Nat) : Tame (newTable items fields) :=
  tame_takeRegister.bind fun _ _ ↦ (tame_modify _).bind fun _ _ ↦ .pure trivial

theorem tame_setField (table key value : Nat) : Tame (setField table key value) :=
  (tame_modify _).bind fun _ _ ↦ tame_releaseOperands key value

theorem tame_item {v : Value} (hv : v.IsLoadable) : Tame (item v) :=
  (tame_inNewRegister hv).bind fun _ _ ↦ .pure trivial

theorem tame_hole : Tame hole := Judged.bind tame_newNil fun _ _ ↦ .pure trivial

theorem tame_storeBatch (table count batch : Nat) : Tame (storeBatch table count batch) :=
  (tame_modify _).bind fun _ _ ↦ tame_modify _

theorem tame_setFirst (table : Nat) {v : Value} (hv : v.IsLoadable) : Tame (setFirst table v) := by
  refine (tame_toOperand hv).bind fun value _ ↦ (tame_constantIndex _).bind fun k _ ↦ ?_
  have hk : (Value.constant k).IsLoadable := trivial
  exact (tame_toOperand hk).bind fun key _ ↦ tame_setField table key value

theorem tame_call (base argCount : Nat) (isOpen : Bool) (use : ResultUse) :
    Tame (call base argCount isOpen use) := by
  refine (tame_modify _).bind fun _ _ ↦ (tame_modify _).bind fun _ _ ↦ ?_
  split
  · exact tame_takeRegister.bind fun _ _ ↦ .pure trivial
  · exact .pure trivial

theorem tame_drop {v : Value} (hv : v.IsLoadable) : Tame (drop v) :=
  (tame_inRegister hv).bind fun _ _ ↦ tame_modify _

theorem tame_returnValue {v : Value} (hv : v.IsLoadable) : Tame (returnValue v) :=
  (tame_inRegister hv).bind fun _ _ ↦ (tame_modify _).bind fun _ _ ↦ tame_modify _

theorem tame_returnNone : Tame returnNone := tame_modify _

theorem tame_bindParams (names : List String) : Tame (bindParams names) := by
  induction names with
  | nil => exact .pure trivial
  | cons name names ih =>
    exact tame_takeRegister.bind fun _ _ ↦ (tame_modify _).bind fun _ _ ↦ ih

theorem judged_closure (p : Prototype) : Judged true Value.IsLoadable (closure p) := by
  have hattach : Tame (attach p) := .of_ok (fun _ ↦ rfl) fun _ ↦ trivial
  refine hattach.bind fun _ _ ↦ tame_takeRegister.bind fun _ _ ↦ ?_
  exact (tame_modify _).bind fun _ _ ↦ .pure trivial

end Build

end LuaLower
