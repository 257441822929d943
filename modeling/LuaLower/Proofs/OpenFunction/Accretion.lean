import LuaLower.Proofs.Lowering.Target
import LuaLower.Proofs.OpenFunction.Continuation
import LuaLower.Proofs.Prototype.Nesting

/-!
# Code that only accumulates

Whatever a step does to an open function, and even if it fails half way, the function goes on from
what is there: the code before a position and the source name stay, constants come only by insertion
into the pool, and the code that is added can be packed into words. The only instruction that is
ever replaced is the jump of a logical operator, so it is enough to know that this jump was added
late enough. Registers may be in any disorder; it matters only that those in use can be named.
-/

namespace LuaLower

/-! ## Instructions that can be packed -/

/-- An instruction in the layout of its opcode whose fields fit. Left open are jump offsets, wide
constants, nested functions, numbers of arguments, and numbers of fields, which are among `sizes`.
-/
def Instruction.Packable (sizes : Nat → Prop) : Instruction → Prop
  | .abc op a b c => op.family = .abc ∧ a < 2 ^ 8 ∧ (b < 2 ^ 9 ∨ op = .call) ∧
    (c < 2 ^ 9 ∨ op = .newTable ∧ ∃ n, sizes n ∧ c = SizeByte.encode n)
  | .abx op a bx => op.family = .abx ∧ a < 2 ^ 8 ∧ (bx < 2 ^ 18 ∨ op = .closure)
  | .asbx op a _ => op = .jmp ∧ a < 2 ^ 8
  | .ax op _ => op = .extraArg

/-- All instructions can be packed, the pool was filled by insertions and there are no debug tables,
here and in all nested functions. -/
def Prototype.Packed (sizes : Nat → Prop) (p : Prototype) : Prop :=
  ∀ q, p.Contains q →
    (∀ i ∈ q.code, i.Packable sizes) ∧ Pool.Extends {} q.constants ∧ q.debug = {}

structure OpenFunction.Packed (sizes : Nat → Prop) (f : OpenFunction) : Prop where
  code : ∀ i ∈ f.proto.code, i.Packable sizes
  constants : Pool.Extends {} f.proto.constants
  debug : f.proto.debug = {}
  children : ∀ p ∈ f.proto.children, p.Packed sizes

variable {sizes : Nat → Prop} {b : Nat} {f g h : OpenFunction}

theorem Instruction.packable_abc {op : Opcode} {x y z : Nat} (hop : op.family = .abc)
    (hx : x < 2 ^ 8) (hy : y < 2 ^ 9) (hz : z < 2 ^ 9) : (abc op x y z).Packable sizes :=
  ⟨hop, hx, .inl hy, .inl hz⟩

theorem OpenFunction.Packed.close (hf : f.Packed sizes) : f.close.Packed sizes := by
  apply Prototype.forall_contains
  · refine ⟨fun i hi ↦ ?_, hf.constants, hf.debug⟩
    obtain hi | rfl := Array.mem_push.mp hi
    · exact hf.code i hi
    · exact Instruction.packable_abc rfl (by decide) (by decide) (by decide)
  · exact hf.children

/-! ## Accretion -/

/-- What is left of `f` in `g`, and that what was added can be packed. -/
structure OpenFunction.Accretes (sizes : Nat → Prop) (b : Nat) (f g : OpenFunction) : Prop
    extends f.Continues (· < b) g where
  constants : f.proto.constants.Extends g.proto.constants
  source : g.proto.source = f.proto.source
  packed : f.Packed sizes → g.Packed sizes

namespace OpenFunction.Accretes

theorem refl (f : OpenFunction) : f.Accretes sizes b f :=
  ⟨.refl f, .refl _, rfl, id⟩

theorem trans (hfg : f.Accretes sizes b g) (hgh : g.Accretes sizes b h) :
    f.Accretes sizes b h where
  toContinues := hfg.toContinues.trans hgh.toContinues
  constants := hfg.constants.trans hgh.constants
  source := hgh.source.trans hfg.source
  packed hf := hgh.packed (hfg.packed hf)

/-- Only the registers have changed, or the upvalues, or the number of parameters. -/
theorem of_eq (hfg : f.Continues (· < b) g) (hcode : g.proto.code = f.proto.code)
    (hconstants : g.proto.constants = f.proto.constants) (hsource : g.proto.source = f.proto.source)
    (hdebug : g.proto.debug = f.proto.debug) (hchildren : g.proto.children = f.proto.children) :
    f.Accretes sizes b g where
  toContinues := hfg
  constants := hconstants ▸ .refl _
  source := hsource
  packed hf :=
    ⟨hcode ▸ hf.code, hconstants ▸ hf.constants, hdebug ▸ hf.debug, hchildren ▸ hf.children⟩

/-- Only the registers have changed. -/
theorem of_callFree (hfg : f.CallFree g) (hproto : g.proto = f.proto) : f.Accretes sizes b g := by
  apply of_eq (hfg.toContinues.mono fun _ _ _ ↦ trivial) <;> rw [hproto]

theorem emit {is : List Instruction} (his : ∀ i ∈ is, i.Packable sizes) :
    f.Accretes sizes b (f.emit is) where
  toContinues := .emit f is
  constants := .refl _
  source := rfl
  packed hf := by
    refine ⟨fun i hi ↦ ?_, hf.constants, hf.debug, hf.children⟩
    obtain hi | hi := Array.mem_append.mp hi
    · exact hf.code i hi
    · exact his i (List.mem_toArray.mp hi)

/-- A jump that was added after position `b` gets its destination. -/
theorem land {jump : Nat} (hjump : b ≤ jump) : f.Accretes sizes b (f.landing jump) where
  toContinues := .land (Nat.not_lt.mpr hjump)
  constants := .refl _
  source := rfl
  packed hf := by
    refine ⟨fun i hi ↦ ?_, hf.constants, hf.debug, hf.children⟩
    obtain hi | rfl := Array.mem_or_eq_of_mem_setIfInBounds hi
    · exact hf.code i hi
    · exact ⟨rfl, by decide⟩

theorem intern (k : Constant) : f.Accretes sizes b (f.intern k) where
  toContinues := .of_registers rfl id id
  constants := .insert f.proto.constants k
  source := rfl
  packed hf := ⟨hf.code, hf.constants.trans (.insert _ k), hf.debug, hf.children⟩

theorem adopt {p : Prototype} (hp : p.Packed sizes) : f.Accretes sizes b (f.adopting p) where
  toContinues := .of_registers rfl id id
  constants := .refl _
  source := rfl
  packed hf := by
    refine ⟨hf.code, hf.constants, hf.debug, fun q hq ↦ ?_⟩
    obtain hq | hq := List.mem_append.mp hq
    · exact hf.children q hq
    · obtain rfl := List.mem_singleton.mp hq
      exact hp

end OpenFunction.Accretes

/-! ## What instructions can name -/

def Value.Nameable : Value → Prop
  | .register r => r < 2 ^ 8
  | .constant _ => True
  | .upvalue u => u < 2 ^ 8
  | .member owner key => owner.Nameable ∧ key.Nameable

def Place.Nameable : Place → Prop
  | .register r => r < 2 ^ 8
  | .upvalue u => u < 2 ^ 8

/-- A target whose key, if it has one, is an operand. -/
def Target.Nameable : Target → Prop
  | .register r => r < 2 ^ 8
  | .upvalue u => u < 2 ^ 8
  | .member owner key => owner.Nameable ∧ key < 2 ^ 9

/-- A binary operation whose left operand can be named, and whose jump, if it has one, was added
after position `b`. -/
def Pending.Nameable (b : Nat) : Pending → Prop
  | .logical dst jump => dst < 2 ^ 8 ∧ b ≤ jump
  | .comparison test left => test.op.family = .abc ∧ test.holdsOn < 2 ^ 8 ∧ left < 2 ^ 9
  | .concat left => left < 2 ^ 8
  | .arithmetic op left => op.family = .abc ∧ left < 2 ^ 9

theorem Place.Nameable.toValue {place : Place} (h : place.Nameable) : place.toValue.Nameable := by
  cases place <;> exact h

theorem RK.constant_lt {k : Nat} (h : k ≤ maxIndex) : constant k < 2 ^ 9 := by
  rw [constant_eq_add h]
  rw [maxIndex] at h
  omega

theorem Value.Nameable.operand_lt {v : Value} {x : Nat} (hv : v.Nameable)
    (hx : v.operand = .ok x) : x < 2 ^ 9 := by
  cases v with
  | register r =>
    cases hx
    exact Nat.lt_trans hv (by decide)
  | constant k =>
    by_cases hk : k ≤ RK.maxIndex
    · rw [operand, if_pos hk] at hx
      cases hx
      exact RK.constant_lt hk
    · rw [operand, if_neg hk] at hx
      cases hx
  | upvalue u => cases hx
  | member owner key => cases hx

namespace Build

/-! ## Rules -/

section Rules

variable {α β : Type} {P P' : α → Prop} {Q : β → Prop} {x : Build α} {k : α → Build β}

/-- Whatever the outcome, the step adds code that can be packed and touches nothing before position
`b`. Its result has a property. -/
def Accretes (sizes : Nat → Prop) (b : Nat) (P : α → Prop) (step : Build α) : Prop :=
  ∀ f : OpenFunction, b ≤ f.proto.code.size → f.proto.upvalues.length ≤ upvalueLimit →
    Yields step f
      (fun a g ↦ f.Accretes sizes b g ∧ g.proto.upvalues = f.proto.upvalues ∧ P a)
      (fun _ g ↦ f.Accretes sizes b g)

/-- As before, with nothing to say about the result. -/
abbrev Accretive (sizes : Nat → Prop) (b : Nat) (step : Build α) : Prop :=
  Accretes sizes b (fun _ ↦ True) step

namespace Accretes

theorem pure {a : α} (h : P a) : Accretes sizes b P (pure a) :=
  fun f _ _ ↦ yields_pure ⟨.refl f, rfl, h⟩

theorem throw {e : Failure} : Accretes sizes b P (throw e : Build α) :=
  fun f _ _ ↦ yields_throw (.refl f)

theorem bind (hx : Accretes sizes b P x) (hk : ∀ a, P a → Accretes sizes b Q (k a)) :
    Accretes sizes b Q (x >>= k) := by
  intro f hb hupvalues
  apply Yields.bind (hx f hb hupvalues)
  rintro a g ⟨hfg, hg, ha⟩
  apply (hk a ha g (hb.trans hfg.size_le) (hg ▸ hupvalues)).mono
  · rintro c h ⟨hgh, hh, hc⟩
    exact ⟨hfg.trans hgh, hh.trans hg, hc⟩
  · intro e h hgh
    exact hfg.trans hgh

theorem mono (hx : Accretes sizes b P x) (h : ∀ a, P a → P' a) : Accretes sizes b P' x := by
  intro f hb hupvalues
  apply (hx f hb hupvalues).mono
  · rintro a g ⟨hfg, hg, ha⟩
    exact ⟨hfg, hg, h a ha⟩
  · exact fun _ _ hfg ↦ hfg

theorem get {k : OpenFunction → Build β}
    (hk : ∀ f : OpenFunction, f.proto.upvalues.length ≤ upvalueLimit → Accretes sizes b Q (k f)) :
    Accretes sizes b Q (get >>= k) :=
  fun f hb hupvalues ↦ hk f hupvalues f hb hupvalues

theorem ofExcept {y : Except Failure α} (h : ∀ a, y = .ok a → P a) :
    Accretes sizes b P (MonadExcept.ofExcept y : Build α) := by
  cases y with
  | ok a => exact pure (h a rfl)
  | error e => exact throw

end Accretes

end Rules

/-! ## Primitive steps -/

/-- A change of the registers. -/
theorem accretive_modify {φ : OpenFunction → OpenFunction}
    (hfree : CallFree (modify φ : Build Unit)) (h : ∀ f : OpenFunction, (φ f).proto = f.proto) :
    Accretive sizes b (modify φ : Build Unit) :=
  fun f _ _ ↦ .of_ok (a := ()) (t := φ f) rfl
    ⟨.of_callFree (hfree rfl) (h f), congrArg Prototype.upvalues (h f), trivial⟩

theorem accretive_push {i : Instruction} (hi : i.Packable sizes) : Accretive sizes b (push i) :=
  fun f _ _ ↦ .of_ok (push_apply i f) ⟨.emit (List.forall_mem_singleton.mpr hi), rfl, trivial⟩

/-- The jump of a test comes after the code that is there. -/
theorem accretes_pushTest {op : Opcode} {x y z : Nat} {offset : Int} (hop : op.family = .abc)
    (hx : x < 2 ^ 8) (hy : y < 2 ^ 9) (hz : z < 2 ^ 9) :
    Accretes sizes b (b ≤ ·) (pushTest op x y z offset) := by
  intro f hb _
  refine .of_ok (pushTest_apply op x y z offset f) ⟨.emit ?_, rfl, Nat.le_succ_of_le hb⟩
  intro i hi
  simp only [List.mem_cons, List.not_mem_nil, or_false] at hi
  obtain rfl | rfl := hi
  · exact Instruction.packable_abc hop hx hy hz
  · exact ⟨rfl, by decide⟩

theorem accretive_landJump {jump : Nat} (hjump : b ≤ jump) : Accretive sizes b (landJump jump) :=
  fun f _ _ ↦ .of_ok (landJump_apply jump f) ⟨.land hjump, rfl, trivial⟩

theorem accretive_constantIndex (k : Constant) : Accretive sizes b (constantIndex k) :=
  fun f _ _ ↦ .of_ok (constantIndex_apply k f) ⟨.intern k, rfl, trivial⟩

theorem accretes_takeRegister : Accretes sizes b (· < Registers.limit) takeRegister := by
  intro f _ _
  by_cases hnext : f.registers.next < Registers.limit
  · have htake :
        takeRegister f = .ok f.registers.next { f with registers := f.registers.take } := by
      rw [takeRegister, get_bind, if_pos hnext]
      rfl
    exact .of_ok htake ⟨.of_callFree (callFree_takeRegister htake) rfl, rfl, hnext⟩
  · exact .of_error (takeRegister_of_le (Nat.not_lt.mp hnext)) (.refl f)

theorem accretive_release (r : Nat) : Accretive sizes b (release r) :=
  accretive_modify (callFree_release r) fun _ ↦ rfl

theorem accretive_releaseDownTo (level : Nat) : Accretive sizes b (releaseDownTo level) :=
  accretive_modify (callFree_releaseDownTo level) fun _ ↦ rfl

theorem accretive_bindLocal (name : String) (r : Nat) (isConst : Bool) :
    Accretive sizes b (bindLocal name r isConst) :=
  accretive_modify (callFree_bindLocal name r isConst) fun _ ↦ rfl

theorem lt_of_lt_limit {r : Nat} (hr : r < Registers.limit) : r < 2 ^ 8 :=
  hr.trans (by decide)

theorem lt_of_lt_two_pow {r : Nat} (hr : r < 2 ^ 8) : r < 2 ^ 9 := hr.trans (by decide)

/-! ## Placing values -/

theorem accretive_releaseBoth (r s : Nat) : Accretive sizes b (releaseBoth r s) :=
  (accretive_release _).bind fun _ _ ↦ accretive_release _

theorem accretive_releaseValue (v : Value) : Accretive sizes b (releaseValue v) := by
  rw [releaseValue.eq_def]
  split
  · exact accretive_release _
  · exact accretive_releaseBoth _ _
  · exact accretive_release _
  · exact accretive_release _
  · exact .pure trivial

theorem accretive_releaseOperand (x : Nat) : Accretive sizes b (releaseOperand x) := by
  rw [releaseOperand]
  split
  · exact .pure trivial
  · exact accretive_release x

theorem accretive_releaseOperands (x y : Nat) : Accretive sizes b (releaseOperands x y) := by
  rw [releaseOperands]
  split
  · exact accretive_releaseOperand y
  · split
    · exact accretive_release x
    · exact accretive_releaseBoth x y

theorem accretive_loadNil {r : Nat} (hr : r < 2 ^ 8) : Accretive sizes b (loadNil r) :=
  accretive_push (Instruction.packable_abc rfl hr (by decide) (by decide))

theorem accretive_load {v : Value} {r : Nat} (hv : v.Nameable) (hr : r < 2 ^ 8) :
    Accretive sizes b (load v r) := by
  cases v with
  | register q =>
    rw [load]
    split
    · exact .pure trivial
    · exact accretive_push (Instruction.packable_abc rfl hr (lt_of_lt_two_pow hv) (by decide))
  | constant k =>
    rw [load, loadFromPool]
    split
    case isTrue hk =>
      apply accretive_push
      exact ⟨rfl, hr, .inl (Nat.lt_succ_of_le hk)⟩
    case isFalse =>
      -- The constant is named by a word of its own.
      have hfirst : (Instruction.abx .loadKX r 0).Packable sizes := ⟨rfl, hr, .inl (by decide)⟩
      apply (accretive_push hfirst).bind
      intro _ _
      exact accretive_push rfl
  | upvalue u =>
    exact accretive_push (Instruction.packable_abc rfl hr (lt_of_lt_two_pow hv) (by decide))
  | member owner key =>
    apply Accretes.bind (Accretes.ofExcept fun x hx ↦ hv.2.operand_lt hx)
    intro x hx
    cases owner with
    | register t =>
      exact accretive_push (Instruction.packable_abc rfl hr (lt_of_lt_two_pow hv.1) hx)
    | upvalue u =>
      exact accretive_push (Instruction.packable_abc rfl hr (lt_of_lt_two_pow hv.1) hx)
    | constant k => exact .throw
    | member _ _ => exact .throw

theorem accretes_inNewRegister {v : Value} (hv : v.Nameable) :
    Accretes sizes b (· < Registers.limit) (inNewRegister v) := by
  apply (accretive_releaseValue v).bind
  intro _ _
  apply accretes_takeRegister.bind
  intro r hr
  apply (accretive_load hv (lt_of_lt_limit hr)).bind
  intro _ _
  exact .pure hr

theorem accretes_inRegister {v : Value} (hv : v.Nameable) :
    Accretes sizes b (· < 2 ^ 8) (inRegister v) := by
  cases v with
  | register r => exact .pure hv
  | _ => exact (accretes_inNewRegister hv).mono fun _ hr ↦ lt_of_lt_limit hr

theorem accretes_toOperand {v : Value} (hv : v.Nameable) :
    Accretes sizes b (· < 2 ^ 9) (toOperand v) := by
  have hregister : Accretes sizes b (· < 2 ^ 9) (inRegister v) :=
    (accretes_inRegister hv).mono fun _ hr ↦ lt_of_lt_two_pow hr
  cases v with
  | constant k =>
    rw [toOperand]
    split
    case isTrue hk => exact .pure (RK.constant_lt hk)
    case isFalse => exact hregister
  | _ => exact hregister

theorem accretes_toKey {v : Value} (hv : v.Nameable) :
    Accretes sizes b Value.Nameable (toKey v) := by
  have hregister : Accretes sizes b Value.Nameable (do return .register (← inRegister v)) :=
    (accretes_inRegister hv).bind fun _ hr ↦ .pure hr
  cases v with
  | constant k =>
    rw [toKey]
    split
    · exact .pure trivial
    · exact hregister
  | _ => exact hregister

theorem accretes_toTable {v : Value} (hv : v.Nameable) :
    Accretes sizes b Place.Nameable (toTable v) := by
  have hregister : Accretes sizes b Place.Nameable (do return .register (← inRegister v)) :=
    (accretes_inRegister hv).bind fun _ hr ↦ .pure hr
  cases v with
  | register r => exact .pure hv
  | upvalue u => exact .pure hv
  | _ => exact hregister

theorem accretes_constantKey (k : Constant) :
    Accretes sizes b Value.Nameable (do toKey (.constant (← constantIndex k))) :=
  (accretive_constantIndex k).bind fun _ _ ↦ accretes_toKey trivial

theorem accretes_globalField (name : String) :
    Accretes sizes b (fun field ↦ field.1 < 2 ^ 8 ∧ field.2.Nameable) (globalField name) := by
  apply Accretes.get
  intro f hupvalues
  split
  · exact .throw
  case h_2 env henv =>
    have hlt : env < 2 ^ 8 := by
      have hindex := OpenFunction.upvalueIndex?_lt henv
      rw [upvalueLimit] at hupvalues
      omega
    rw [← bind_assoc]
    apply (accretes_constantKey (.string name)).bind
    intro key hkey
    exact .pure ⟨hlt, hkey⟩

theorem accretes_globalValue (name : String) :
    Accretes sizes b Value.Nameable (globalValue name) :=
  (accretes_globalField name).bind fun _ hfield ↦ .pure hfield

end Build

end LuaLower
