import LuaLower.Prototype
import Mathlib.Logic.Function.Basic
import Mathlib.Logic.Relation

/-!
# The register machine

The part of the machine on which code without effects runs. What the values are, and what the
operations do to them, is left open in a `Meaning`. A state is a position in the code and the
contents of the registers; an instruction that the machine does not know, or that names something
that is not there, leaves it stuck.
-/

namespace LuaLower

variable {V : Type}

structure Meaning (V : Type) where
  constant : Constant → V
  truthy : V → Bool
  add : V → V → V
  sub : V → V → V
  mul : V → V → V
  div : V → V → V
  mod : V → V → V
  pow : V → V → V
  band : V → V → V
  bor : V → V → V
  bxor : V → V → V
  shl : V → V → V
  shr : V → V → V
  concat : V → V → V
  minus : V → V
  bnot : V → V
  not : V → V
  eq : V → V → Bool
  lt : V → V → Bool
  le : V → V → Bool
  index : V → V → V

namespace Meaning

def nil (m : Meaning V) : V := m.constant .nil

def boolean (m : Meaning V) (b : Bool) : V := m.constant (.boolean b)

/-- Concatenation associates to the right. -/
def concatAll (m : Meaning V) : List V → Option V
  | [] => none
  | [v] => some v
  | v :: vs => (m.concatAll vs).map (m.concat v)

def arithmetic? (m : Meaning V) : Opcode → Option (V → V → V)
  | .add => some m.add
  | .sub => some m.sub
  | .mul => some m.mul
  | .div => some m.div
  | .mod => some m.mod
  | .pow => some m.pow
  | .band => some m.band
  | .bor => some m.bor
  | .bxor => some m.bxor
  | .shl => some m.shl
  | .shr => some m.shr
  | _ => none

def test? (m : Meaning V) : Opcode → Option (V → V → Bool)
  | .eq => some m.eq
  | .lt => some m.lt
  | .le => some m.le
  | _ => none

def unary? (m : Meaning V) : Opcode → Option (V → V)
  | .unm => some m.minus
  | .bnot => some m.bnot
  | .not => some m.not
  | _ => none

end Meaning

namespace Machine

/-- What stays fixed while a function runs. -/
structure Frame (V : Type) where
  code : Array Instruction
  constant? : Nat → Option V
  upvalue? : Nat → Option V

def Frame.ofPrototype (m : Meaning V) (outer : String → V) (p : Prototype) : Frame V where
  code := p.code
  constant? k := (p.constants.get? k).map m.constant
  upvalue? u := p.upvalues[u]?.map fun upvalue ↦ outer upvalue.name

structure State (V : Type) where
  pc : Nat
  registers : Nat → V

inductive Outcome (V : Type) where
  | next (state : State V)
  | returned (values : List V)

def Frame.operand? (frame : Frame V) (registers : Nat → V) (x : Nat) : Option V :=
  if RK.isConstant x then frame.constant? (RK.index x) else some (registers x)

/-- A test skips the next instruction, which is a jump, if its outcome is not the expected one. -/
def exec (m : Meaning V) (frame : Frame V) (pc : Nat) (registers : Nat → V) :
    Instruction → Option (Outcome V)
  | .abc .move a b _ => some (.next ⟨pc + 1, Function.update registers a (registers b)⟩)
  | .abx .loadK a k => do
    let v ← frame.constant? k
    return .next ⟨pc + 1, Function.update registers a v⟩
  | .abx .loadKX a _ =>
    match frame.code[pc + 1]? with
    | some (.ax .extraArg k) => do
      let v ← frame.constant? k
      return .next ⟨pc + 2, Function.update registers a v⟩
    | _ => none
  | .abc .loadBool a b c =>
    some (.next ⟨if c = 0 then pc + 1 else pc + 2,
      Function.update registers a (m.boolean (b ≠ 0))⟩)
  | .abc .loadNil a b _ =>
    some (.next ⟨pc + 1, fun r ↦ if a ≤ r ∧ r ≤ a + b then m.nil else registers r⟩)
  | .abc .getUpval a b _ => do
    let v ← frame.upvalue? b
    return .next ⟨pc + 1, Function.update registers a v⟩
  | .abc .getTabUp a b c => do
    let table ← frame.upvalue? b
    let key ← frame.operand? registers c
    return .next ⟨pc + 1, Function.update registers a (m.index table key)⟩
  | .abc .getTable a b c => do
    let key ← frame.operand? registers c
    return .next ⟨pc + 1, Function.update registers a (m.index (registers b) key)⟩
  | .abc .concat a b c => do
    let v ← m.concatAll ((List.range' b (c + 1 - b)).map registers)
    return .next ⟨pc + 1, Function.update registers a v⟩
  | .asbx .jmp _ offset =>
    let target : Int := pc + 1 + offset
    if 0 ≤ target then some (.next ⟨target.toNat, registers⟩) else none
  | .abc .testSet a b c =>
    if m.truthy (registers b) = decide (c ≠ 0) then
      some (.next ⟨pc + 1, Function.update registers a (registers b)⟩)
    else some (.next ⟨pc + 2, registers⟩)
  | .abc .ret a b _ =>
    if b = 0 then none else some (.returned ((List.range' a (b - 1)).map registers))
  | .abc op a b c =>
    match m.arithmetic? op, m.test? op, m.unary? op with
    | some f, _, _ => do
      let x ← frame.operand? registers b
      let y ← frame.operand? registers c
      return .next ⟨pc + 1, Function.update registers a (f x y)⟩
    | none, some test, _ => do
      let x ← frame.operand? registers b
      let y ← frame.operand? registers c
      return .next ⟨if test x y = decide (a ≠ 0) then pc + 1 else pc + 2, registers⟩
    | none, none, some f => some (.next ⟨pc + 1, Function.update registers a (f (registers b))⟩)
    | none, none, none => none
  | _ => none

def step (m : Meaning V) (frame : Frame V) (s : State V) : Option (Outcome V) := do
  exec m frame s.pc s.registers (← frame.code[s.pc]?)

def Steps (m : Meaning V) (frame : Frame V) : State V → State V → Prop :=
  Relation.ReflTransGen fun s t ↦ step m frame s = some (.next t)

def Returns (m : Meaning V) (frame : Frame V) (s : State V) (values : List V) : Prop :=
  ∃ t, Steps m frame s t ∧ step m frame t = some (.returned values)

variable {m : Meaning V} {frame : Frame V} {s t u : State V} {values : List V}

theorem Steps.refl (s : State V) : Steps m frame s s := Relation.ReflTransGen.refl

theorem Steps.trans (hst : Steps m frame s t) (htu : Steps m frame t u) : Steps m frame s u :=
  Relation.ReflTransGen.trans hst htu

theorem Steps.single (h : step m frame s = some (.next t)) : Steps m frame s t :=
  Relation.ReflTransGen.single h

/-- A step is that of the instruction at the position. -/
theorem step_eq {i : Instruction} (h : frame.code[s.pc]? = some i) :
    step m frame s = exec m frame s.pc s.registers i := by
  simp [step, h]

theorem Returns.of_steps (hst : Steps m frame s t) (ht : Returns m frame t values) :
    Returns m frame s values := by
  obtain ⟨u, htu, hu⟩ := ht
  exact ⟨u, hst.trans htu, hu⟩

/-- The machine is deterministic, so it returns at most once. -/
theorem Returns.unique {values' : List V} (h : Returns m frame s values)
    (h' : Returns m frame s values') : values' = values := by
  obtain ⟨t, hst, ht⟩ := h
  obtain ⟨t', hst', ht'⟩ := h'
  induction hst using Relation.ReflTransGen.head_induction_on with
  | refl =>
    cases hst' using Relation.ReflTransGen.head_induction_on with
    | refl =>
      rw [ht] at ht'
      cases ht'
      rfl
    | head hstep _ _ =>
      rw [ht] at hstep
      cases hstep
  | head hstep _ ih =>
    cases hst' using Relation.ReflTransGen.head_induction_on with
    | refl =>
      rw [hstep] at ht'
      cases ht'
    | head hstep' hrest _ =>
      rw [hstep] at hstep'
      cases hstep'
      exact ih hrest

end Machine

end LuaLower
