import LuaLower.Proofs.Semantics.Expressions

/-!
# Tables at work

Code that makes a table runs on a machine that holds the tables made so far. Of its values, some
were there before, and the others are these young tables. What was there before knows nothing of
them, so code without effects computes from the variables what it always did, whatever the young
tables hold by then.
-/

namespace LuaLower

variable {V : Type}

/-- A value from before, or the number of a young table. -/
inductive Datum (V : Type) where
  | value (v : V)
  | table (n : Nat)
  deriving DecidableEq

def Datum.table? : Datum V → Option Nat
  | .value _ => none
  | .table n => some n

/-- What a table has for each key. -/
abbrev Table (V : Type) := Datum V → Datum V

/-! ## Operations -/

namespace Meaning

variable (m : Meaning V)

/-- A young table is no operand of an operator. -/
def lift (f : V → V) : Datum V → Datum V
  | .value x => .value (f x)
  | .table _ => .value m.nil

@[inherit_doc lift]
def lift₂ (f : V → V → V) : Datum V → Datum V → Datum V
  | .value x, .value y => .value (f x y)
  | _, _ => .value m.nil

def emptyTable : Table V := fun _ ↦ .value m.nil

/-- The operations, where the young tables hold what is given. -/
def withTables (tables : List (Table V)) : Meaning (Datum V) where
  constant c := .value (m.constant c)
  truthy
    | .value x => m.truthy x
    | .table _ => true
  add := m.lift₂ m.add
  sub := m.lift₂ m.sub
  mul := m.lift₂ m.mul
  div := m.lift₂ m.div
  mod := m.lift₂ m.mod
  pow := m.lift₂ m.pow
  band := m.lift₂ m.band
  bor := m.lift₂ m.bor
  bxor := m.lift₂ m.bxor
  shl := m.lift₂ m.shl
  shr := m.lift₂ m.shr
  concat := m.lift₂ m.concat
  minus := m.lift m.minus
  bnot := m.lift m.bnot
  not
    | .value x => .value (m.not x)
    | .table _ => .value (m.boolean false)
  eq
    | .value x, .value y => m.eq x y
    | .table n, .table k => n == k
    | _, _ => false
  lt
    | .value x, .value y => m.lt x y
    | _, _ => false
  le
    | .value x, .value y => m.le x y
    | _, _ => false
  index
    | .value x, .value y => .value (m.index x y)
    | .value _, .table _ => .value m.nil
    | .table n, key => tables.getD n m.emptyTable key

end Meaning

/-! ## Evaluation -/

/-- The same variables, as the machine with young tables sees them. -/
def Scope.lift (scope : Scope V) : Scope (Datum V) where
  locals x := (scope.locals x).map .value
  captured := scope.captured
  outer x := .value (scope.outer x)

theorem Scope.find?_lift (scope : Scope V) (x : String) :
    scope.lift.find? x = (scope.find? x).map .value := by
  cases hx : scope.locals x <;> cases hc : scope.captured x <;>
    simp [Scope.find?, Scope.lift, hx, hc]

namespace Meaning

variable (m : Meaning V) (tables : List (Table V)) (scope : Scope V)

theorem name_withTables (x : String) :
    (m.withTables tables).name scope.lift x = .value (m.name scope x) := by
  rw [name, name, named?_eq, named?_eq, Scope.find?_lift]
  cases scope.find? x <;> cases namedConstant? x <;> rfl

theorem this_lift : scope.lift.this = .value scope.this := by
  rw [Scope.this, Scope.find?_lift, Scope.this]
  cases scope.find? "this" <;> rfl

theorem binary_withTables (op : BinaryOp) (joins : Bool) (x y : V) :
    (m.withTables tables).binary op joins (.value x) (.value y) =
      .value (m.binary op joins x y) := by
  cases op with
  | add => cases joins <;> rfl
  | and => simp only [binary]; split <;> simp_all [withTables]
  | or => simp only [binary]; split <;> simp_all [withTables]
  | _ => rfl

/-- Evaluation does not see the young tables. -/
theorem eval_withTables (types : TypeOracle) (e : Expr) :
    (m.withTables tables).eval types scope.lift e = .value (m.eval types scope e) := by
  cases e with
  | literal l => cases l <;> rfl
  | identifier x => exact m.name_withTables tables scope x
  | this => exact this_lift scope
  | member owner name =>
    rw [eval, eval_withTables types owner]
    rfl
  | index owner key =>
    rw [eval, eval_withTables types owner, eval_withTables types key]
    rfl
  | unary op operand =>
    rw [eval, eval_withTables types operand, eval]
    cases op <;> rfl
  | binary op left right =>
    rw [eval, eval_withTables types left, eval_withTables types right]
    exact m.binary_withTables tables op _ _ _
  | _ => rfl

end Meaning

/-! ## Contents of tables -/

namespace Meaning

/-- An integer as a key. -/
def key (m : Meaning V) (i : Nat) : Datum V := .value (m.constant (.integer (.ofNat i)))

/-- Integers are different values, and none of them is nil. -/
structure HasIntegers (m : Meaning V) : Prop where
  injective : Function.Injective fun i ↦ m.constant (.integer i)
  ne_nil : ∀ i, m.constant (.integer i) ≠ m.nil

namespace HasIntegers

variable {m : Meaning V} (hm : m.HasIntegers)
include hm

theorem key_injOn {i j : Nat} (hi : i < 2 ^ 63) (hj : j < 2 ^ 63) (h : m.key i = m.key j) :
    i = j := by
  have hij : Int64.ofNat i = Int64.ofNat j := hm.injective (Datum.value.inj h)
  have hint := congrArg Int64.toInt hij
  rw [Int64.toInt_ofNat_of_lt hi, Int64.toInt_ofNat_of_lt hj] at hint
  exact Int.ofNat.inj hint

theorem key_ne_nil (i : Nat) : m.key i ≠ .value m.nil :=
  fun h ↦ hm.ne_nil _ (Datum.value.inj h)

end HasIntegers

end Meaning

section Contents

variable [DecidableEq V] (m : Meaning V)

/-- Write values under consecutive integers. -/
def Table.setItems (T : Table V) (first : Nat) : List (Datum V) → Table V
  | [] => T
  | x :: xs => setItems (Function.update T (m.key first) x) (first + 1) xs

/-- A table has the given values under the integers from zero on, and nothing else. -/
structure Table.Lists (T : Table V) (xs : List (Datum V)) : Prop where
  item : ∀ i x, xs[i]? = some x → T (m.key i) = x
  other : ∀ key, (∀ i < xs.length, key ≠ m.key i) → T key = .value m.nil

variable {m} {T : Table V} {first : Nat} {xs ys : List (Datum V)} {key : Datum V}

namespace Table

theorem setItems_append :
    setItems m T first (xs ++ ys) = setItems m (setItems m T first xs) (first + xs.length) ys := by
  induction xs generalizing T first with
  | nil => rfl
  | cons x xs ih =>
    rw [List.cons_append, setItems, ih, setItems, List.length_cons, Nat.add_assoc, Nat.add_comm 1]

theorem setItems_of_ne (h : ∀ i < xs.length, key ≠ m.key (first + i)) :
    setItems m T first xs key = T key := by
  induction xs generalizing T first with
  | nil => rfl
  | cons x xs ih =>
    rw [setItems, ih]
    · exact Function.update_of_ne (h 0 (Nat.succ_pos _)) x T
    · intro i hi
      have hne := h (i + 1) (Nat.succ_lt_succ hi)
      rwa [Nat.add_comm i, ← Nat.add_assoc] at hne

theorem setItems_key (hm : m.HasIntegers) (hsmall : first + xs.length ≤ 2 ^ 63) {i : Nat}
    {x : Datum V} (hx : xs[i]? = some x) : setItems m T first xs (m.key (first + i)) = x := by
  induction xs generalizing T first i with
  | nil => simp at hx
  | cons y ys ih =>
    rw [List.length_cons] at hsmall
    rw [setItems]
    cases i with
    | zero =>
      obtain rfl : y = x := by simpa using hx
      rw [setItems_of_ne]
      · exact Function.update_self _ _ _
      · intro j hj h
        have := hm.key_injOn (by omega) (by omega) h
        omega
    | succ i =>
      have hnext : setItems m (Function.update T (m.key first) y) (first + 1) ys
          (m.key (first + 1 + i)) = x := ih (by omega) (by simpa using hx)
      rwa [Nat.add_assoc, Nat.add_comm 1] at hnext

/-- A table that has a value under zero, and otherwise what list items leave in an empty one. -/
theorem lists_cons {x : Datum V} (hm : m.HasIntegers) (hsmall : 1 + xs.length ≤ 2 ^ 63)
    (hfirst : T (m.key 0) = x)
    (hrest : ∀ key ≠ m.key 0, T key = setItems m m.emptyTable 1 xs key) : T.Lists m (x :: xs) where
  item i y hy := by
    cases i with
    | zero =>
      obtain rfl : x = y := by simpa using hy
      exact hfirst
    | succ i =>
      have hy : xs[i]? = some y := by simpa using hy
      have hlt := (List.getElem?_eq_some_iff.mp hy).1
      have hne : m.key (i + 1) ≠ m.key 0 := fun h ↦
        Nat.succ_ne_zero i (hm.key_injOn (by omega) (by decide) h)
      rw [hrest _ hne, Nat.add_comm i]
      exact setItems_key hm hsmall hy
  other key hkey := by
    rw [hrest key (hkey 0 (Nat.succ_pos _)), setItems_of_ne]
    · rfl
    · intro i hi
      rw [Nat.add_comm]
      exact hkey (i + 1) (Nat.succ_lt_succ hi)

end Table

end Contents

/-! ## The machine -/

namespace Machine

/-- A state of the machine with the young tables. -/
structure TableState (V : Type) where
  pc : Nat
  registers : Nat → Datum V
  tables : List (Table V)

/-- Change the young table in a register. -/
def TableState.change (s : TableState V) (a : Nat) (f : Table V → Table V) :
    Option (TableState V) := do
  let n ← (s.registers a).table?
  let T ← s.tables[n]?
  return { s with pc := s.pc + 1, tables := s.tables.set n (f T) }

/-- The last of the young tables is changed. -/
theorem TableState.change_eq {pc a : Nat} {ρ : Nat → Datum V} {tables : List (Table V)}
    {T : Table V} (f : Table V → Table V) (ha : ρ a = .table tables.length) :
    change ⟨pc, ρ, tables ++ [T]⟩ a f = some ⟨pc + 1, ρ, tables ++ [f T]⟩ := by
  simp [change, ha, Datum.table?]

variable [DecidableEq V] (m : Meaning V) (frame : Frame (Datum V))

/-- Groups of list items have fifty items each, except for the last one. Nil is not a key. -/
def TableState.exec (s : TableState V) : Instruction → Option (TableState V)
  | .abc .newTable a _ _ =>
    some ⟨s.pc + 1, Function.update s.registers a (.table s.tables.length),
      s.tables ++ [m.emptyTable]⟩
  | .abc .setTable a b c => do
    let key ← frame.operand? s.registers b
    let value ← frame.operand? s.registers c
    if key = .value m.nil then none else s.change a fun T ↦ Function.update T key value
  | .abc .setList a b c =>
    if b = 0 ∨ c = 0 then none
    else s.change a fun T ↦
      T.setItems m ((c - 1) * 50 + 1) ((List.range' (a + 1) b).map s.registers)
  | i =>
    match Machine.exec (m.withTables s.tables) frame s.pc s.registers i with
    | some (.next t) => some ⟨t.pc, t.registers, s.tables⟩
    | _ => none

/-- The machine goes from one state to another in any number of steps. -/
def TableState.Steps : TableState V → TableState V → Prop :=
  Relation.ReflTransGen fun s t ↦ (frame.code[s.pc]?.bind (s.exec m frame)) = some t

namespace TableState

variable {m frame} {s t u : TableState V} {i : Instruction}

theorem Steps.refl (s : TableState V) : Steps m frame s s := Relation.ReflTransGen.refl

theorem Steps.trans (hst : Steps m frame s t) (htu : Steps m frame t u) : Steps m frame s u :=
  Relation.ReflTransGen.trans hst htu

theorem Steps.single (hi : frame.code[s.pc]? = some i) (h : s.exec m frame i = some t) :
    Steps m frame s t :=
  Relation.ReflTransGen.single (by rw [hi, Option.bind_some, h])

theorem exec_of_exec {t : State (Datum V)}
    (h : Machine.exec (m.withTables s.tables) frame s.pc s.registers i = some (.next t)) :
    s.exec m frame i = some ⟨t.pc, t.registers, s.tables⟩ := by
  unfold TableState.exec
  split
  · cases h
  · cases h
  · cases h
  · rw [h]

/-- Code that makes no tables runs as before. -/
theorem Steps.of_steps {tables : List (Table V)} {a b : State (Datum V)}
    (h : Machine.Steps (m.withTables tables) frame a b) :
    Steps m frame ⟨a.pc, a.registers, tables⟩ ⟨b.pc, b.registers, tables⟩ := by
  induction h with
  | refl => exact .refl _
  | @tail b c _ hstep ih =>
    obtain ⟨i, hi, hexec⟩ := Option.bind_eq_some_iff.mp hstep
    exact ih.trans (.single hi (exec_of_exec (s := ⟨b.pc, b.registers, tables⟩) hexec))

section Instructions

variable {pc a : Nat} {ρ : Nat → Datum V} {tables : List (Table V)} {T : Table V}

theorem exec_setList {b c : Nat} (hb : 0 < b) (hc : 0 < c) (ha : ρ a = .table tables.length) :
    TableState.exec m frame ⟨pc, ρ, tables ++ [T]⟩ (.abc .setList a b c) =
      some ⟨pc + 1, ρ, tables ++
        [T.setItems m ((c - 1) * 50 + 1) ((List.range' (a + 1) b).map ρ)]⟩ := by
  have hguard : ¬(b = 0 ∨ c = 0) := by omega
  rw [TableState.exec, if_neg hguard, change_eq _ ha]

theorem exec_setTable {b c : Nat} {key x : Datum V} (hkey : key ≠ .value m.nil)
    (hb : frame.operand? ρ b = some key) (hc : frame.operand? ρ c = some x)
    (ha : ρ a = .table tables.length) :
    TableState.exec m frame ⟨pc, ρ, tables ++ [T]⟩ (.abc .setTable a b c) =
      some ⟨pc + 1, ρ, tables ++ [Function.update T key x]⟩ := by
  simp only [TableState.exec, hb, hc, Option.bind_eq_bind, Option.bind_some, if_neg hkey]
  rw [change_eq _ ha]

end Instructions

end TableState

end Machine

end LuaLower
