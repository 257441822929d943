import LuaLower.Instruction.Basic

/-!
# Blocks of code

Whatever is compiled becomes a block: a piece of code into which control enters at the top and which
it leaves at the bottom or by a return. Blocks are put together from instructions that stand alone
and from a few idioms of several instructions that must not be taken apart.
-/

namespace LuaLower

namespace Instruction

/-- Whether an instruction writes a register. A call may leave results in every register from that
of the function on, and a concatenation joins its operands in their place. -/
def writes (i : Instruction) (r : Nat) : Bool :=
  match i with
  | .abc op a b c =>
    match op with
    | .move | .loadBool | .getUpval | .getTabUp | .getTable | .newTable
    | .add | .sub | .mul | .mod | .pow | .div | .idiv
    | .band | .bor | .bxor | .shl | .shr
    | .unm | .bnot | .not | .len | .testSet => r = a
    | .loadNil => a ≤ r ∧ r ≤ a + b
    | .concat => r = a ∨ b ≤ r ∧ r ≤ c
    | .self => r = a ∨ r = a + 1
    | .call | .tailCall | .vararg => a ≤ r
    | .tforCall => a + 3 ≤ r
    | _ => false
  | .abx op a _ =>
    match op with
    | .loadK | .loadKX | .closure => r = a
    | _ => false
  | .asbx op a _ =>
    match op with
    | .forPrep => a ≤ r ∧ r ≤ a + 2
    | .forLoop => r = a ∨ r = a + 3
    | .tforLoop => r = a
    | _ => false
  | .ax .. => false

/-- Whether an instruction stands alone: it is followed by whatever comes next, or it returns. List
items stand alone if their group has a number and between one and fifty items. -/
def isPlain : Instruction → Bool
  | .abc op _ b c =>
    match op with
    | .move | .loadNil | .getUpval | .getTabUp | .getTable | .setTabUp | .setUpval | .setTable
    | .newTable | .add | .sub | .mul | .mod | .pow | .div | .band | .bor | .bxor | .shl | .shr
    | .unm | .bnot | .not | .concat | .ret => true
    | .loadBool => c = 0
    | .setList => c ≠ 0 ∧ 0 < b ∧ b ≤ 50
    | _ => false
  | .abx op _ _ => op = .loadK ∨ op = .closure
  | _ => false

/-- Whether an instruction is a test that decides on the jump after it. -/
def isTest (i : Instruction) : Bool := i.opcode ∈ [.eq, .lt, .le, .testSet]

end Instruction

/-- Blocks that write no registers but those of `W`. An open block ends with a call whose results
are taken by the next call, however many they are. -/
inductive Block (W : Nat → Prop) : (isOpen : Bool) → List Instruction → Prop
  | nil : Block W false []
  | append {isOpen : Bool} {is js : List Instruction} : Block W false is → Block W isOpen js →
    Block W isOpen (is ++ js)
  | plain {i : Instruction} : i.isPlain = true → (∀ r, i.writes r = true → W r) → Block W false [i]
  /-- A constant whose index takes a word of its own. -/
  | wide {dst : Nat} (k : Nat) : W dst → Block W false [.abx .loadKX dst 0, .ax .extraArg k]
  /-- The truth value of a comparison: the test selects one of two loads. -/
  | comparison {op : Opcode} {dst : Nat} (holdsOn left right : Nat) :
    op = .eq ∨ op = .lt ∨ op = .le → W dst →
    Block W false [.abc op holdsOn left right, .asbx .jmp 0 1, .abc .loadBool dst 0 1,
      .abc .loadBool dst 1 0]
  /-- A block that is skipped if a value decides a logical operation alone. -/
  | guarded {dst : Nat} {body : List Instruction} (src decides : Nat) : W dst → Block W false body →
    body ≠ [] →
    Block W false ([.abc .testSet dst src decides, .asbx .jmp 0 body.length] ++ body)
  | call {isOpen : Bool} {args : List Instruction} {base b : Nat} (c : Nat) : Block W isOpen args →
    (b = 0 ↔ isOpen = true) → (∀ r, base ≤ r → W r) →
    Block W (c == 0) (args ++ [.abc .call base b c])

namespace Block

variable {W : Nat → Prop} {isOpen : Bool} {is : List Instruction}

theorem writes (h : Block W isOpen is) : ∀ i ∈ is, ∀ r, i.writes r = true → W r := by
  induction h with
  | nil => exact List.forall_mem_nil _
  | append _ _ ih ih' => exact List.forall_mem_append.mpr ⟨ih, ih'⟩
  | plain _ hwrites => exact List.forall_mem_singleton.mpr hwrites
  | wide k hdst =>
    simp only [List.forall_mem_cons, Instruction.writes, decide_eq_true_eq]
    exact ⟨fun r hr ↦ hr ▸ hdst, nofun, List.forall_mem_nil _⟩
  | comparison _ _ _ hop hdst =>
    simp only [List.forall_mem_cons]
    refine ⟨?_, nofun, ?_, ?_, List.forall_mem_nil _⟩
    · rcases hop with rfl | rfl | rfl <;> exact nofun
    · simpa [Instruction.writes] using hdst
    · simpa [Instruction.writes] using hdst
  | guarded src decides hdst _ _ ih =>
    refine List.forall_mem_append.mpr ⟨?_, ih⟩
    simp only [List.forall_mem_cons]
    exact ⟨by simpa [Instruction.writes] using hdst, nofun, List.forall_mem_nil _⟩
  | call c _ _ hbase ih =>
    refine List.forall_mem_append.mpr ⟨ih, List.forall_mem_singleton.mpr ?_⟩
    simpa [Instruction.writes] using hbase

/-- Every group of list items is one that stands alone. -/
theorem isPlain_of_setList {a b c : Nat} (h : Block W isOpen is) (hi : .abc .setList a b c ∈ is) :
    (Instruction.abc .setList a b c).isPlain = true := by
  induction h with
  | nil => cases hi
  | append _ _ ih ih' => exact (List.mem_append.mp hi).elim ih ih'
  | plain hplain _ => exact List.mem_singleton.mp hi ▸ hplain
  | wide k _ => simp at hi
  | comparison _ _ _ hop _ =>
    rcases hop with rfl | rfl | rfl <;> simp at hi
  | guarded src decides _ _ _ ih => exact ih (by simpa using hi)
  | call c _ _ _ ih => exact ih (by simpa using hi)

end Block

end LuaLower
