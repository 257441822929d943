import LuaLower.Compile
import LuaLower.Proofs.ChunkRoundTrip

/-!
# Why a chunk cannot be written

A chunk is written in one pass. What can stop it is an instruction that does not fit its word, or a
debug table if the chunk is not stripped. The tables of a prototype come last, after all functions
that are nested in it, and the pass reports the first thing that stops it.
-/

namespace LuaLower

/-- The failure that a computation ends in. -/
def failure? {α : Type} : Except Failure α → Option Failure
  | .ok _ => none
  | .error e => some e

section Failures

variable {α β : Type} {x : Except Failure α} {k : α → Except Failure β} {e : Failure}

theorem failure?_eq_some_iff : failure? x = some e ↔ x = .error e := by
  cases x <;> simp [failure?]

/-- A computation whose second part fails in one way, whatever the first part gives. -/
theorem failure?_bind {later : Option Failure} (h : ∀ a, failure? (k a) = later) :
    failure? (x >>= k) = (failure? x).or later := by
  cases x with
  | ok a => exact h a
  | error e => rfl

/-- A computation whose second part cannot fail. -/
theorem failure?_bind_ok (h : ∀ a, failure? (k a) = none) : failure? (x >>= k) = failure? x := by
  rw [failure?_bind h, Option.or_none]

end Failures

/-! ## The order of writing -/

theorem DebugTables.isEmpty_iff {tables : DebugTables} : tables.isEmpty = true ↔ tables = {} := by
  obtain ⟨lines, locals, upvalueNames⟩ := tables
  simp [DebugTables.isEmpty, and_assoc]

/-- Something on which the writing of a chunk can fail. -/
inductive ChunkItem where
  | instruction (i : Instruction)
  | debug (tables : DebugTables)
  deriving DecidableEq, Repr

/-- Why an item cannot be written. -/
def ChunkItem.failure? (strip : Bool) : ChunkItem → Option Failure
  | .instruction i => LuaLower.failure? i.encode
  | .debug tables => if strip = false ∧ tables ≠ {} then some (.unimplemented .debugInfo) else none

namespace Prototype

mutual

/-- What is written of a prototype, in order: its instructions, the functions nested in it, and its
debug tables. -/
def chunkItems : Prototype → List ChunkItem
  | ⟨_, _, _, _, _, _, code, _, _, children, debug⟩ =>
    code.toList.map .instruction ++ (chunkItemsAll children ++ [.debug debug])

def chunkItemsAll : List Prototype → List ChunkItem
  | [] => []
  | p :: ps => p.chunkItems ++ chunkItemsAll ps

end

theorem chunkItems_eq (p : Prototype) :
    p.chunkItems =
      p.code.toList.map .instruction ++ (chunkItemsAll p.children ++ [.debug p.debug]) := by
  cases p
  rfl

theorem mem_chunkItemsAll {ps : List Prototype} {item : ChunkItem} :
    item ∈ chunkItemsAll ps ↔ ∃ p ∈ ps, item ∈ p.chunkItems := by
  induction ps with
  | nil => simp [chunkItemsAll]
  | cons p ps ih => simp [chunkItemsAll, ih]

/-- An item stands in a prototype itself, and not in a function nested in it. -/
def Holds (p : Prototype) : ChunkItem → Prop
  | .instruction i => i ∈ p.code
  | .debug tables => tables = p.debug

theorem mem_chunkItems_iff {p : Prototype} {item : ChunkItem} :
    item ∈ p.chunkItems ↔ p.Holds item ∨ ∃ c ∈ p.children, item ∈ c.chunkItems := by
  rw [chunkItems_eq, List.mem_append, List.mem_append, mem_chunkItemsAll]
  cases item <;> simp [Holds, or_comm]

/-- Writing a prototype comes upon every prototype of the tree, and upon nothing else. -/
theorem mem_chunkItems_iff_contains {p : Prototype} {item : ChunkItem} :
    item ∈ p.chunkItems ↔ ∃ q, p.Contains q ∧ q.Holds item := by
  constructor
  · intro hitem
    induction p using induction_on_children with
    | h p ih =>
      obtain hself | ⟨c, hc, hitem⟩ := mem_chunkItems_iff.mp hitem
      · exact ⟨p, .self p, hself⟩
      · obtain ⟨q, hq, hholds⟩ := ih c hc hitem
        exact ⟨q, .nested hc hq, hholds⟩
  · rintro ⟨q, hq, hholds⟩
    induction hq with
    | self p => exact mem_chunkItems_iff.mpr (.inl hholds)
    | nested hc _ ih => exact mem_chunkItems_iff.mpr (.inr ⟨_, hc, ih hholds⟩)

end Prototype

/-! ## The first failure -/

namespace Chunk

open Prototype

theorem failure?_encodeAll (strip : Bool) (is : List Instruction) :
    failure? (is.mapM Instruction.encode) =
      (is.map ChunkItem.instruction).findSome? (ChunkItem.failure? strip) := by
  induction is with
  | nil => rfl
  | cons i is ih =>
    have hrest (w : UInt32) : failure? (do
        let words ← is.mapM Instruction.encode
        return w :: words) = (is.map ChunkItem.instruction).findSome? (ChunkItem.failure? strip) :=
      (failure?_bind_ok fun _ ↦ rfl).trans ih
    rw [List.mapM_cons, failure?_bind hrest, List.map_cons, ← List.singleton_append,
      List.findSome?_append, List.findSome?_singleton]
    rfl

theorem failure?_code (strip : Bool) (is : Array Instruction) :
    failure? (code is) =
      (is.toList.map ChunkItem.instruction).findSome? (ChunkItem.failure? strip) :=
  (failure?_bind_ok fun _ ↦ rfl).trans (failure?_encodeAll strip is.toList)

/-- The blocks of several functions fail as the first of them that fails. -/
theorem failure?_blocks {strip : Bool} {enclosing : Option String} {ps : List Prototype}
    (h : ∀ p ∈ ps, failure? (block strip enclosing p) =
      p.chunkItems.findSome? (ChunkItem.failure? strip)) :
    failure? (blocks strip enclosing ps) =
      (chunkItemsAll ps).findSome? (ChunkItem.failure? strip) := by
  induction ps with
  | nil => rfl
  | cons p ps ih =>
    obtain ⟨hp, hps⟩ := List.forall_mem_cons.mp h
    rw [blocks, chunkItemsAll, List.findSome?_append, ← hp, ← ih hps]
    exact failure?_bind fun first ↦ failure?_bind_ok fun _ ↦ rfl

theorem failure?_debug (strip : Bool) (tables : DebugTables) (bytes : List UInt8) :
    failure? (if strip || tables.isEmpty then pure bytes else throw (.unimplemented .debugInfo)) =
      ChunkItem.failure? strip (.debug tables) := by
  have hempty : tables.isEmpty = true ↔ tables = {} := DebugTables.isEmpty_iff
  by_cases hstopped : strip = false ∧ tables ≠ {}
  · have hwritten : (strip || tables.isEmpty) ≠ true := by simp_all
    rw [if_neg hwritten, ChunkItem.failure?, if_pos hstopped]
    rfl
  · have hwritten : (strip || tables.isEmpty) = true := by
      rw [Bool.or_eq_true, hempty]
      cases strip <;> simp_all
    rw [if_pos hwritten, ChunkItem.failure?, if_neg hstopped]
    rfl

/-- The failure of a block is that of the first item that cannot be written. -/
theorem failure?_block (strip : Bool) (enclosing : Option String) (p : Prototype) :
    failure? (block strip enclosing p) = p.chunkItems.findSome? (ChunkItem.failure? strip) := by
  induction p using induction_on_children generalizing enclosing with
  | h p ih =>
    rw [block_eq, chunkItems_eq, List.findSome?_append, List.findSome?_append, ← failure?_code,
      ← failure?_blocks fun c hc ↦ ih c hc p.source, List.findSome?_singleton]
    apply failure?_bind
    intro body
    apply failure?_bind
    intro nested
    exact failure?_debug strip p.debug _

theorem failure?_write (strip : Bool) (p : Prototype) :
    failure? (write strip p) = p.chunkItems.findSome? (ChunkItem.failure? strip) :=
  (failure?_bind_ok fun _ ↦ rfl).trans (failure?_block strip none p)

end Chunk

/-- An item that cannot be written is an instruction without a word, or debug tables that are
neither empty nor left out. -/
theorem ChunkItem.isSome_failure?_iff {strip : Bool} {item : ChunkItem} :
    (item.failure? strip).isSome = true ↔
      (∃ i, item = .instruction i ∧ ∃ e, i.encode = .error e) ∨
        ∃ tables, item = .debug tables ∧ strip = false ∧ tables ≠ {} := by
  cases item with
  | instruction i => simp [failure?, Option.isSome_iff_exists, failure?_eq_some_iff]
  | debug tables => simp [failure?, Option.isSome_ite]

open Chunk in
/-- A chunk cannot be written exactly if an instruction does not fit its word or there are debug
tables to write. The first failure in the order of writing is reported. -/
theorem write_reports_first_failure (options : Options) (p : Prototype) :
    ((∃ e, write options.strip p = .error e) ↔
      (∃ q, p.Contains q ∧ ∃ i ∈ q.code, ∃ e, i.encode = .error e) ∨
        options.strip = false ∧ ∃ q, p.Contains q ∧ q.debug ≠ {}) ∧
    ∀ e, write options.strip p = .error e ↔
      p.chunkItems.findSome? (ChunkItem.failure? options.strip) = some e := by
  have hfirst (e : Failure) : write options.strip p = .error e ↔
      p.chunkItems.findSome? (ChunkItem.failure? options.strip) = some e := by
    rw [← failure?_write, failure?_eq_some_iff]
  refine ⟨?_, hfirst⟩
  simp only [hfirst, ← Option.isSome_iff_exists, List.findSome?_isSome_iff,
    ChunkItem.isSome_failure?_iff, Prototype.mem_chunkItems_iff_contains]
  constructor
  · rintro ⟨item, ⟨q, hq, hholds⟩, ⟨i, rfl, he⟩ | ⟨tables, rfl, hstrip, hdebug⟩⟩
    · exact .inl ⟨q, hq, i, hholds, he⟩
    · obtain rfl : tables = q.debug := hholds
      exact .inr ⟨hstrip, q, hq, hdebug⟩
  · rintro (⟨q, hq, i, hi, he⟩ | ⟨hstrip, q, hq, hdebug⟩)
    · exact ⟨.instruction i, ⟨q, hq, hi⟩, .inl ⟨i, rfl, he⟩⟩
    · exact ⟨.debug q.debug, ⟨q, hq, rfl⟩, .inr ⟨q.debug, rfl, hstrip, hdebug⟩⟩

/-- The nested function has an instruction in the wrong layout, which is met before the debug tables
of the function around it, and is all that is left to report when stripped. -/
example (strip : Bool) :
    let nested : Prototype := { code := #[.abx .move 0 0] }
    let p : Prototype := { children := [nested], debug := { lines := [1] } }
    p.chunkItems.findSome? (ChunkItem.failure? strip) =
      some (.malformed .move (.family .abx .abc)) := by
  cases strip <;> rfl

end LuaLower
