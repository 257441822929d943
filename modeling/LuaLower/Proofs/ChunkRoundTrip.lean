import LuaLower.Proofs.Chunk.Loader
import LuaLower.Proofs.Prototype.Nesting

/-!
# Chunks keep prototypes

Loading the chunk of a prototype gives the prototype back. The names of upvalues are not part of a
chunk, and at least two registers are reserved; all else is kept.
-/

namespace LuaLower

open Chunk

namespace Prototype

mutual

/-- A prototype as its chunk keeps it. -/
def stored : Prototype → Prototype
  | ⟨source, line, lastLine, numParams, isVararg, stackSize, code, constants, upvalues, children,
      debug⟩ =>
    ⟨source, line, lastLine, numParams, isVararg, max stackSize 2, code, constants,
      upvalues.map fun u ↦ { u with name := "" }, storedAll children, debug⟩

def storedAll : List Prototype → List Prototype
  | [] => []
  | p :: ps => p.stored :: storedAll ps

end

theorem stored_eq {p : Prototype} (hdebug : p.debug.isEmpty = true) :
    p.stored = {
      source := p.source
      line := p.line
      lastLine := p.lastLine
      numParams := p.numParams
      isVararg := p.isVararg
      stackSize := max p.stackSize 2
      code := p.code.toList.toArray
      constants := ⟨p.constants.toList.toArray⟩
      upvalues := p.stored.upvalues
      children := storedAll p.children } := by
  obtain ⟨_, _, _, _, _, _, code, ⟨constants⟩, _, _, ⟨lines, locals, upvalueNames⟩⟩ := p
  simp only [DebugTables.isEmpty, Bool.and_eq_true, List.isEmpty_iff] at hdebug
  obtain ⟨⟨rfl, rfl⟩, rfl⟩ := hdebug
  simp [stored, Pool.toList]

/-- What a prototype must satisfy, apart from those nested in it, to be kept by a chunk. -/
structure Storable (p : Prototype) : Prop where
  encodes : ∀ i ∈ p.code, ∃ w, i.encode = .ok w
  debug : p.debug.isEmpty = true
  code_lt : p.code.size < 2 ^ 31
  constants_lt : p.constants.size < 2 ^ 31
  upvalues_lt : p.upvalues.length < 2 ^ 31
  children_lt : p.children.length < 2 ^ 31
  source : ∀ s ∈ p.source, SizeFits s
  strings : ∀ s, .string s ∈ p.constants.toList → SizeFits s
  /-- No function without a source name is inside one that has one. -/
  sources : p.source.isSome → ∀ c ∈ p.children, c.source.isSome

end Prototype

namespace Chunk

open Prototype

variable {enclosing : Option String} {p : Prototype}

/-! ## The lists of a block -/

theorem exists_words (is : List Instruction) (h : ∀ i ∈ is, ∃ w, i.encode = .ok w) :
    ∃ words, is.mapM Instruction.encode = .ok words ∧
      List.Forall₂ (Reads Reader.instruction) (words.map word) is := by
  induction is with
  | nil => exact ⟨[], rfl, .nil⟩
  | cons i is ih =>
    obtain ⟨w, hw⟩ := h i List.mem_cons_self
    obtain ⟨words, hwords, hreads⟩ := ih fun j hj ↦ h j (List.mem_cons_of_mem i hj)
    refine ⟨w :: words, ?_, .cons (reads_instruction hw) hreads⟩
    rw [List.mapM_cons, hw, hwords]
    rfl

theorem exists_code (hp : p.Storable) :
    ∃ bytes, code p.code = .ok bytes ∧
      Reads (Reader.list Reader.instruction) bytes p.code.toList := by
  obtain ⟨words, hwords, hreads⟩ :=
    exists_words p.code.toList fun i hi ↦ hp.encodes i (Array.mem_toList_iff.mp hi)
  refine ⟨count p.code.size ++ words.flatMap word, ?_, ?_⟩
  · rw [code, hwords]
    rfl
  · rw [List.flatMap_def]
    exact reads_list hreads hp.code_lt

theorem reads_map {α β : Type} {reader : Reader β} (bytes : α → List UInt8) (read : α → β)
    (as : List α) (h : ∀ a ∈ as, Reads reader (bytes a) (read a)) :
    List.Forall₂ (Reads reader) (as.map bytes) (as.map read) := by
  induction as with
  | nil => exact .nil
  | cons a as ih =>
    exact .cons (h a List.mem_cons_self) (ih fun b hb ↦ h b (List.mem_cons_of_mem a hb))

theorem reads_constants (hp : p.Storable) :
    Reads (Reader.list Reader.constant)
      (count p.constants.size ++ p.constants.toList.flatMap constant) p.constants.toList := by
  have hconstants := reads_map constant id p.constants.toList fun k hk ↦
    reads_constant fun s hs ↦ hp.strings s (hs ▸ hk)
  rw [List.map_id] at hconstants
  rw [List.flatMap_def]
  exact reads_list hconstants hp.constants_lt

theorem reads_upvalues (hp : p.Storable) :
    Reads (Reader.list Reader.upvalue)
      (count p.upvalues.length ++ p.upvalues.flatMap upvalue) p.stored.upvalues := by
  have hstored : p.stored.upvalues = p.upvalues.map fun u ↦ { u with name := "" } := by
    cases p
    rfl
  have hlength : p.stored.upvalues.length = p.upvalues.length := by
    rw [hstored, List.length_map]
  have hupvalues := reads_map upvalue _ p.upvalues fun u _ ↦ reads_upvalue u
  rw [← hstored] at hupvalues
  rw [List.flatMap_def, ← hlength]
  exact reads_list hupvalues (hlength ▸ hp.upvalues_lt)

/-! ## Blocks -/

theorem block_eq (strip : Bool) (enclosing : Option String) (p : Prototype) :
    block strip enclosing p = (do
      let body ← code p.code
      let nested ← blocks strip p.source p.children
      if strip || p.debug.isEmpty then
        return sourceName strip enclosing p.source
          ++ int p.line ++ int p.lastLine ++ [p.numParams, flag p.isVararg, max p.stackSize 2]
          ++ body
          ++ count p.constants.size ++ p.constants.toList.flatMap constant
          ++ count p.upvalues.length ++ p.upvalues.flatMap upvalue
          ++ count p.children.length ++ nested
          ++ emptyDebug
      else
        throw (.unimplemented .debugInfo)) := by
  cases p
  rfl

/-- A block can be written and read if the blocks in it can. The bytes of those are fewer, so that
the depth for them may be one less. -/
theorem exists_block_of_nested (hp : p.Storable) (henclosing : enclosing.isSome → p.source.isSome)
    {nested : List UInt8} (hnested : blocks false p.source p.children = .ok nested)
    (hreads : ∀ depth, nested.length ≤ depth →
      Reads (Reader.times (Reader.block depth p.source) p.children.length) nested
        (storedAll p.children)) :
    ∃ bytes, block false enclosing p = .ok bytes ∧
      ∀ depth, bytes.length ≤ depth → Reads (Reader.block depth enclosing) bytes p.stored := by
  obtain ⟨body, hbody, hcode⟩ := exists_code hp
  refine ⟨sourceName false enclosing p.source ++ (int p.line ++ (int p.lastLine ++
    ([p.numParams] ++ ([flag p.isVararg] ++ ([max p.stackSize 2] ++ (body ++
      ((count p.constants.size ++ p.constants.toList.flatMap constant) ++
        ((count p.upvalues.length ++ p.upvalues.flatMap upvalue) ++
          ((count p.children.length ++ nested) ++ emptyDebug))))))))), ?_, ?_⟩
  · rw [block_eq, hbody, hnested, hp.debug]
    simp only [List.append_assoc, List.cons_append, List.nil_append]
    rfl
  · intro depth hdepth
    have hlength : emptyDebug.length = 12 := rfl
    simp only [List.length_append, hlength] at hdepth
    obtain ⟨depth, rfl⟩ : ∃ d, depth = d + 1 := ⟨depth - 1, by omega⟩
    have hchildren : Reads (Reader.list (Reader.block depth p.source))
        (count p.children.length ++ nested) (storedAll p.children) :=
      (reads_count hp.children_lt).bind (hreads depth (by omega))
    rw [Reader.block]
    apply (reads_source hp.source henclosing).bind
    apply (reads_int p.line).bind
    apply (reads_int p.lastLine).bind
    apply (reads_byte p.numParams).bind
    apply (reads_flag p.isVararg).bind
    apply (reads_byte (max p.stackSize 2)).bind
    apply hcode.bind
    apply (reads_constants hp).bind
    apply (reads_upvalues hp).bind
    apply hchildren.bind
    apply reads_emptyDebug.bind_last
    rw [stored_eq hp.debug]
    exact reads_pure _

mutual

theorem exists_block (p : Prototype) (enclosing : Option String)
    (hp : ∀ q, p.Contains q → q.Storable) (henclosing : enclosing.isSome → p.source.isSome) :
    ∃ bytes, block false enclosing p = .ok bytes ∧
      ∀ depth, bytes.length ≤ depth → Reads (Reader.block depth enclosing) bytes p.stored := by
  cases p with
  | mk source line lastLine numParams isVararg stackSize is constants upvalues children debug =>
    have hself := hp _ (.self _)
    obtain ⟨nested, hnested, hreads⟩ :=
      exists_blocks children source (fun c hc q hq ↦ hp q (.nested hc hq)) hself.sources
    exact exists_block_of_nested hself henclosing hnested hreads

theorem exists_blocks (ps : List Prototype) (enclosing : Option String)
    (hps : ∀ p ∈ ps, ∀ q, p.Contains q → q.Storable)
    (henclosing : enclosing.isSome → ∀ p ∈ ps, p.source.isSome) :
    ∃ bytes, blocks false enclosing ps = .ok bytes ∧
      ∀ depth, bytes.length ≤ depth →
        Reads (Reader.times (Reader.block depth enclosing) ps.length) bytes (storedAll ps) := by
  cases ps with
  | nil => exact ⟨[], rfl, fun _ _ ↦ reads_pure []⟩
  | cons p ps =>
    obtain ⟨first, hfirst, hreadsFirst⟩ :=
      exists_block p enclosing (hps p List.mem_cons_self) fun h ↦ henclosing h p List.mem_cons_self
    obtain ⟨rest, hrest, hreadsRest⟩ := exists_blocks ps enclosing
      (fun q hq ↦ hps q (List.mem_cons_of_mem p hq))
      fun h q hq ↦ henclosing h q (List.mem_cons_of_mem p hq)
    refine ⟨first ++ rest, ?_, ?_⟩
    · rw [blocks, hfirst, hrest]
      rfl
    · intro depth hdepth
      rw [List.length_append] at hdepth
      apply (hreadsFirst depth (by omega)).bind
      exact (hreadsRest depth (by omega)).map _

end

theorem length_header : header.length = 33 := rfl

theorem reads_preamble (b : UInt8) : Reads Reader.preamble (header ++ [b]) b := by
  apply (reads_take length_header).bind
  exact reads_byte b

theorem load_write (hp : ∀ q, p.Contains q → q.Storable) (hupvalues : p.upvalues.length ≤ 255) :
    ∃ body, write false p = .ok (header ++ UInt8.ofNat p.upvalues.length :: body) ∧
      load (header ++ UInt8.ofNat p.upvalues.length :: body) =
        some (p.upvalues.length, p.stored) := by
  obtain ⟨body, hbody, hreads⟩ := exists_block p none hp nofun
  refine ⟨body, ?_, ?_⟩
  · rw [write, hbody]
    rfl
  · have hpreamble := reads_preamble (UInt8.ofNat p.upvalues.length) body
    have hmain := hreads body.length (le_refl _) []
    have hcount : (UInt8.ofNat p.upvalues.length).toNat = p.upvalues.length :=
      UInt8.toNat_ofNat_of_lt (Nat.lt_succ_of_le hupvalues)
    rw [List.append_assoc, List.singleton_append] at hpreamble
    rw [List.append_nil] at hmain
    simp only [load, hpreamble, hmain, hcount]

end Chunk

/-- The chunk of a prototype is a header of 33 bytes, a byte for the number of upvalues, and a block
that loads as the prototype with nothing left over. Hence a chunk determines the prototype. -/
theorem chunk_round_trip :
    (∀ p : Prototype, (∀ q, p.Contains q → q.Storable) → p.upvalues.length ≤ 255 →
      ∃ body, write false p = .ok (header ++ UInt8.ofNat p.upvalues.length :: body) ∧
        header.length = 33 ∧
        load (header ++ UInt8.ofNat p.upvalues.length :: body) =
          some (p.upvalues.length, p.stored)) ∧
    ∀ p p' : Prototype, (∀ q, p.Contains q → q.Storable) → p.upvalues.length ≤ 255 →
      (∀ q, p'.Contains q → q.Storable) → p'.upvalues.length ≤ 255 →
      write false p = write false p' → p.stored = p'.stored := by
  constructor
  · intro p hp hupvalues
    obtain ⟨body, hwrite, hload⟩ := load_write hp hupvalues
    exact ⟨body, hwrite, length_header, hload⟩
  · intro p p' hp hupvalues hp' hupvalues' hwrites
    obtain ⟨body, hwrite, hload⟩ := load_write hp hupvalues
    obtain ⟨body', hwrite', hload'⟩ := load_write hp' hupvalues'
    rw [hwrite, hwrite', Except.ok.injEq] at hwrites
    rw [hwrites, hload'] at hload
    exact (Prod.mk.inj (Option.some.inj hload)).2.symm

/-- A function inside another one, with which it shares its source name. -/
def nestedFunction : Prototype where
  source := some "@main.ts"
  line := 3
  lastLine := 5
  code := #[.abc .ret 0 1 0]
  upvalues := [⟨"x", false, 0⟩]

/-- A main function with constants of every kind. -/
def mainFunction (upvalueName : String) (stackSize : UInt8) : Prototype where
  source := some "@main.ts"
  isVararg := true
  stackSize := stackSize
  code := #[.abx .closure 0 0, .asbx .jmp 0 (-1), .abx .loadKX 0 0, .ax .extraArg 4]
  constants := ⟨#[.nil, .boolean true, .integer (-1), .float .nan, .string "naïve"]⟩
  upvalues := [⟨upvalueName, true, 0⟩]
  children := [nestedFunction]

theorem sizeFits_main : SizeFits "@main.ts" := by
  rw [SizeFits]
  decide +kernel

theorem storable_nestedFunction : nestedFunction.Storable where
  encodes i hi := by
    obtain rfl : i = .abc .ret 0 1 0 := by simpa [nestedFunction] using hi
    exact ⟨_, rfl⟩
  debug := rfl
  code_lt := by decide
  constants_lt := by decide
  upvalues_lt := by decide
  children_lt := by decide
  source := by
    rintro s ⟨⟩
    exact sizeFits_main
  strings s hs := by simp [nestedFunction, Pool.toList] at hs
  sources _ c hc := by cases hc

theorem storable_mainFunction (upvalueName : String) (stackSize : UInt8) :
    (mainFunction upvalueName stackSize).Storable where
  encodes i hi := by
    simp only [mainFunction, List.mem_toArray, List.mem_cons, List.not_mem_nil, or_false] at hi
    rcases hi with rfl | rfl | rfl | rfl <;> exact ⟨_, rfl⟩
  debug := rfl
  code_lt := show 4 < 2 ^ 31 by decide
  constants_lt := show 5 < 2 ^ 31 by decide
  upvalues_lt := show 1 < 2 ^ 31 by decide
  children_lt := show 1 < 2 ^ 31 by decide
  source := by
    rintro s ⟨⟩
    exact sizeFits_main
  strings s hs := by
    obtain rfl : s = "naïve" := by simpa [mainFunction, Pool.toList] using hs
    rw [SizeFits]
    decide +kernel
  sources _ c hc := by
    obtain rfl : c = nestedFunction := by simpa [mainFunction] using hc
    rfl

theorem chunk_round_trip_mainFunction :
    (∃ body, write false (mainFunction envName 1) = .ok (header ++ 1 :: body) ∧
      header.length = 33 ∧
      load (header ++ 1 :: body) = some (1, (mainFunction envName 1).stored)) ∧
    (mainFunction envName 1).stored = (mainFunction "env" 2).stored := by
  have hstorable (name : String) (stackSize : UInt8) :
      ∀ q, (mainFunction name stackSize).Contains q → q.Storable := by
    apply Prototype.forall_contains (storable_mainFunction name stackSize)
    intro c hc
    obtain rfl : c = nestedFunction := by simpa [mainFunction] using hc
    apply Prototype.forall_contains storable_nestedFunction
    intro c hc
    cases hc
  exact ⟨chunk_round_trip.1 _ (hstorable _ _) (by decide),
    chunk_round_trip.2 _ _ (hstorable _ _) (by decide) (hstorable _ _) (by decide) rfl⟩

end LuaLower
