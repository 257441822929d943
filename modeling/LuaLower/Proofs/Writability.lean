import LuaLower.Proofs.ChunkRoundTrip
import LuaLower.Proofs.ControlFlow
import LuaLower.Proofs.OperandValidity
import LuaLower.Proofs.Recovery

/-!
# Programs that compile can be written

The fields of instructions are checked only when a chunk is written. Most of them fit because of
what they name: a register, an upvalue, or one of the constants that an operand can reach. The
others count what a prototype has, so they fit as long as its code, its constants and its children
are not too many.
-/

namespace LuaLower

/-! ## Fields that count -/

namespace Prototype

variable {p : Prototype}

/-- The numbers up to which jumps, closures and wide constants can name what they concern. -/
structure WithinLimits (p : Prototype) : Prop where
  code : p.code.size ≤ 131072
  children : p.children.length ≤ 262144
  constants : p.constants.size ≤ 2 ^ 26

theorem LandsAt.lt_size {target : Nat} (h : p.LandsAt target) : target < p.code.size := by
  obtain ⟨i, hi, -⟩ := h
  exact (Array.getElem?_eq_some_iff.mp hi).1

/-- The function and the arguments of a call are in registers. -/
theorem OperandsValid.call_le (hp : p.OperandsValid) {base operand results : Nat}
    (hmem : .abc .call base operand results ∈ p.code) : operand ≤ 256 := by
  by_contra! hoperand
  have hnamed : base + 256 ∈ (Instruction.abc .call base operand results).registers := by
    apply List.mem_cons_of_mem
    apply List.mem_append_left
    rw [List.mem_range'_1]
    omega
  have hregister := hp.registers _ hmem _ hnamed
  have hsize := p.stackSize.toNat_lt
  omega

theorem OperandsValid.closure_lt (hp : p.OperandsValid) {dst child : Nat}
    (hmem : .abx .closure dst child ∈ p.code) : child < p.children.length := by
  rw [← List.mem_range, ← hp.closures, List.mem_flatMap]
  exact ⟨_, Array.mem_toList_iff.mpr hmem, List.mem_singleton_self child⟩

theorem OperandsValid.extraArg_lt (hp : p.OperandsValid) {operand : Nat}
    (hmem : .ax .extraArg operand ∈ p.code) : operand < p.constants.size :=
  hp.constants _ hmem operand (List.mem_singleton_self operand)

/-- A jump leads forward to an instruction of the same code. -/
theorem FlowIntact.jump_lt (hp : p.FlowIntact) {dst : Nat} {offset : Int}
    (hmem : .asbx .jmp dst offset ∈ p.code) : 1 ≤ offset ∧ offset + 1 < p.code.size := by
  obtain ⟨pc, hpc⟩ := Array.mem_iff_getElem?.mp hmem
  obtain ⟨-, distance, hjump, hdistance, hlands⟩ := hp.jump pc _ hpc rfl
  have htarget := hlands.lt_size
  cases hjump
  omega

end Prototype

/-- In code that is intact and within the limits the fields that were left open fit as well. -/
theorem Instruction.Packable.fieldsFit {i : Instruction} {p : Prototype}
    (hi : i.Packable (· ≤ 2 ^ 32 - 16)) (hmem : i ∈ p.code) (hvalid : p.OperandsValid)
    (hflow : p.FlowIntact) (hlimits : p.WithinLimits) :
    i.family = i.opcode.family ∧ i.FieldsFit := by
  cases i with
  | abc op x y z =>
    obtain ⟨hop, hx, hy, hz⟩ := hi
    refine ⟨hop.symm, hx, ?_, ?_⟩
    · obtain hy | rfl := hy
      · exact hy
      · exact (hvalid.call_le hmem).trans_lt (by decide)
    · obtain hz | ⟨-, n, hn, rfl⟩ := hz
      · exact hz
      · exact (SizeByte.encode_lt hn).trans (by decide)
  | abx op x y =>
    obtain ⟨hop, hx, hy⟩ := hi
    refine ⟨hop.symm, hx, ?_⟩
    obtain hy | rfl := hy
    · exact hy
    · exact (hvalid.closure_lt hmem).trans_le hlimits.children
  | asbx op x offset =>
    obtain ⟨rfl, hx⟩ := hi
    have hjump := hflow.jump_lt hmem
    have hcode := hlimits.code
    exact ⟨rfl, hx, by omega, by omega⟩
  | ax op operand =>
    obtain rfl : op = .extraArg := hi
    exact ⟨rfl, (hvalid.extraArg_lt hmem).trans_le hlimits.constants⟩

/-! ## Writing -/

/-- The code of a prototype can be packed and there are no debug tables. -/
structure Prototype.Writable (p : Prototype) : Prop where
  code : ∀ i ∈ p.code, i.family = i.opcode.family ∧ i.FieldsFit
  debug : p.debug = {}

namespace Chunk

theorem exists_code_bytes {p : Prototype} (hp : p.Writable) :
    ∃ bytes, code p.code = .ok bytes := by
  have hencodes (i : Instruction) (hi : i ∈ p.code.toList) : ∃ word, i.encode = .ok word := by
    obtain ⟨hfamily, hfits⟩ := hp.code i (Array.mem_toList_iff.mp hi)
    exact ⟨_, Instruction.encode_of_fieldsFit hfamily hfits⟩
  obtain ⟨words, hwords, -⟩ := exists_words p.code.toList hencodes
  rw [code, hwords]
  exact ⟨_, rfl⟩

mutual

theorem exists_block_bytes (strip : Bool) (enclosing : Option String) (p : Prototype)
    (hp : ∀ q, p.Contains q → q.Writable) : ∃ bytes, block strip enclosing p = .ok bytes := by
  cases p with
  | mk source line lastLine numParams isVararg stackSize is constants upvalues children debug =>
    have hself := hp _ (.self _)
    obtain ⟨body, hbody⟩ := exists_code_bytes hself
    obtain ⟨nested, hnested⟩ :=
      exists_blocks_bytes strip source children fun c hc q hq ↦ hp q (.nested hc hq)
    have hdebug : (strip || debug.isEmpty) = true := by
      rw [show debug = {} from hself.debug]
      exact Bool.or_true strip
    rw [block_eq, hbody]
    simp only [hnested, hdebug]
    exact ⟨_, rfl⟩

theorem exists_blocks_bytes (strip : Bool) (enclosing : Option String) (ps : List Prototype)
    (hps : ∀ p ∈ ps, ∀ q, p.Contains q → q.Writable) :
    ∃ bytes, blocks strip enclosing ps = .ok bytes := by
  cases ps with
  | nil => exact ⟨[], rfl⟩
  | cons p ps =>
    obtain ⟨first, hfirst⟩ := exists_block_bytes strip enclosing p (hps p List.mem_cons_self)
    obtain ⟨rest, hrest⟩ := exists_blocks_bytes strip enclosing ps fun q hq ↦
      hps q (List.mem_cons_of_mem p hq)
    rw [blocks, hfirst, hrest]
    exact ⟨_, rfl⟩

end

theorem exists_write {p : Prototype} (strip : Bool) (hp : ∀ q, p.Contains q → q.Writable) :
    ∃ bytes, write strip p = .ok bytes := by
  obtain ⟨main, hmain⟩ := exists_block_bytes strip none p hp
  rw [write, hmain]
  exact ⟨_, rfl⟩

end Chunk

/-! ## Compiled programs -/

section Compiled

variable {types : TypeOracle} {options : Options} {body : List Stmt} {p q : Prototype}

theorem compileBody_packed {sizes : Nat → Prop}
    (hobjects : ∀ n ∈ statementsObjectSizes body, sizes n)
    (hp : compileBody types options body = .ok p) : p.Packed sizes := by
  have hmain := Session.atMain_main options.source
  have hempty : (Session.main options.source).current.Packed sizes :=
    ⟨nofun, .refl _, rfl, nofun⟩
  have hblock := Lower.accretive_block types body 0 hobjects _ hmain.regular (Nat.zero_le _)
  obtain ⟨t, hrun, hclose⟩ := compileBody_eq_ok_iff.mp hp
  obtain ⟨-, rfl⟩ := Session.close_eq_ok_iff.mp hclose
  obtain ⟨haccretes, -⟩ := hblock.result hrun
  exact (haccretes.packed hempty).close

theorem compileBody_writable (hobjects : ∀ n ∈ statementsObjectSizes body, n ≤ 2 ^ 32 - 16)
    (hp : compileBody types options body = .ok p) (hq : p.Contains q) (hlimits : q.WithinLimits) :
    q.Writable := by
  obtain ⟨hcode, -, hdebug⟩ := compileBody_packed hobjects hp q hq
  have hvalid : q.OperandsValid := (compileBody_closes closesTo_validWith.block hp).1 q hq
  obtain ⟨is, his, hblock⟩ := compileBody_closes closesBlock_blocksWithin hp q hq
  have hflow : q.FlowIntact := Prototype.flowIntact_of_flows his hblock.flows
  constructor
  · intro i hi
    exact (hcode i hi).fieldsFit hi hvalid hflow hlimits
  · exact hdebug

/-- A compiled program within the limits of the format is written, with or without source names: its
instructions are in the layout of their opcodes, their fields fit, and there are no debug tables. -/
theorem compiled_program_writes (types : TypeOracle) (options : Options) (body : List Stmt)
    (hobjects : ∀ n ∈ statementsObjectSizes body, n ≤ 2 ^ 32 - 16)
    (hlimits : ∀ p q, compileBody types options body = .ok p → p.Contains q → q.WithinLimits) :
    (∀ p, compileBody types options body = .ok p →
      (∀ q, p.Contains q →
        (∀ i ∈ q.code, i.family = i.opcode.family ∧ i.FieldsFit) ∧ q.debug = {}) ∧
      ∀ strip, ∃ bytes, Chunk.write strip p = .ok bytes) ∧
    ((∃ bytes, compile types options (.program body) = .ok bytes) ↔
      ∃ p, compileBody types options body = .ok p) := by
  have hwritable (p : Prototype) (hp : compileBody types options body = .ok p) (q : Prototype)
      (hq : p.Contains q) : q.Writable :=
    compileBody_writable hobjects hp hq (hlimits p q hp hq)
  constructor
  · intro p hp
    constructor
    · intro q hq
      exact ⟨(hwritable p hp q hq).code, (hwritable p hp q hq).debug⟩
    · intro strip
      exact Chunk.exists_write strip (hwritable p hp)
  · constructor
    · rintro ⟨bytes, hbytes⟩
      obtain ⟨p, hp, -⟩ := Instruction.except_bind_eq_ok hbytes
      exact ⟨p, hp⟩
    · rintro ⟨p, hp⟩
      obtain ⟨bytes, hbytes⟩ := Chunk.exists_write options.strip (hwritable p hp)
      rw [compile, hp]
      exact ⟨bytes, hbytes⟩

end Compiled

/-- `function wrap(a) { return a && { inner: wrap(a) }; }` and then
`let o = { first: wrap(wrap), "second": true };` -/
def nestedObjects : List Stmt :=
  [.function "wrap" ["a"]
    [.ret (some (.binary .and (.identifier "a")
      (.object [⟨.identifier "inner", .call (.identifier "wrap") [.identifier "a"]⟩])))],
   .declaration .let
    [⟨"o", some (.object [
      ⟨.identifier "first", .call (.identifier "wrap") [.identifier "wrap"]⟩,
      ⟨.literal (.string "second"), .literal (.boolean true)⟩])⟩]]

theorem compiled_program_writes_nestedObjects :
    statementsObjectSizes nestedObjects = [1, 2] ∧
    ∃ p q, compileBody (SyntaxOracle.oracle {}) {} nestedObjects = .ok p ∧ p.children = [q] ∧
      (p.WithinLimits ∧ ∀ i ∈ p.code, i.family = i.opcode.family ∧ i.FieldsFit) ∧
      (q.WithinLimits ∧ ∀ i ∈ q.code, i.family = i.opcode.family ∧ i.FieldsFit) ∧
      (∀ strip, ∃ bytes, Chunk.write strip p = .ok bytes) ∧
      ∃ bytes, compile (SyntaxOracle.oracle {}) {} (.program nestedObjects) = .ok bytes := by
  have hobjects : statementsObjectSizes nestedObjects = [1, 2] := by decide
  have hextent : (compileBody (SyntaxOracle.oracle {}) {} nestedObjects).toOption.map
      (fun p ↦ (p.code.size, p.constants.size,
        p.children.map fun c ↦ (c.code.size, c.constants.size, c.children.length))) =
      some (10, 3, [(10, 2, 0)]) := by decide +kernel
  cases hp : compileBody (SyntaxOracle.oracle {}) {} nestedObjects with
  | error e =>
    rw [hp] at hextent
    cases hextent
  | ok p =>
    rw [hp] at hextent
    obtain ⟨hcode, hconstants, hnested⟩ := by
      simpa only [Prod.mk.injEq] using Option.some.inj hextent
    obtain ⟨q, hchildren, hsizes⟩ := List.map_eq_singleton_iff.mp hnested
    obtain ⟨hcode', hconstants', hchildren'⟩ := by simpa only [Prod.mk.injEq] using hsizes
    have hmain : p.WithinLimits := by
      constructor
      · omega
      · rw [hchildren, List.length_singleton]
        decide
      · omega
    have hinner : q.WithinLimits := ⟨by omega, by omega, by omega⟩
    have hwithin : ∀ r, p.Contains r → r.WithinLimits := by
      apply Prototype.forall_contains hmain
      rw [hchildren, List.forall_mem_singleton]
      apply Prototype.forall_contains hinner
      rw [List.length_eq_zero_iff.mp hchildren']
      exact List.forall_mem_nil _
    have hq : p.Contains q := .nested (by rw [hchildren]; exact List.mem_singleton_self q) (.self q)
    obtain ⟨hwrites, hiff⟩ := compiled_program_writes (SyntaxOracle.oracle {}) {} nestedObjects
      (by rw [hobjects]; decide) fun p' r hp' hr ↦ by
        cases hp.symm.trans hp'
        exact hwithin r hr
    obtain ⟨hpacked, hbytes⟩ := hwrites p hp
    exact ⟨hobjects, p, q, rfl, hchildren, ⟨hmain, (hpacked p (.self p)).1⟩,
      ⟨hinner, (hpacked q hq).1⟩, hbytes, hiff.mpr ⟨p, hp⟩⟩

end LuaLower
