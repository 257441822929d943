import LuaLower.Proofs.Lowering.Origins
import LuaLower.Proofs.Lowering.Reachability
import LuaLower.Proofs.Writability

/-!
# Stripped chunks

There are two reasons to leave a source name out of a block: the chunk is stripped, or the function
around has the same name. A stripped chunk is that of the prototype from which all source names and
debug tables were taken away. In a compiled program all functions have one source name, so that a
chunk that is not stripped differs from the stripped one in the block of the main function alone.
-/

namespace LuaLower

namespace Prototype

mutual

/-- A prototype without its source name and its debug tables, at every depth. -/
def erased : Prototype → Prototype
  | ⟨_, line, lastLine, numParams, isVararg, stackSize, code, constants, upvalues, children, _⟩ =>
    ⟨none, line, lastLine, numParams, isVararg, stackSize, code, constants, upvalues,
      erasedAll children, {}⟩

def erasedAll : List Prototype → List Prototype
  | [] => []
  | p :: ps => p.erased :: erasedAll ps

end

theorem erasedAll_eq_map (ps : List Prototype) : erasedAll ps = ps.map erased := by
  induction ps with
  | nil => rfl
  | cons p ps ih => rw [erasedAll, ih, List.map_cons]

theorem erased_eq (p : Prototype) :
    p.erased = { p with source := none, children := p.children.map erased, debug := {} } := by
  rw [← erasedAll_eq_map]
  cases p
  rfl

/-- Nothing that would be stripped is left anywhere. -/
theorem bare_of_contains_erased {p q : Prototype} (h : p.erased.Contains q) :
    q.source = none ∧ q.debug = {} := by
  induction p using induction_on_children generalizing q with
  | h p ih =>
    rw [erased_eq] at h
    cases h with
    | self => exact ⟨rfl, rfl⟩
    | nested hc hq =>
      obtain ⟨c, hmem, rfl⟩ := List.mem_map.mp hc
      exact ih c hmem hq

end Prototype

/-! ## Blocks behind their source names -/

namespace Chunk

open Prototype

variable {strip strip' : Bool} {enclosing enclosing' : Option String} {name : String}
  {bytes : List UInt8} {p q c : Prototype}

/-- What follows the source name in the block of a function. -/
def afterSource (strip : Bool) (p : Prototype) : Except Failure (List UInt8) := do
  let body ← code p.code
  let nested ← blocks strip p.source p.children
  if strip || p.debug.isEmpty then
    return int p.line ++ int p.lastLine ++ [p.numParams, flag p.isVararg, max p.stackSize 2]
      ++ body
      ++ count p.constants.size ++ p.constants.toList.flatMap constant
      ++ count p.upvalues.length ++ p.upvalues.flatMap upvalue
      ++ count p.children.length ++ nested
      ++ emptyDebug
  else
    throw (.unimplemented .debugInfo)

theorem block_eq_afterSource (strip : Bool) (enclosing : Option String) (p : Prototype) :
    block strip enclosing p = (do
      let rest ← afterSource strip p
      return sourceName strip enclosing p.source ++ rest) := by
  rw [block_eq, afterSource, bind_assoc]
  congr 1
  funext body
  rw [bind_assoc]
  congr 1
  funext nested
  split
  · simp only [List.append_assoc, pure_bind]
  · rfl

theorem blocks_map {f : Prototype → Prototype} {ps : List Prototype}
    (h : ∀ p ∈ ps, block strip enclosing p = block strip' enclosing' (f p)) :
    blocks strip enclosing ps = blocks strip' enclosing' (ps.map f) := by
  induction ps with
  | nil => rfl
  | cons p ps ih =>
    obtain ⟨hp, hps⟩ := List.forall_mem_cons.mp h
    rw [blocks, List.map_cons, blocks, hp, ih hps]

/-! ## Erased prototypes -/

/-- A stripped block is that of the erased prototype, whatever stands around it. -/
theorem block_erased (enclosing : Option String) (p : Prototype) :
    block true enclosing p = block false none p.erased := by
  induction p using induction_on_children generalizing enclosing with
  | h p ih =>
    have hnested : blocks true p.source p.children = blocks false none (p.children.map erased) :=
      blocks_map fun c hc ↦ ih c hc p.source
    rw [block_eq, block_eq, hnested, erased_eq, List.length_map]
    rfl

theorem write_erased (p : Prototype) : write true p = write false p.erased := by
  rw [write, write, block_erased, erased_eq]

/-! ## Prototypes of one source -/

theorem sourceName_same (strip : Bool) (name : String) :
    sourceName strip (some name) (some name) = string none := by
  simp [sourceName]

/-- A function with the source name of the one around it has no name in its block. -/
theorem absent_name_of_block (hsource : p.source = some name)
    (h : block strip (some name) p = .ok bytes) : ∃ rest, bytes = string none ++ rest := by
  rw [block_eq_afterSource, hsource, sourceName_same] at h
  obtain ⟨rest, -, ⟨⟩⟩ := Instruction.except_bind_eq_ok h
  exact ⟨rest, rfl⟩

/-- If all functions have one source name, only the block of the outermost one can hold it. -/
theorem afterSource_of_named (h : ∀ q, p.Contains q → q.source = some name ∧ q.debug = {}) :
    afterSource false p = afterSource true p := by
  induction p using induction_on_children with
  | h p ih =>
    obtain ⟨hsource, hdebug⟩ := h p (.self p)
    have hnested : blocks false p.source p.children = blocks true p.source p.children := by
      rw [blocks_map (f := id), List.map_id]
      intro c hc
      have hnamed (q : Prototype) (hq : c.Contains q) := h q (.nested hc hq)
      rw [id_eq, block_eq_afterSource, block_eq_afterSource, ih c hc hnamed, hsource,
        (hnamed c (.self c)).1, sourceName_same, sourceName_same]
    rw [afterSource, afterSource, hnested, hdebug]
    rfl

theorem exists_block_of_mem {ps : List Prototype} (h : blocks strip enclosing ps = .ok bytes)
    (hp : p ∈ ps) : ∃ own, block strip enclosing p = .ok own ∧ own <:+: bytes := by
  induction ps generalizing bytes with
  | nil => exact absurd hp List.not_mem_nil
  | cons first ps ih =>
    obtain ⟨start, hfirst, h⟩ := Instruction.except_bind_eq_ok h
    obtain ⟨rest, hrest, h⟩ := Instruction.except_bind_eq_ok h
    cases h
    obtain rfl | hp := List.mem_cons.mp hp
    · exact ⟨start, hfirst, (List.prefix_append _ _).isInfix⟩
    · obtain ⟨own, hown, hinfix⟩ := ih hrest hp
      exact ⟨own, hown, hinfix.trans (List.suffix_append _ _).isInfix⟩

/-- The blocks of the functions nested in one stand in the block of that one. -/
theorem exists_block_of_child (h : afterSource strip p = .ok bytes) (hc : c ∈ p.children) :
    ∃ own, block strip p.source c = .ok own ∧ own <:+: bytes := by
  obtain ⟨body, -, h⟩ := Instruction.except_bind_eq_ok h
  obtain ⟨nested, hnested, h⟩ := Instruction.except_bind_eq_ok h
  obtain ⟨own, hown, hinfix⟩ := exists_block_of_mem hnested hc
  refine ⟨own, hown, hinfix.trans ?_⟩
  split at h
  · cases h
    exact List.infix_append _ _ _
  · cases h

theorem exists_block_of_contains (h : afterSource strip p = .ok bytes) (hc : c ∈ p.children)
    (hq : c.Contains q) :
    ∃ parent own, p.Contains parent ∧ block strip parent.source q = .ok own ∧ own <:+: bytes := by
  induction hq generalizing p bytes with
  | self c =>
    obtain ⟨own, hown, hinfix⟩ := exists_block_of_child h hc
    exact ⟨p, own, .self p, hown, hinfix⟩
  | nested hd _ ih =>
    obtain ⟨own, hown, hinfix⟩ := exists_block_of_child h hc
    rw [block_eq_afterSource] at hown
    obtain ⟨rest, hrest, ⟨⟩⟩ := Instruction.except_bind_eq_ok hown
    obtain ⟨parent, inner, hparent, hinner, hinfix'⟩ := ih hrest hd
    exact ⟨parent, inner, .nested hc hparent, hinner,
      (hinfix'.trans (List.suffix_append _ _).isInfix).trans hinfix⟩

end Chunk

/-! ## Compiled programs -/

/-- All functions of a compiled program have its source name, and none has debug tables. -/
theorem compileBody_named {types : TypeOracle} {options : Options} {program : List Stmt}
    {p q : Prototype} (hp : compileBody types options program = .ok p) (hq : p.Contains q) :
    q.source = options.source ∧ q.debug = {} := by
  constructor
  · obtain ⟨body, s, t, ⟨params, hbody⟩, hlowered, rfl⟩ := exists_completes_of_contains hp hq
    have hs := hbody.encounters.reachable.regular
    have haccretes := (Task.statements body).accretes types 0 (sound_statements body) s hs
      (Nat.zero_le _)
    exact (haccretes.result hlowered).1.source.trans hbody.encounters.source_eq
  · exact (compileBody_packed (fun _ _ ↦ trivial : ∀ n ∈ _, (fun _ ↦ True) n) hp q hq).2.2

open Chunk in
/-- A stripped chunk is the chunk of the erased prototype, and fails as that one does. In compiled
programs it differs from the whole chunk in the name of the main function only. -/
theorem stripping_is_erasure :
    (∀ p : Prototype, (∀ q, p.erased.Contains q → q.source = none ∧ q.debug = {}) ∧
      write true p = write false p.erased) ∧
    ∀ (types : TypeOracle) (options : Options) (program : List Stmt) (name : String)
      (chunk : List UInt8), options.strip = false → options.source = some name →
      compile types options (.program program) = .ok chunk →
      ∃ p rest, compileBody types options program = .ok p ∧
        chunk =
          header ++ UInt8.ofNat p.upvalues.length :: (string (some (utf8 name)) ++ rest) ∧
        compile types { options with strip := true } (.program program) =
          .ok (header ++ UInt8.ofNat p.upvalues.length :: (string none ++ rest)) ∧
        ∀ c ∈ p.children, ∀ q, c.Contains q → ∃ own,
          block false (some name) q = .ok (string none ++ own) ∧ string none ++ own <:+: rest := by
  refine ⟨fun p ↦ ⟨fun q hq ↦ Prototype.bare_of_contains_erased hq, write_erased p⟩, ?_⟩
  intro types options program name chunk hstrip hname hcompile
  obtain ⟨p, hp, hwrite⟩ := Instruction.except_bind_eq_ok hcompile
  have hnamed (q : Prototype) (hq : p.Contains q) : q.source = some name ∧ q.debug = {} :=
    hname ▸ compileBody_named hp hq
  have hsource := (hnamed p (.self p)).1
  obtain ⟨main, hmain, ⟨⟩⟩ := Instruction.except_bind_eq_ok hwrite
  rw [hstrip, block_eq_afterSource] at hmain
  obtain ⟨rest, hrest, hmain⟩ := Instruction.except_bind_eq_ok hmain
  refine ⟨p, rest, hp, ?_, ?_, ?_⟩
  · cases hmain
    rw [hsource]
    rfl
  · have hstripped : compileBody types { options with strip := true } program = .ok p := hp
    have hblock : block true none p = .ok (string none ++ rest) := by
      rw [block_eq_afterSource, ← afterSource_of_named hnamed, hrest]
      rfl
    have hwrite : write true p =
        .ok (header ++ UInt8.ofNat p.upvalues.length :: (string none ++ rest)) := by
      rw [write, hblock]
      rfl
    rw [compile, hstripped]
    exact hwrite
  · intro c hc q hq
    obtain ⟨parent, own, hparent, hown, hinfix⟩ := exists_block_of_contains hrest hc hq
    rw [(hnamed parent hparent).1] at hown
    obtain ⟨after, rfl⟩ := absent_name_of_block (hnamed q (.nested hc hq)).1 hown
    exact ⟨after, hown, hinfix⟩

/-- `let n = 1; function outer(a) { function inner() { return a + n; } }` -/
def twoLevels : List Stmt :=
  [.declaration .let [⟨"n", some (.literal (.number .one))⟩],
   .function "outer" ["a"]
    [.function "inner" [] [.ret (some (.binary .add (.identifier "a") (.identifier "n")))]]]

open Chunk in
theorem stripping_is_erasure_twoLevels :
    ∃ chunk, compile (SyntaxOracle.oracle {}) ⟨some "@main.ts", false⟩ (.program twoLevels) =
        .ok chunk ∧
      ∃ p outer inner rest,
        compileBody (SyntaxOracle.oracle {}) ⟨some "@main.ts", false⟩ twoLevels = .ok p ∧
        p.children = [outer] ∧ outer.children = [inner] ∧
        chunk = header ++ UInt8.ofNat p.upvalues.length ::
          (string (some (utf8 "@main.ts")) ++ rest) ∧
        (∃ own, block false (some "@main.ts") outer = .ok (string none ++ own) ∧
          string none ++ own <:+: rest) ∧
        ∃ own, block false (some "@main.ts") inner = .ok (string none ++ own) ∧
          string none ++ own <:+: rest := by
  obtain ⟨chunk, hchunk⟩ : ∃ chunk,
      compile (SyntaxOracle.oracle {}) ⟨some "@main.ts", false⟩ (.program twoLevels) = .ok chunk :=
    exists_ok_of_isOk (by decide +kernel)
  obtain ⟨p, rest, hp, hmain, -, hnested⟩ :=
    stripping_is_erasure.2 _ _ twoLevels "@main.ts" chunk rfl rfl hchunk
  have hshape :
      (compileBody (SyntaxOracle.oracle {}) ⟨some "@main.ts", false⟩ twoLevels).toOption.map
        (fun p ↦ p.children.map fun c ↦ c.children.map fun d ↦ d.children.length) =
          some [[0]] := by
    decide +kernel
  obtain ⟨p', hp', hchildren⟩ := exists_ok_of_toOption hshape
  obtain rfl : p = p' := Except.ok.inj (hp.symm.trans hp')
  obtain ⟨outer, houter, hchildren⟩ := List.map_eq_singleton_iff.mp hchildren
  obtain ⟨inner, hinner, -⟩ := List.map_eq_singleton_iff.mp hchildren
  have hmem : outer ∈ p.children := houter ▸ List.mem_singleton_self outer
  have hmem' : inner ∈ outer.children := hinner ▸ List.mem_singleton_self inner
  exact ⟨chunk, hchunk, p, outer, inner, rest, hp, houter, hinner, hmain,
    hnested outer hmem outer (.self outer), hnested outer hmem inner (.nested hmem' (.self inner))⟩

end LuaLower
