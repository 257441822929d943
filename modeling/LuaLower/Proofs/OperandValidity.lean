import LuaLower.Compile
import LuaLower.Proofs.Lowering.Body
import LuaLower.Proofs.Prototype.Nesting

/-!
# Operands of compiled prototypes

Everything that an instruction of a compiled prototype names is there, and the stack size is no
larger than what the instructions and the parameters need. Along the growth of a function the mark
of the highest register is kept equal to that size, and closures are made of the children in order.
-/

namespace LuaLower

/-- What a loader may rely on about the operands of a prototype's instructions. -/
structure Prototype.OperandsValid (p : Prototype) : Prop where
  registers : ∀ i ∈ p.code, ∀ r ∈ i.registers, r < p.stackSize.toNat
  stackSize : p.stackSize.toNat =
    max 2 (max p.numParams.toNat (Instruction.frame p.code.toList))
  constants : ∀ i ∈ p.code, ∀ k ∈ i.constants, k < p.constants.size
  upvalues : ∀ i ∈ p.code, ∀ u ∈ i.upvalues, u < p.upvalues.length
  /-- Each child is named once, and the children are named in order. -/
  closures : p.code.toList.flatMap Instruction.closures = List.range p.children.length

/-- The registers, constants and upvalues that an instruction names are there. -/
structure Instruction.InRange (i : Instruction) (f : OpenFunction) : Prop where
  registers : ∀ r ∈ i.registers, r < f.registers.high
  constants : ∀ k ∈ i.constants, k < f.proto.constants.size
  upvalues : ∀ u ∈ i.upvalues, u < f.proto.upvalues.length

theorem Instruction.Fits.inRange {i : Instruction} {f : OpenFunction} (h : i.Fits f) :
    i.InRange f :=
  ⟨h.registers, h.constants, h.upvalues⟩

namespace OpenFunction

variable {Nested : ParamTree → Prototype → Prop} {b n : Nat} {f g : OpenFunction}
  {ts us : List ParamTree} {is : List Instruction}

/-- The operands of a function with `n` parameters that is still open. -/
structure Sound (Nested : ParamTree → Prototype → Prop) (n : Nat) (ts : List ParamTree)
    (f : OpenFunction) : Prop where
  numParams : f.proto.numParams.toNat = n
  params_le : n ≤ f.registers.high
  high_le : f.registers.high ≤ max n (Instruction.frame f.proto.code.toList)
  inRange : ∀ i ∈ f.proto.code.toList, i.InRange f
  closures : f.proto.code.toList.flatMap Instruction.closures =
    List.range f.proto.children.length
  children : List.Forall₂ Nested ts f.proto.children

theorem Fresh.sound (hf : Fresh n f) : f.Sound Nested n [] where
  numParams := hf.numParams
  params_le := hf.high.ge
  high_le := hf.high.trans_le (le_max_left _ _)
  inRange := by simp [hf.code]
  closures := by simp [hf.code, hf.children]
  children := by
    rw [hf.children]
    exact .nil

theorem toList_code_emit (f : OpenFunction) (is : List Instruction) :
    (f.emit is).proto.code.toList = f.proto.code.toList ++ is := by
  simp [emit]

namespace Sound

/-- What is added may name whatever is there by then, and registers taken for it are named by it. -/
theorem extend (hf : f.Sound Nested n ts) (hcode : g.proto.code = f.proto.code)
    (hparams : g.proto.numParams = f.proto.numParams) (hhigh : f.registers.high ≤ g.registers.high)
    (hframe : g.registers.high ≤ max f.registers.high (Instruction.frame is))
    (hconstants : f.proto.constants.size ≤ g.proto.constants.size)
    (hupvalues : f.proto.upvalues.length ≤ g.proto.upvalues.length)
    (his : ∀ i ∈ is, i.InRange g)
    (hclosures : List.range f.proto.children.length ++ is.flatMap Instruction.closures =
      List.range g.proto.children.length)
    (hchildren : List.Forall₂ Nested us g.proto.children) : (g.emit is).Sound Nested n us := by
  have hlist : (g.emit is).proto.code.toList = f.proto.code.toList ++ is := by
    rw [toList_code_emit, hcode]
  refine ⟨?_, hf.params_le.trans hhigh, ?_, ?_, ?_, hchildren⟩
  · exact (congrArg UInt8.toNat hparams).trans hf.numParams
  · have hle := hf.high_le
    have hgle : (g.emit is).registers.high ≤ max f.registers.high (Instruction.frame is) := hframe
    rw [hlist, Instruction.frame_append]
    omega
  · intro i hi
    rw [hlist, List.mem_append] at hi
    rcases hi with hi | hi
    · obtain ⟨hregisters, hks, hus⟩ := hf.inRange i hi
      exact ⟨fun r hr ↦ (hregisters r hr).trans_le hhigh,
        fun k hk ↦ (hks k hk).trans_le hconstants, fun u hu ↦ (hus u hu).trans_le hupvalues⟩
    · obtain ⟨hregisters, hks, hus⟩ := his i hi
      exact ⟨hregisters, hks, hus⟩
  · rw [hlist, List.flatMap_append, hf.closures]
    exact hclosures

/-- Nothing is added to the code, the mark of the highest register or the children. -/
theorem change (hf : f.Sound Nested n ts) (hcode : g.proto.code = f.proto.code)
    (hparams : g.proto.numParams = f.proto.numParams) (hhigh : g.registers.high = f.registers.high)
    (hconstants : f.proto.constants.size ≤ g.proto.constants.size)
    (hupvalues : f.proto.upvalues.length ≤ g.proto.upvalues.length)
    (hchildren : g.proto.children = f.proto.children) : g.Sound Nested n ts := by
  have h : (g.emit []).Sound Nested n ts :=
    hf.extend hcode hparams hhigh.ge (by simp [hhigh]) hconstants hupvalues
    (by simp) (by simp [hchildren]) (hchildren ▸ hf.children)
  rwa [emit_nil] at h

theorem emit (hf : f.Sound Nested n ts) (his : ∀ i ∈ is, i.Fits f) :
    (f.emit is).Sound Nested n ts := by
  refine hf.extend rfl rfl (le_refl _) (le_max_left _ _) (le_refl _) (le_refl _)
    (fun i hi ↦ (his i hi).inRange) ?_ hf.children
  have hnone : is.flatMap Instruction.closures = [] := by
    simpa using fun i hi ↦ (his i hi).closures
  rw [hnone, List.append_nil]

theorem take (hf : f.Sound Nested n ts) (his : ∀ i ∈ is, i.Fits f.taken)
    (hnamed : f.registers.next < f.registers.high ∨ ∃ i ∈ is, f.registers.next ∈ i.registers) :
    (f.taken.emit is).Sound Nested n ts := by
  refine hf.extend rfl rfl (le_max_left _ _) ?_ (le_refl _) (le_refl _)
    (fun i hi ↦ (his i hi).inRange) ?_ hf.children
  · refine max_le (le_max_left _ _) ?_
    rcases hnamed with hlt | ⟨i, hi, hnext⟩
    · exact hlt.trans_le (le_max_left _ _)
    · exact (Instruction.lt_frame hi hnext).trans_le (le_max_right _ _)
  · have hnone : is.flatMap Instruction.closures = [] := by
      simpa using fun i hi ↦ (his i hi).closures
    rw [hnone, List.append_nil]
    rfl

theorem closure {t : ParamTree} {p : Prototype} (hf : f.Sound Nested n ts) (hp : Nested t p) :
    ((f.adopting p).taken.emit
      [.abx .closure f.registers.next f.proto.children.length]).Sound Nested n (ts ++ [t]) := by
  have hframe : Instruction.frame [.abx .closure f.registers.next f.proto.children.length] =
      f.registers.next + 1 := rfl
  refine hf.extend rfl rfl (le_max_left _ _) (by rw [hframe]; rfl) (le_refl _) (le_refl _) ?_ ?_ ?_
  · simp only [List.forall_mem_singleton]
    refine ⟨List.forall_mem_singleton.mpr ?_, List.forall_mem_nil _, List.forall_mem_nil _⟩
    simp [taken, adopting]
  · simp [adopting, taken, Instruction.closures, List.range_succ]
  · exact List.rel_append hf.children (.cons hp .nil)

theorem flatMap_set {α β : Type} {l : List α} {j : Nat} {a b : α} {φ : α → List β}
    (ha : l[j]? = some a) (hb : φ b = φ a) : (l.set j b).flatMap φ = l.flatMap φ := by
  obtain ⟨hj, rfl⟩ := List.getElem?_eq_some_iff.mp ha
  have hmap : (l.set j b).map φ = l.map φ := by
    rw [List.map_set, hb, ← List.getElem_map φ (h := by simpa using hj), List.set_getElem_self]
  rw [List.flatMap, hmap, List.flatMap]

/-- A jump names nothing, wherever it leads. -/
theorem land {jump : Nat} (hf : f.Sound Nested n ts)
    (hcode : f.proto.code[jump]? = some (.asbx .jmp 0 0)) : (f.landing jump).Sound Nested n ts := by
  have hlist : (f.landing jump).proto.code.toList = f.proto.code.toList.set jump
      (.asbx .jmp 0 (f.proto.code.size - jump - 1)) := by
    simp [landing]
  have hjump : f.proto.code.toList[jump]? = some (.asbx .jmp 0 0) := by
    rw [Array.getElem?_toList]
    exact hcode
  have hregisters := flatMap_set (φ := Instruction.registers) hjump
    (b := .asbx .jmp 0 (f.proto.code.size - jump - 1)) rfl
  have hclosures := flatMap_set (φ := Instruction.closures) hjump
    (b := .asbx .jmp 0 (f.proto.code.size - jump - 1)) rfl
  refine ⟨hf.numParams, hf.params_le, ?_, ?_, ?_, hf.children⟩
  · rw [hlist, Instruction.frame, hregisters]
    exact hf.high_le
  · intro i hi
    rw [hlist] at hi
    rcases List.mem_or_eq_of_mem_set hi with hi | rfl
    · obtain ⟨hregisters, hks, hus⟩ := hf.inRange i hi
      exact ⟨hregisters, hks, hus⟩
    · exact ⟨List.forall_mem_nil _, List.forall_mem_nil _, List.forall_mem_nil _⟩
  · rw [hlist, hclosures]
    exact hf.closures

end Sound

theorem Grows.sound (hfg : Grows Nested b f ts g) (hf : f.Sound Nested n us) :
    g.Sound Nested n (us ++ ts) := by
  induction hfg generalizing us with
  | refl f => simpa using hf
  | trans _ _ ihfg ihgh =>
    rw [← List.append_assoc]
    exact ihgh (ihfg hf)
  | intern f k =>
    rw [List.append_nil]
    exact hf.change rfl rfl rfl (f.proto.constants.prefix_toList_insert k).length_le (le_refl _) rfl
  | capture f vs =>
    rw [List.append_nil]
    exact hf.change rfl rfl rfl (le_refl _) (List.prefix_append f.proto.upvalues vs).length_le rfl
  | lower f _ _ =>
    rw [List.append_nil]
    exact hf.change rfl rfl rfl (le_refl _) (le_refl _) rfl
  | emit f his =>
    rw [List.append_nil]
    exact hf.emit his
  | take f _ his hnamed =>
    rw [List.append_nil]
    exact hf.take his hnamed
  | land f _ hcode =>
    rw [List.append_nil]
    exact hf.land hcode
  | bind f _ _ _ =>
    rw [List.append_nil]
    exact hf.change rfl rfl rfl (le_refl _) (le_refl _) rfl
  | closure f hp _ => exact hf.closure hp

/-- Closing a function fixes its stack size at the mark of the highest register. -/
theorem Sound.close (hf : f.Sound Nested n ts) (htidy : f.registers.Tidy) :
    f.close.OperandsValid := by
  have hlimit := htidy.high_le
  rw [Registers.limit] at hlimit
  have hsize : f.close.stackSize.toNat = max f.registers.high 2 :=
    UInt8.toNat_ofNat_of_lt (show max f.registers.high 2 < 256 by omega)
  have hcode : f.close.code.toList = f.proto.code.toList ++ [.abc .ret 0 1 0] := by
    simp [OpenFunction.close]
  have hret : (Instruction.abc .ret 0 1 0).InRange f :=
    ⟨List.forall_mem_nil _, List.forall_mem_nil _, List.forall_mem_nil _⟩
  have hrange : ∀ i ∈ f.close.code, i.InRange f := by
    intro i hi
    rw [← Array.mem_toList_iff, hcode, List.mem_append, List.mem_singleton] at hi
    rcases hi with hi | rfl
    · exact hf.inRange i hi
    · exact hret
  have hframe : Instruction.frame f.close.code.toList =
      Instruction.frame f.proto.code.toList := by
    rw [hcode, Instruction.frame_append]
    exact Nat.max_eq_left (Nat.zero_le _)
  have hframe_le : Instruction.frame f.proto.code.toList ≤ f.registers.high :=
    Instruction.frame_le_iff.mpr fun i hi ↦ (hf.inRange i hi).registers
  have hnumParams : f.close.numParams.toNat = n := hf.numParams
  refine ⟨?_, ?_, fun i hi ↦ (hrange i hi).constants, fun i hi ↦ (hrange i hi).upvalues, ?_⟩
  · intro i hi r hr
    have hlt := (hrange i hi).registers r hr
    omega
  · have hparams := hf.params_le
    have hhigh := hf.high_le
    rw [hsize, hframe, hnumParams]
    omega
  · rw [hcode, List.flatMap_append, hf.closures]
    exact List.append_nil _

end OpenFunction

/-- A valid prototype whose tree of parameter counts is known. -/
def ValidWith (t : ParamTree) (p : Prototype) : Prop :=
  (∀ q, p.Contains q → q.OperandsValid) ∧ p.paramTree = t

theorem forall₂_validWith {ts : List ParamTree} {ps : List Prototype}
    (h : List.Forall₂ ValidWith ts ps) :
    (∀ p ∈ ps, ∀ q, p.Contains q → q.OperandsValid) ∧ Prototype.paramTrees ps = ts := by
  induction h with
  | nil => exact ⟨by simp, rfl⟩
  | cons hp _ ih =>
    obtain ⟨hvalid, htrees⟩ := ih
    exact ⟨List.forall_mem_cons.mpr ⟨hp.1, hvalid⟩, by rw [Prototype.paramTrees, hp.2, htrees]⟩

theorem closesTo_validWith : ClosesTo ValidWith := by
  intro n f ts g hfresh hgrows
  have hsound : g.Sound ValidWith n ts := hgrows.sound hfresh.sound
  obtain ⟨hchildren, htrees⟩ := forall₂_validWith hsound.children
  refine ⟨Prototype.forall_contains (hsound.close (hgrows.tidy hfresh.tidy)) hchildren, ?_⟩
  rw [Prototype.paramTree_eq]
  exact congrArg₂ ParamTree.node hsound.numParams htrees

/-- In every prototype of a compiled program all operands are valid, the stack is exactly as large
as needed, and the parameters are those of the function in the source. -/
theorem compileBody_operands_valid (types : TypeOracle) (options : Options) (body : List Stmt)
    (p : Prototype) (hp : compileBody types options body = .ok p) :
    (∀ q, p.Contains q → q.OperandsValid) ∧
      p.paramTree = .node 0 (statementsParamTrees body) := by
  have hready : (Session.main options.source).Ready := ⟨rfl, Registers.tidy_empty⟩
  have hbody := advances_body (b := 0) (s := Session.main options.source)
    (advances_statements types closesTo_validWith body) hready rfl (Nat.zero_le _)
  cases hrun : Lower.block types body (Session.main options.source) with
  | error e s =>
    rw [compileBody, hrun] at hp
    cases hp
  | ok _ s =>
    obtain ⟨hgrows, _⟩ := hbody.result hrun
    have henclosing : s.enclosing = [] := List.forall₂_nil_left_iff.mp hgrows.enclosing
    obtain rfl : s.current.close = p := by
      simpa [compileBody, hrun, Session.close, henclosing] using hp
    exact closesTo_validWith 0 _ _ _ (fresh_main options.source) hgrows.current

/-- `function add(a, b) { return a + b["x"]; } let y = add(true, add());` -/
def nestedAddition : List Stmt :=
  [.function "add" ["a", "b"]
    [.ret (some (.binary .add (.identifier "a")
      (.index (.identifier "b") (.literal (.string "x")))))],
   .declaration .let
    [⟨"y", some (.call (.identifier "add")
      [.literal (.boolean true), .call (.identifier "add") []])⟩]]

theorem compileBody_operands_valid_nestedAddition :
    ∃ p, compileBody (SyntaxOracle.oracle {}) {} nestedAddition = .ok p ∧
      (∀ q, p.Contains q → q.OperandsValid) ∧ p.paramTree = .node 0 [.node 2 []] := by
  have hok : (compileBody (SyntaxOracle.oracle {}) {} nestedAddition).isOk = true := by
    decide +kernel
  cases hp : compileBody (SyntaxOracle.oracle {}) {} nestedAddition with
  | error e =>
    rw [hp] at hok
    cases hok
  | ok p => exact ⟨p, rfl, compileBody_operands_valid _ _ _ p hp⟩

end LuaLower
