import LuaLower.Proofs.OperandValidity
import LuaLower.Proofs.Semantics.Effects

/-!
# Control flow in compiled prototypes

The code of a compiled prototype is a block followed by a return. So tests and jumps, and the other
idioms of several instructions, are complete, nothing jumps into the middle of one, and control
moves forward until it returns.
-/

namespace LuaLower

/-! ## The code of a closed function -/

/-- A block and the return that closes it. -/
def closing (is : List Instruction) : List Instruction := is ++ [.abc .ret 0 1 0]

variable {is : List Instruction} {pc k : Nat} {i last : Instruction}

theorem length_closing (is : List Instruction) : (closing is).length = is.length + 1 :=
  List.length_append

theorem getElem?_closing (h : is[pc]? = some i) : (closing is)[pc]? = some i := by
  rw [closing, List.getElem?_append_left (List.getElem?_eq_some_iff.mp h).1]
  exact h

theorem getElem?_of_closing (h : (closing is)[pc]? = some i) :
    is[pc]? = some i ∨ i = .abc .ret 0 1 0 := by
  rw [closing, List.getElem?_append] at h
  split at h
  · exact .inl h
  · rw [List.getElem?_singleton] at h
    split at h <;> cases h
    exact .inr rfl

theorem flows_closing (h : Flows is) : Flows (closing is) := by
  have hreturn : Block (fun _ ↦ True) false [.abc .ret 0 1 0] := .plain rfl nofun
  exact h.append hreturn.flows

/-- Behind every instruction of the block stands another one. -/
theorem exists_behind (hlast : is[k]? = some last) : ∃ i, (closing is)[k + 1]? = some i := by
  have hk : k < is.length := (List.getElem?_eq_some_iff.mp hlast).1
  have hlength := length_closing is
  exact ⟨_, List.getElem?_eq_getElem (by omega)⟩

theorem exists_entry (hflows : Flows is) (hlast : is[k]? = some last) (hends : ¬ last.LeadsOn) :
    ∃ i, (closing is)[k + 1]? = some i ∧ i.IsEntry := by
  obtain ⟨i, hi⟩ := exists_behind hlast
  refine ⟨i, hi, (flows_closing hflows _ _ hi).isEntry ?_⟩
  rintro _ before ⟨⟩ hbefore
  rw [getElem?_closing hlast] at hbefore
  cases hbefore
  exact hends

theorem Ahead.exists_instruction {target : Int} (hflows : Flows is) (h : Ahead is pc target) :
    ∃ (next : Nat) (i : Instruction), target = next ∧ pc < next ∧ (closing is)[next]? = some i ∧
      i.opcode ≠ .extraArg := by
  obtain ⟨k, last, rfl, hk, hlast, hload⟩ := h
  obtain ⟨i, hi⟩ := exists_behind hlast
  refine ⟨k + 1, i, rfl, Nat.lt_succ_of_le hk, hi, fun hextra ↦ ?_⟩
  obtain ⟨_, dst, ⟨⟩, hbefore⟩ := (flows_closing hflows _ _ hi).exists_loadKX hextra
  rw [getElem?_closing hlast] at hbefore
  cases hbefore
  exact hload rfl

theorem successors_closing (hflows : Flows is) (hi : (closing is)[pc]? = some i)
    (hextra : i.opcode ≠ .extraArg) :
    i.opcode = .ret ∧ i.successors pc = [] ∨
      i.opcode ≠ .ret ∧ i.successors pc ≠ [] ∧ ∀ target ∈ i.successors pc, Ahead is pc target := by
  rcases getElem?_of_closing hi with hi | rfl
  · exact (hflows pc i hi).successors hi hextra
  · exact .inl ⟨rfl, rfl⟩

/-! ## Prototypes -/

namespace Prototype

/-- Control may jump to the instruction at a position. -/
def LandsAt (p : Prototype) (target : Nat) : Prop := ∃ i, p.code[target]? = some i ∧ i.IsEntry

/-- No idiom of several instructions is broken up or entered in its middle. -/
structure FlowIntact (p : Prototype) : Prop where
  test : ∀ pc i, p.code[pc]? = some i → i.isTest = true →
    (∃ offset, p.code[pc + 1]? = some (.asbx .jmp 0 offset)) ∧ p.LandsAt (pc + 2)
  jump : ∀ pc i, p.code[pc]? = some i → i.opcode = .jmp →
    (∃ k test, pc = k + 1 ∧ p.code[k]? = some test ∧ test.isTest = true) ∧
      ∃ offset : Nat, i = .asbx .jmp 0 offset ∧ 1 ≤ offset ∧ p.LandsAt (pc + 1 + offset)
  loadBool : ∀ pc i, p.code[pc]? = some i → i.opcode = .loadBool →
    ∃ dst b c, i = .abc .loadBool dst b c ∧ (c = 0 ∨ c = 1 ∧
      (∃ second, p.code[pc + 1]? = some (.abc .loadBool dst second 0)) ∧ p.LandsAt (pc + 2))
  loadKX : ∀ pc i, p.code[pc]? = some i → i.opcode = .loadKX →
    ∃ k, p.code[pc + 1]? = some (.ax .extraArg k)
  extraArg : ∀ pc i, p.code[pc]? = some i → i.opcode = .extraArg →
    ∃ k dst, pc = k + 1 ∧ p.code[k]? = some (.abx .loadKX dst 0)
  last : p.code.back? = some (.abc .ret 0 1 0)

/-- The position that an execution of the code may have reached after a number of steps. -/
inductive Reaches (p : Prototype) : (steps pc : Nat) → Prop
  | start : Reaches p 0 0
  | step {steps pc next : Nat} {i : Instruction} : Reaches p steps pc → p.code[pc]? = some i →
    (next : Int) ∈ i.successors pc → Reaches p (steps + 1) next

/-- Every step of an execution leads forward inside the code, and only at a return there is none. As
each step takes the execution forward, it has fewer steps than the code has instructions. -/
def RunsForward (p : Prototype) : Prop :=
  ∀ steps pc, p.Reaches steps pc → steps ≤ pc ∧ ∃ i, p.code[pc]? = some i ∧
    (i.successors pc = [] ↔ i.opcode = .ret) ∧
    ∀ target ∈ i.successors pc, (pc : Int) < target ∧ target < p.code.size

variable {p : Prototype}

theorem getElem?_code (hcode : p.code = (closing is).toArray) (pc : Nat) :
    p.code[pc]? = (closing is)[pc]? := by
  rw [hcode]
  exact List.getElem?_toArray

theorem flowIntact_of_flows (hcode : p.code = (closing is).toArray) (hflows : Flows is) :
    p.FlowIntact := by
  have hget := getElem?_code hcode
  have hin (pc : Nat) (i : Instruction) (hi : is[pc]? = some i) : p.code[pc]? = some i :=
    (hget pc).trans (getElem?_closing hi)
  have hlands (k : Nat) (last : Instruction) (hlast : is[k]? = some last) (hends : ¬ last.LeadsOn) :
      p.LandsAt (k + 1) := by
    obtain ⟨i, hi, hentry⟩ := exists_entry hflows hlast hends
    exact ⟨i, (hget _).trans hi, hentry⟩
  -- The return at the end is none of the instructions that stand in an idiom.
  have hplace (pc : Nat) (i : Instruction) (hi : p.code[pc]? = some i) (hret : i.opcode ≠ .ret) :
      FlowsAt is pc i := by
    rcases getElem?_of_closing ((hget pc).symm.trans hi) with hi | rfl
    · exact hflows pc i hi
    · exact absurd rfl hret
  refine {
    test := ?test
    jump := ?jump
    loadBool := ?loadBool
    loadKX := ?loadKX
    extraArg := ?extraArg
    last := by simp [hcode, closing] }
  case test =>
    intro pc i hi htest
    have hret : i.opcode ≠ .ret := by
      intro hret
      simp [Instruction.isTest, hret] at htest
    obtain ⟨offset, hjump⟩ := (hplace pc i hi hret).exists_jump htest
    have hends := Instruction.not_leadsOn (i := .asbx .jmp 0 offset) (by simp [Instruction.opcode])
    exact ⟨⟨offset, hin _ _ hjump⟩, hlands (pc + 1) _ hjump hends⟩
  case jump =>
    intro pc i hi hjump
    obtain ⟨k, offset, test, last, rfl, rfl, hk, htest, hlast, hends⟩ :=
      (hplace pc i hi (by rw [hjump]; decide)).exists_test hjump
    refine ⟨⟨k, test, rfl, hin _ _ hk, htest⟩, offset + 1, rfl, Nat.succ_pos offset, ?_⟩
    have htarget : k + 1 + 1 + (offset + 1) = k + 1 + (offset + 1) + 1 := by omega
    rw [htarget]
    exact hlands _ _ hlast hends
  case loadBool =>
    intro pc i hi hload
    obtain ⟨dst, b, c, rfl, hc⟩ :=
      (hplace pc i hi (by rw [hload]; decide)).exists_second hload
    refine ⟨dst, b, c, rfl, hc.imp id ?_⟩
    rintro ⟨rfl, second, hsecond⟩
    have hends := Instruction.not_leadsOn (i := .abc .loadBool dst second 0)
      (by simp [Instruction.opcode])
    exact ⟨rfl, ⟨second, hin _ _ hsecond⟩, hlands (pc + 1) _ hsecond hends⟩
  case loadKX =>
    intro pc i hi hload
    obtain ⟨k, hextra⟩ := (hplace pc i hi (by rw [hload]; decide)).exists_extraArg hload
    exact ⟨k, hin _ _ hextra⟩
  case extraArg =>
    intro pc i hi hextra
    obtain ⟨k, dst, rfl, hload⟩ :=
      (hplace pc i hi (by rw [hextra]; decide)).exists_loadKX hextra
    exact ⟨k, dst, rfl, hin _ _ hload⟩

/-- An execution is at a position of the code that is no extra argument, and each step has taken it
forward. -/
theorem Reaches.exists_instruction (hcode : p.code = (closing is).toArray) (hflows : Flows is)
    {steps pc : Nat} (h : p.Reaches steps pc) :
    steps ≤ pc ∧ ∃ i, p.code[pc]? = some i ∧ i.opcode ≠ .extraArg := by
  have hget := getElem?_code hcode
  induction h with
  | start =>
    have hlength := length_closing is
    obtain ⟨i, hi⟩ : ∃ i, (closing is)[0]? = some i :=
      ⟨_, List.getElem?_eq_getElem (by omega)⟩
    refine ⟨Nat.le_refl 0, i, (hget 0).trans hi, ?_⟩
    exact ((flows_closing hflows 0 i hi).isEntry nofun).not_extraArg
  | step _ hi hnext ih =>
    obtain ⟨hsteps, i', hi', hextra⟩ := ih
    rw [hi] at hi'
    cases hi'
    have hi := (hget _).symm.trans hi
    rcases successors_closing hflows hi hextra with ⟨_, hnone⟩ | ⟨_, _, hahead⟩
    · rw [hnone] at hnext
      cases hnext
    · obtain ⟨next, j, hcast, hlt, hj, hjextra⟩ := (hahead _ hnext).exists_instruction hflows
      rw [Int.ofNat_inj.mp hcast]
      exact ⟨by omega, j, (hget next).trans hj, hjextra⟩

theorem runsForward_of_flows (hcode : p.code = (closing is).toArray) (hflows : Flows is) :
    p.RunsForward := by
  intro steps pc hreaches
  obtain ⟨hsteps, i, hi, hextra⟩ := hreaches.exists_instruction hcode hflows
  refine ⟨hsteps, i, hi, ?_⟩
  have hget := getElem?_code hcode
  rcases successors_closing hflows ((hget pc).symm.trans hi) hextra with ⟨hret, hnone⟩ | hsome
  · rw [hnone]
    exact ⟨iff_of_true rfl hret, List.forall_mem_nil _⟩
  · obtain ⟨hret, hne, hahead⟩ := hsome
    refine ⟨iff_of_false hne hret, fun target htarget ↦ ?_⟩
    obtain ⟨next, j, rfl, hlt, hj, -⟩ := (hahead target htarget).exists_instruction hflows
    have hsize : next < p.code.size :=
      (Array.getElem?_eq_some_iff.mp ((hget next).trans hj)).1
    exact ⟨Int.ofNat_lt.mpr hlt, Int.ofNat_lt.mpr hsize⟩

end Prototype

/-! ## Executions of the machine -/

namespace Machine

variable {V : Type} {m : Meaning V} {outer : String → V} {p : Prototype} {s t : State V}

theorem step_next {frame : Frame V} (h : step m frame s = some (.next t)) :
    ∃ i, frame.code[s.pc]? = some i ∧ (t.pc : Int) ∈ i.successors s.pc := by
  obtain ⟨i, hi, hexec⟩ := Option.bind_eq_some_iff.mp h
  exact ⟨i, hi, (exec_next hexec).1⟩

theorem Steps.reaches {ρ : Nat → V} (h : Steps m (.ofPrototype m outer p) ⟨0, ρ⟩ s) :
    ∃ steps, p.Reaches steps s.pc := by
  induction h with
  | refl => exact ⟨0, .start⟩
  | tail _ hstep ih =>
    obtain ⟨steps, hreaches⟩ := ih
    obtain ⟨i, hi, hnext⟩ := step_next hstep
    exact ⟨steps + 1, hreaches.step hi hnext⟩

end Machine

/-! ## Compiled programs -/

/-- A prototype whose code, like that of all prototypes nested in it, is a block and a return. -/
def BlocksWithin (_ : ParamTree) (p : Prototype) : Prop :=
  ∀ q, p.Contains q → ∃ is, q.code = (closing is).toArray ∧ Block (fun _ ↦ True) false is

theorem forall_mem_of_forall₂ {P : Prototype → Prop} {ts : List ParamTree} {ps : List Prototype}
    (h : List.Forall₂ (fun _ p ↦ P p) ts ps) : ∀ p ∈ ps, P p := by
  induction h with
  | nil => exact List.forall_mem_nil _
  | cons hp _ ih => exact List.forall_mem_cons.mpr ⟨hp, ih⟩

theorem closesBlock_blocksWithin : ClosesBlock BlocksWithin := by
  intro n f ts g hfresh hgrows hemitted
  have hchildren := (hgrows.sound hfresh.sound).children
  obtain ⟨is, hcode, hblock⟩ := hemitted
  refine Prototype.forall_contains ⟨is, ?_, hblock⟩ (forall_mem_of_forall₂ hchildren)
  rw [hfresh.code] at hcode
  simp [OpenFunction.close, closing, hcode]

/-- What follows for nested functions from how they are closed follows for the whole program. -/
theorem compileBody_closes {Nested : ParamTree → Prototype → Prop} (hNested : ClosesBlock Nested)
    {types : TypeOracle} {options : Options} {body : List Stmt} {p : Prototype}
    (hp : compileBody types options body = .ok p) :
    Nested (.node 0 (statementsParamTrees body)) p := by
  have hready : (Session.main options.source).Ready := ⟨rfl, Registers.tidy_empty⟩
  have hbody := proceeds_body (b := 0) (s := Session.main options.source)
    (proceeds_statements types hNested body) hready rfl (Nat.zero_le _)
  obtain ⟨s, hrun, hclose⟩ := compileBody_eq_ok_iff.mp hp
  obtain ⟨-, rfl⟩ := Session.close_eq_ok_iff.mp hclose
  obtain ⟨hgrows, _, hcode⟩ := hbody.result hrun
  exact hNested 0 _ _ _ (fresh_main options.source) hgrows.current hcode

/-- In every prototype of a compiled program the idioms are complete, nothing lands inside one of
them, and the code ends with a return. So every execution moves forward until it returns. -/
theorem compileBody_flow_intact (types : TypeOracle) (options : Options) (body : List Stmt)
    (p q : Prototype) (hp : compileBody types options body = .ok p) (hq : p.Contains q) :
    q.FlowIntact ∧ q.RunsForward ∧
      ∀ (V : Type) (m : Meaning V) (outer : String → V) (ρ : Nat → V) (s : Machine.State V),
        Machine.Steps m (.ofPrototype m outer q) ⟨0, ρ⟩ s → s.pc < q.code.size ∧
          ∀ t, Machine.step m (.ofPrototype m outer q) s = some (.next t) →
            s.pc < t.pc ∧ t.pc < q.code.size := by
  obtain ⟨is, hcode, hblock⟩ := compileBody_closes closesBlock_blocksWithin hp q hq
  have hforward := Prototype.runsForward_of_flows hcode hblock.flows
  refine ⟨Prototype.flowIntact_of_flows hcode hblock.flows, hforward, ?_⟩
  intro V m outer ρ s hsteps
  obtain ⟨steps, hreaches⟩ := hsteps.reaches
  obtain ⟨-, i, hi, -, htargets⟩ := hforward steps s.pc hreaches
  refine ⟨(Array.getElem?_eq_some_iff.mp hi).1, fun t hstep ↦ ?_⟩
  obtain ⟨j, hj, hnext⟩ := Machine.step_next hstep
  obtain rfl : i = j := Option.some.inj (hi.symm.trans hj)
  exact ⟨Int.ofNat_lt.mp (htargets _ hnext).1, Int.ofNat_lt.mp (htargets _ hnext).2⟩

/-- `function pick(a, b) { return a < b && a || b; } let c = pick(pick == true, pick(pick()));` -/
def nestedChoice : List Stmt :=
  [.function "pick" ["a", "b"]
    [.ret (some (.binary .or
      (.binary .and (.binary .lt (.identifier "a") (.identifier "b")) (.identifier "a"))
      (.identifier "b")))],
   .declaration .let
    [⟨"c", some (.call (.identifier "pick")
      [.binary .eq (.identifier "pick") (.literal (.boolean true)),
       .call (.identifier "pick") [.call (.identifier "pick") []]])⟩]]

/-- Both the main function, with its forwarded calls, and the function `pick`, with a jump over a
jump, are concerned. -/
theorem compileBody_flow_intact_nestedChoice :
    ∃ p q, compileBody (SyntaxOracle.oracle {}) {} nestedChoice = .ok p ∧ p.children = [q] ∧
      (p.FlowIntact ∧ p.RunsForward) ∧ q.FlowIntact ∧ q.RunsForward := by
  have hchildren : (match compileBody (SyntaxOracle.oracle {}) {} nestedChoice with
      | .ok p => p.children.length
      | .error _ => 0) = 1 := by decide +kernel
  cases hp : compileBody (SyntaxOracle.oracle {}) {} nestedChoice with
  | error e =>
    rw [hp] at hchildren
    cases hchildren
  | ok p =>
    rw [hp] at hchildren
    obtain ⟨q, hq⟩ := List.length_eq_one_iff.mp hchildren
    have hcontains : p.Contains q := .nested (by rw [hq]; exact List.mem_singleton_self q) (.self q)
    have hmain := compileBody_flow_intact _ _ _ p p hp (.self p)
    have hnested := compileBody_flow_intact _ _ _ p q hp hcontains
    exact ⟨p, q, rfl, hq, ⟨hmain.1, hmain.2.1⟩, hnested.1, hnested.2.1⟩

end LuaLower
