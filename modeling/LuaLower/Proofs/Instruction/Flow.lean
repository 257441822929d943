import LuaLower.Proofs.Instruction.Blocks
import Mathlib.Data.List.Basic

/-!
# The flow of control through blocks

In a block each instruction is either one that stands alone or has a fixed place in an idiom, next
to the other instructions of the idiom. From what stands beside an instruction it follows where
control goes: forward, and never into the middle of an idiom.
-/

namespace LuaLower

namespace Instruction

/-- The positions to which control may go from an instruction at a given position. A return leaves
the function, and an extra argument is not executed. -/
def successors (pc : Nat) : Instruction → List Int
  | .abc op _ _ c =>
    match op with
    | .ret => []
    | .eq | .lt | .le | .test | .testSet => [pc + 1, pc + 2]
    | .loadBool => if c = 0 then [pc + 1] else [pc + 2]
    | .setList => if c = 0 then [pc + 2] else [pc + 1]
    | _ => [pc + 1]
  | .abx op _ _ => if op = .loadKX then [pc + 2] else [pc + 1]
  | .asbx op _ offset =>
    match op with
    | .jmp | .forPrep => [pc + 1 + offset]
    | .forLoop | .tforLoop => [pc + 1, pc + 1 + offset]
    | _ => [pc + 1]
  | .ax .. => []

/-- An instruction that belongs together with the next one. -/
def LeadsOn (i : Instruction) : Prop :=
  i.isTest = true ∨ i.opcode = .loadKX ∨ ∃ a b, i = .abc .call a b 0

/-- An instruction to which control may jump. -/
structure IsEntry (i : Instruction) : Prop where
  not_extraArg : i.opcode ≠ .extraArg
  not_jump : i.opcode ≠ .jmp
  /-- It does not take the results of a call before it. -/
  not_openCall : ∀ a c, i ≠ .abc .call a 0 c

variable {i : Instruction} {pc : Nat}

/-- What stands alone is no part of an idiom. -/
theorem opcode_of_isPlain (h : i.isPlain = true) :
    i.opcode ∉ [.jmp, .extraArg, .loadKX, .call, .eq, .lt, .le, .testSet] := by
  cases i with
  | abc op a b c => cases op <;> first | (simp [opcode]; done) | cases h
  | abx op a bx =>
    obtain rfl | rfl : op = .loadK ∨ op = .closure := of_decide_eq_true h <;> simp [opcode]
  | asbx op a offset => cases h
  | ax op k => cases h

theorem not_leadsOn (h : i.opcode ∉ [.loadKX, .call, .eq, .lt, .le, .testSet]) : ¬ i.LeadsOn := by
  rintro (htest | hload | ⟨a, b, rfl⟩)
  · exact h (List.mem_cons_of_mem _ (List.mem_cons_of_mem _ (of_decide_eq_true htest)))
  · exact h (hload ▸ List.mem_cons_self)
  · exact h (List.mem_cons_of_mem _ List.mem_cons_self)

theorem not_leadsOn_of_isPlain (h : i.isPlain = true) : ¬ i.LeadsOn :=
  not_leadsOn fun hmem ↦
    opcode_of_isPlain h (List.mem_cons_of_mem _ (List.mem_cons_of_mem _ hmem))

theorem isEntry_of_opcode (h : i.opcode ∉ [.extraArg, .jmp, .call]) : i.IsEntry := by
  refine ⟨fun hextra ↦ ?_, fun hjump ↦ ?_, ?_⟩
  · simp [hextra] at h
  · simp [hjump] at h
  · rintro a c rfl
    simp [opcode] at h

theorem isEntry_of_isPlain (h : i.isPlain = true) : i.IsEntry := by
  apply isEntry_of_opcode
  have hopcode := opcode_of_isPlain h
  simp only [List.mem_cons] at hopcode ⊢
  tauto

theorem isEntry_of_isTest (h : i.isTest = true) : i.IsEntry := by
  apply isEntry_of_opcode
  have hopcode : i.opcode ∈ [.eq, .lt, .le, .testSet] := of_decide_eq_true h
  simp only [List.mem_cons, List.not_mem_nil, or_false] at hopcode
  rcases hopcode with hop | hop | hop | hop <;> simp [hop]

theorem successors_of_isPlain (h : i.isPlain = true) :
    i.opcode = .ret ∧ i.successors pc = [] ∨
      i.opcode ≠ .ret ∧ i.successors pc = [(pc : Int) + 1] := by
  cases i with
  | abc op a b c =>
    cases op
    case ret => exact .inl ⟨rfl, rfl⟩
    case loadBool => exact .inr ⟨nofun, if_pos (of_decide_eq_true h)⟩
    case setList => exact .inr ⟨nofun, if_neg (of_decide_eq_true h).1⟩
    all_goals first | exact .inr ⟨nofun, rfl⟩ | cases h
  | abx op a bx =>
    obtain rfl | rfl : op = .loadK ∨ op = .closure := of_decide_eq_true h
    · exact .inr ⟨nofun, rfl⟩
    · exact .inr ⟨nofun, rfl⟩
  | asbx op a offset => cases h
  | ax op k => cases h

theorem successors_of_isTest {op : Opcode} {a b c : Nat}
    (h : (Instruction.abc op a b c).isTest = true) :
    (Instruction.abc op a b c).successors pc = [(pc : Int) + 1, (pc : Int) + 2] := by
  have hop : op ∈ [.eq, .lt, .le, .testSet] := of_decide_eq_true h
  simp only [List.mem_cons, List.not_mem_nil, or_false] at hop
  rcases hop with rfl | rfl | rfl | rfl <;> rfl

end Instruction

/-! ## What stands beside an instruction -/

/-- The place of an instruction at a position of the code: alone, or within an idiom. -/
inductive FlowsAt (code : List Instruction) : Nat → Instruction → Prop
  | plain {pc : Nat} {i : Instruction} : i.isPlain = true → FlowsAt code pc i
  | test {pc : Nat} {op : Opcode} {a b c : Nat} (offset : Nat) :
    (Instruction.abc op a b c).isTest = true → code[pc + 1]? = some (.asbx .jmp 0 offset) →
    FlowsAt code pc (.abc op a b c)
  /-- The code that a jump skips does not lead on to its target. -/
  | jump {pc : Nat} {i last : Instruction} (offset : Nat) : code[pc]? = some i → i.isTest = true →
    code[pc + 1 + (offset + 1)]? = some last → ¬ last.LeadsOn →
    FlowsAt code (pc + 1) (.asbx .jmp 0 (offset + 1 : Nat))
  | skip {pc dst first second : Nat} : code[pc + 1]? = some (.abc .loadBool dst second 0) →
    FlowsAt code pc (.abc .loadBool dst first 1)
  | wide {pc dst k : Nat} : code[pc + 1]? = some (.ax .extraArg k) →
    FlowsAt code pc (.abx .loadKX dst 0)
  | extraArg {pc dst k : Nat} : code[pc]? = some (.abx .loadKX dst 0) →
    FlowsAt code (pc + 1) (.ax .extraArg k)
  | call {pc base b c : Nat} : b ≠ 0 → FlowsAt code pc (.abc .call base b c)
  | openCall {pc inner b base c : Nat} : code[pc]? = some (.abc .call inner b 0) →
    FlowsAt code (pc + 1) (.abc .call base 0 c)

/-- Every instruction is in its place. -/
def Flows (code : List Instruction) : Prop := ∀ pc i, code[pc]? = some i → FlowsAt code pc i

/-- A position after that of an instruction, right behind one that takes no extra argument. -/
def Ahead (code : List Instruction) (pc : Nat) (target : Int) : Prop :=
  ∃ (k : Nat) (last : Instruction), target = k + 1 ∧ pc ≤ k ∧ code[k]? = some last ∧
    last.opcode ≠ .loadKX

namespace FlowsAt

variable {code code' : List Instruction} {pc : Nat} {i : Instruction}

/-- A place stays the same when more code stands before and after. -/
theorem shift {start : Nat} (h : FlowsAt code pc i)
    (hcode : ∀ k i, code[k]? = some i → code'[start + k]? = some i) :
    FlowsAt code' (start + pc) i := by
  cases h with
  | plain hplain => exact .plain hplain
  | test offset htest hjump => exact .test offset htest (hcode _ _ hjump)
  | @jump pc i last offset hi htest hlast hends =>
    have hassoc : start + (pc + 1 + (offset + 1)) = start + pc + 1 + (offset + 1) := by omega
    have hlast := hcode _ _ hlast
    rw [hassoc] at hlast
    exact .jump offset (hcode _ _ hi) htest hlast hends
  | skip hsecond => exact .skip (hcode _ _ hsecond)
  | wide hextra => exact .wide (hcode _ _ hextra)
  | extraArg hload => exact .extraArg (hcode _ _ hload)
  | call hb => exact .call hb
  | openCall hinner => exact .openCall (hcode _ _ hinner)

theorem append_left (h : FlowsAt code pc i) : FlowsAt (code ++ code') pc i := by
  have hprefix (k : Nat) (i : Instruction) (hk : code[k]? = some i) :
      (code ++ code')[0 + k]? = some i := by
    rw [Nat.zero_add, List.getElem?_append_left (List.getElem?_eq_some_iff.mp hk).1]
    exact hk
  have hshift := h.shift hprefix
  rwa [Nat.zero_add] at hshift

theorem append_right (h : FlowsAt code' pc i) : FlowsAt (code ++ code') (code.length + pc) i := by
  refine h.shift fun k i hk ↦ ?_
  rw [List.getElem?_append_right (Nat.le_add_right _ _), Nat.add_sub_cancel_left]
  exact hk

/-- What is not led on to from the instruction before is not in the middle of an idiom. -/
theorem isEntry (h : FlowsAt code pc i)
    (hbefore : ∀ k last, pc = k + 1 → code[k]? = some last → ¬ last.LeadsOn) : i.IsEntry := by
  cases h with
  | plain hplain => exact Instruction.isEntry_of_isPlain hplain
  | test _ htest _ => exact Instruction.isEntry_of_isTest htest
  | jump _ hi htest _ _ => exact absurd (.inl htest) (hbefore _ _ rfl hi)
  | skip _ => exact Instruction.isEntry_of_opcode (by simp [Instruction.opcode])
  | wide _ => exact Instruction.isEntry_of_opcode (by simp [Instruction.opcode])
  | extraArg hload => exact absurd (.inr (.inl rfl)) (hbefore _ _ rfl hload)
  | call hb =>
    refine ⟨nofun, nofun, ?_⟩
    rintro a c ⟨⟩
    exact hb rfl
  | openCall hinner => exact absurd (.inr (.inr ⟨_, _, rfl⟩)) (hbefore _ _ rfl hinner)

theorem exists_jump (h : FlowsAt code pc i) (htest : i.isTest = true) :
    ∃ offset : Nat, code[pc + 1]? = some (.asbx .jmp 0 offset) := by
  cases h with
  | plain hplain => exact absurd (.inl htest) (Instruction.not_leadsOn_of_isPlain hplain)
  | test offset _ hjump => exact ⟨offset, hjump⟩
  | _ => cases htest

theorem exists_test (h : FlowsAt code pc i) (hjump : i.opcode = .jmp) :
    ∃ k offset test last, pc = k + 1 ∧ i = .asbx .jmp 0 (offset + 1 : Nat) ∧
      code[k]? = some test ∧ test.isTest = true ∧
      code[pc + (offset + 1)]? = some last ∧ ¬ last.LeadsOn := by
  cases h with
  | plain hplain => exact absurd hjump (Instruction.isEntry_of_isPlain hplain).not_jump
  | test _ htest _ => exact absurd hjump (Instruction.isEntry_of_isTest htest).not_jump
  | jump offset hi htest hlast hends => exact ⟨_, offset, _, _, rfl, rfl, hi, htest, hlast, hends⟩
  | _ => cases hjump

theorem exists_extraArg (h : FlowsAt code pc i) (hload : i.opcode = .loadKX) :
    ∃ k, code[pc + 1]? = some (.ax .extraArg k) := by
  cases h with
  | plain hplain => exact absurd (.inr (.inl hload)) (Instruction.not_leadsOn_of_isPlain hplain)
  | test _ htest _ =>
    rw [Instruction.isTest, hload] at htest
    cases htest
  | wide hextra => exact ⟨_, hextra⟩
  | _ => cases hload

theorem exists_loadKX (h : FlowsAt code pc i) (hextra : i.opcode = .extraArg) :
    ∃ k dst, pc = k + 1 ∧ code[k]? = some (.abx .loadKX dst 0) := by
  cases h with
  | plain hplain => exact absurd hextra (Instruction.isEntry_of_isPlain hplain).not_extraArg
  | test _ htest _ => exact absurd hextra (Instruction.isEntry_of_isTest htest).not_extraArg
  | extraArg hload => exact ⟨_, _, rfl, hload⟩
  | _ => cases hextra

theorem exists_second (h : FlowsAt code pc i) (hload : i.opcode = .loadBool) :
    ∃ dst b c, i = .abc .loadBool dst b c ∧
      (c = 0 ∨ c = 1 ∧ ∃ second, code[pc + 1]? = some (.abc .loadBool dst second 0)) := by
  cases h with
  | plain hplain =>
    cases i with
    | abc op dst b c =>
      obtain rfl : op = .loadBool := hload
      exact ⟨dst, b, c, rfl, .inl (of_decide_eq_true hplain)⟩
    | abx op dst k =>
      obtain rfl : op = .loadBool := hload
      cases hplain
    | asbx op dst offset => cases hplain
    | ax op k => cases hplain
  | test _ htest _ =>
    rw [Instruction.isTest, hload] at htest
    cases htest
  | skip hsecond => exact ⟨_, _, _, rfl, .inr ⟨rfl, _, hsecond⟩⟩
  | _ => cases hload

/-- Control leaves the function by a return and otherwise goes ahead. -/
theorem successors (h : FlowsAt code pc i) (hi : code[pc]? = some i)
    (hextra : i.opcode ≠ .extraArg) :
    i.opcode = .ret ∧ i.successors pc = [] ∨
      i.opcode ≠ .ret ∧ i.successors pc ≠ [] ∧
        ∀ target ∈ i.successors pc, Ahead code pc target := by
  cases h with
  | plain hplain =>
    refine (Instruction.successors_of_isPlain hplain).imp id ?_
    rintro ⟨hret, hnext⟩
    rw [hnext]
    refine ⟨hret, nofun, List.forall_mem_singleton.mpr ⟨pc, i, rfl, Nat.le_refl pc, hi, ?_⟩⟩
    exact fun hload ↦ Instruction.not_leadsOn_of_isPlain hplain (.inr (.inl hload))
  | @test pc op a b c offset htest hjump =>
    rw [Instruction.successors_of_isTest htest]
    refine .inr ⟨?_, nofun, List.forall_mem_cons.mpr ⟨?_, List.forall_mem_singleton.mpr ?_⟩⟩
    · rintro rfl
      cases htest
    · refine ⟨pc, _, rfl, Nat.le_refl pc, hi, ?_⟩
      rintro rfl
      cases htest
    · exact ⟨pc + 1, _, by omega, Nat.le_succ pc, hjump, nofun⟩
  | @jump pc _ _ offset _ _ hlast hends =>
    refine .inr ⟨nofun, nofun, List.forall_mem_singleton.mpr ⟨_, _, ?_, ?_, hlast, ?_⟩⟩
    · omega
    · omega
    · exact fun hload ↦ hends (.inr (.inl hload))
  | skip hsecond =>
    exact .inr ⟨nofun, nofun, List.forall_mem_singleton.mpr
      ⟨pc + 1, _, by omega, Nat.le_succ pc, hsecond, nofun⟩⟩
  | wide hargument =>
    exact .inr ⟨nofun, nofun, List.forall_mem_singleton.mpr
      ⟨pc + 1, _, by omega, Nat.le_succ pc, hargument, nofun⟩⟩
  | extraArg _ => exact absurd rfl hextra
  | call _ =>
    exact .inr ⟨nofun, nofun, List.forall_mem_singleton.mpr ⟨_, _, rfl, Nat.le_refl _, hi, nofun⟩⟩
  | openCall _ =>
    exact .inr ⟨nofun, nofun, List.forall_mem_singleton.mpr ⟨_, _, rfl, Nat.le_refl _, hi, nofun⟩⟩

end FlowsAt

theorem Flows.append {is js : List Instruction} (his : Flows is) (hjs : Flows js) :
    Flows (is ++ js) := by
  intro pc i hi
  rcases Nat.lt_or_ge pc is.length with hlt | hge
  · rw [List.getElem?_append_left hlt] at hi
    exact (his pc i hi).append_left
  · obtain ⟨k, rfl⟩ := Nat.exists_eq_add_of_le hge
    rw [List.getElem?_append_right hge, Nat.add_sub_cancel_left] at hi
    exact (hjs k i hi).append_right

namespace Block

variable {W : Nat → Prop} {isOpen : Bool} {is : List Instruction}

/-- A block leads on to what follows it if and only if it is open, and then by a call. -/
theorem getLast? (h : Block W isOpen is) :
    if isOpen then ∃ a b, is.getLast? = some (.abc .call a b 0)
    else ∀ i, is.getLast? = some i → ¬ i.LeadsOn := by
  induction h with
  | nil => simp
  | @append isOpen is js _ _ ih ih' =>
    rw [List.getLast?_append]
    cases hjs : js.getLast? with
    | some j => simpa [hjs] using ih'
    | none =>
      cases isOpen with
      | true => simp [hjs] at ih'
      | false => simpa using ih
  | plain hplain _ =>
    intro i hi
    cases hi
    exact Instruction.not_leadsOn_of_isPlain hplain
  | wide k _ =>
    rintro i ⟨⟩
    exact Instruction.not_leadsOn (by simp [Instruction.opcode])
  | comparison _ _ _ _ _ =>
    rintro i ⟨⟩
    exact Instruction.not_leadsOn (by simp [Instruction.opcode])
  | guarded src decides _ _ hbody ih =>
    intro i hi
    rw [List.getLast?_append_of_ne_nil _ hbody] at hi
    exact ih i hi
  | @call isOpen args base b c _ _ _ _ =>
    rw [List.getLast?_concat]
    by_cases hc : c = 0
    · subst hc
      exact ⟨base, b, rfl⟩
    · simp only [beq_iff_eq, hc, if_false]
      rintro i ⟨⟩
      rintro (h | h | ⟨a, b, h⟩) <;> cases h
      exact hc rfl

theorem flows_comparison {op : Opcode} {dst holdsOn left right : Nat}
    (hop : op = .eq ∨ op = .lt ∨ op = .le) :
    Flows [.abc op holdsOn left right, .asbx .jmp 0 1, .abc .loadBool dst 0 1,
      .abc .loadBool dst 1 0] := by
  have htest : (Instruction.abc op holdsOn left right).isTest = true := by
    rcases hop with rfl | rfl | rfl <;> rfl
  intro pc i hi
  match pc with
  | 0 =>
    cases hi
    exact .test 1 htest rfl
  | 1 =>
    cases hi
    exact .jump 0 rfl htest rfl (Instruction.not_leadsOn (by simp [Instruction.opcode]))
  | 2 =>
    cases hi
    exact .skip rfl
  | 3 =>
    cases hi
    exact .plain rfl

theorem flows_guarded {body : List Instruction} {dst src decides : Nat} (hbody : body ≠ [])
    (hflows : Flows body) (hends : ∀ i, body.getLast? = some i → ¬ i.LeadsOn) :
    Flows ([.abc .testSet dst src decides, .asbx .jmp 0 body.length] ++ body) := by
  obtain ⟨offset, hoffset⟩ :=
    Nat.exists_eq_succ_of_ne_zero (List.length_eq_zero_iff.not.mpr hbody)
  have hlast : body[offset]? = some (body.getLast hbody) := by
    rw [← List.getLast?_eq_some_getLast hbody, List.getLast?_eq_getElem?, hoffset]
    rfl
  intro pc i hi
  match pc with
  | 0 =>
    cases hi
    exact .test body.length rfl rfl
  | 1 =>
    rw [hoffset] at hi ⊢
    cases hi
    refine .jump offset rfl rfl ?_ (hends _ (List.getLast?_eq_some_getLast hbody))
    rw [Nat.add_comm]
    exact hlast
  | k + 2 =>
    rw [Nat.add_comm]
    exact (hflows k i hi).append_right

/-- Only the results of the call right before it are passed on by a call. -/
theorem flows_call {args : List Instruction} {base b c : Nat} (hflows : Flows args)
    (hopen : b = 0 → ∃ a b, args.getLast? = some (.abc .call a b 0)) :
    Flows (args ++ [.abc .call base b c]) := by
  intro pc i hi
  rcases Nat.lt_or_ge pc args.length with hlt | hge
  · rw [List.getElem?_append_left hlt] at hi
    exact (hflows pc i hi).append_left
  · rw [List.getElem?_append_right hge, List.getElem?_singleton] at hi
    split at hi
    case isFalse => cases hi
    case isTrue hpc =>
      obtain rfl : pc = args.length := by omega
      cases hi
      by_cases hb : b = 0
      · obtain ⟨inner, b', hinner⟩ := hopen hb
        obtain ⟨before, rfl⟩ := List.getLast?_eq_some_iff.mp hinner
        subst hb
        have hcall : (before ++ [.abc .call inner b' 0] ++ [.abc .call base 0 c])[before.length]? =
            some (.abc .call inner b' 0) := by simp
        rw [List.length_append]
        exact .openCall hcall
      · exact .call hb

theorem flows (h : Block W isOpen is) : Flows is := by
  induction h with
  | nil => exact nofun
  | append _ _ ih ih' => exact ih.append ih'
  | plain hplain _ =>
    intro pc i hi
    rw [List.getElem?_singleton] at hi
    split at hi <;> cases hi
    exact .plain hplain
  | wide k _ =>
    intro pc i hi
    match pc with
    | 0 =>
      cases hi
      exact .wide rfl
    | 1 =>
      cases hi
      exact .extraArg rfl
  | comparison _ _ _ hop _ => exact flows_comparison hop
  | guarded src decides _ hblock hbody ih => exact flows_guarded hbody ih hblock.getLast?
  | call c hblock hb _ ih =>
    refine flows_call ih fun hzero ↦ ?_
    have hlast := hblock.getLast?
    rwa [if_pos (hb.mp hzero)] at hlast

end Block

end LuaLower
