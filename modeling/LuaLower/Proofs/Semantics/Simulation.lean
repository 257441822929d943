import LuaLower.Proofs.Session.Resolution
import LuaLower.Proofs.Semantics.Machine

/-!
# Code at work

A frame runs the code of a function from a position on if the two agree there, and it holds the
function's constants and captured variables. On such a frame, the code that places a value leaves it
where it was placed, and touches no register below those of the value.
-/

namespace LuaLower

open OpenFunction

namespace Machine

variable {V : Type} {m : Meaning V} {outer : String → V} {frame : Frame V} {ρ ρ' : Nat → V}
  {b pc : Nat} {f g : OpenFunction} {v w : Value} {x : V} {lo hi dst : Nat}

/-! ## Frames of functions under construction -/

/-- The constants and upvalues of a function have their values. -/
structure Frame.Provides (m : Meaning V) (outer : String → V) (frame : Frame V)
    (f : OpenFunction) : Prop where
  constant : ∀ k c, f.proto.constants.get? k = some c → frame.constant? k = some (m.constant c)
  upvalue : ∀ u name, f.UpvalueNamed u name → frame.upvalue? u = some (outer name)

/-- From position `b` on, the code of the frame is that of a function. -/
def Frame.Follows (frame : Frame V) (b : Nat) (f : OpenFunction) : Prop :=
  ∀ i, b ≤ i → i < f.proto.code.size → frame.code[i]? = f.proto.code[i]?

theorem Frame.Follows.mono {c : Nat} (h : frame.Follows b f) (hc : b ≤ c) : frame.Follows c f :=
  fun i hi hsize ↦ h i (hc.trans hi) hsize

theorem Frame.Follows.of_agree (h : frame.Follows b g)
    (hsize : f.proto.code.size ≤ g.proto.code.size)
    (hcode : ∀ i < f.proto.code.size, g.proto.code[i]? = f.proto.code[i]?) :
    frame.Follows b f := by
  intro i hb hi
  rw [h i hb (hi.trans_le hsize), hcode i hi]

theorem Frame.Follows.of_kept (h : frame.Follows b g) (hkept : Kept f.proto.code.size f g) :
    frame.Follows b f :=
  h.of_agree hkept.size_le hkept.code

theorem getElem?_of_isPrefix {α : Type} {l l' : List α} (h : l <+: l') {k : Nat} {a : α}
    (hk : l[k]? = some a) : l'[k]? = some a := by
  obtain ⟨hlt, rfl⟩ := List.getElem?_eq_some_iff.mp hk
  exact List.prefix_iff_getElem?.mp h k hlt

theorem Frame.Provides.of_isPrefix (h : frame.Provides m outer g)
    (hconstants : f.proto.constants.toList <+: g.proto.constants.toList)
    (hupvalues : f.proto.upvalues <+: g.proto.upvalues) : frame.Provides m outer f where
  constant k c hk := by
    apply h.constant k c
    have hf : f.proto.constants.toList[k]? = some c := by simpa [Pool.toList, Pool.get?] using hk
    have hg := getElem?_of_isPrefix hconstants hf
    simpa [Pool.toList, Pool.get?] using hg
  upvalue u name hu := by
    apply h.upvalue u name
    obtain ⟨up, hup, hname⟩ := Option.map_eq_some_iff.mp hu
    rw [UpvalueNamed, getElem?_of_isPrefix hupvalues hup]
    exact congrArg some hname

theorem Frame.Provides.of_kept (h : frame.Provides m outer g) (hkept : Kept b f g) :
    frame.Provides m outer f :=
  h.of_isPrefix hkept.constants hkept.upvalues

/-- Some instructions stand at a position. -/
def Frame.CodeAt (frame : Frame V) (pc : Nat) (is : List Instruction) : Prop :=
  ∀ j i, is[j]? = some i → frame.code[pc + j]? = some i

theorem Frame.CodeAt.head {i : Instruction} {is : List Instruction}
    (h : frame.CodeAt pc (i :: is)) : frame.code[pc]? = some i :=
  h 0 i rfl

theorem Frame.CodeAt.tail {i : Instruction} {is : List Instruction}
    (h : frame.CodeAt pc (i :: is)) : frame.CodeAt (pc + 1) is := by
  intro j k hk
  have hnext := h (j + 1) k hk
  rwa [← Nat.add_assoc, Nat.add_right_comm] at hnext

theorem Frame.Follows.of_emit {is : List Instruction} (h : frame.Follows b (f.emit is)) :
    frame.Follows b f :=
  h.of_kept (kept_emit f is)

theorem Frame.Follows.codeAt {is : List Instruction} (h : frame.Follows b (f.emit is))
    (hb : b ≤ f.proto.code.size) : frame.CodeAt f.proto.code.size is := by
  intro j i hi
  have hj : j < is.length := (List.getElem?_eq_some_iff.mp hi).1
  have hcode := h (f.proto.code.size + j) (hb.trans (Nat.le_add_right _ _))
    (by simp only [OpenFunction.emit, Array.size_append, List.size_toArray]; omega)
  rw [hcode, OpenFunction.emit, Array.getElem?_append_right (Nat.le_add_right _ _)]
  simpa using hi

/-! ## Values of descriptions -/

/-- The value that a description stands for. -/
def Frame.value? (m : Meaning V) (frame : Frame V) (ρ : Nat → V) : Value → Option V
  | .register r => some (ρ r)
  | .constant k => frame.constant? k
  | .upvalue u => frame.upvalue? u
  | .member owner key => do
    return m.index (← frame.value? m ρ owner) (← frame.value? m ρ key)

theorem value?_congr (h : ∀ r ∈ v.registers, ρ' r = ρ r) :
    frame.value? m ρ' v = frame.value? m ρ v := by
  induction v with
  | register r => simp [Frame.value?, h r (by simp [Value.registers])]
  | constant k => rfl
  | upvalue u => rfl
  | member owner key ihOwner ihKey =>
    have howner : ∀ r ∈ owner.registers, ρ' r = ρ r := fun r hr ↦
      h r (List.mem_append_left _ hr)
    have hkey : ∀ r ∈ key.registers, ρ' r = ρ r := fun r hr ↦
      h r (List.mem_append_right _ hr)
    rw [Frame.value?, ihOwner howner, ihKey hkey, Frame.value?]

theorem Holds.registers_lt (hv : f.Holds v lo hi) (hlo : f.registers.numLocals ≤ lo) :
    ∀ r ∈ v.registers, r < hi := by
  induction v generalizing lo hi with
  | register r => simpa [Value.registers] using HoldsRegister.lt hv hlo
  | constant k => simp [Value.registers]
  | upvalue u => simp [Value.registers]
  | member owner key ihOwner ihKey =>
    obtain ⟨_, _, mid, hOwner, hKey⟩ := hv
    have hmid := hOwner.le
    intro r hr
    rcases List.mem_append.mp hr with hr | hr
    · exact (ihOwner hOwner hlo r hr).trans_le hKey.le
    · exact ihKey hKey (hlo.trans hmid) r hr

/-- A value is not disturbed by what happens above the registers that it holds. -/
theorem value?_of_holds (hv : f.Holds v lo hi) (hlo : f.registers.numLocals ≤ lo)
    (hρ : ∀ r < hi, ρ' r = ρ r) : frame.value? m ρ' v = frame.value? m ρ v :=
  value?_congr fun r hr ↦ hρ r (Holds.registers_lt hv hlo r hr)

/-- The operand for a key stands for the same value. -/
theorem operand?_rk (hkey : v.IsKey) (hv : ∀ r ∈ v.registers, r < 256) :
    frame.operand? ρ v.rk = frame.value? m ρ v := by
  cases v with
  | register r =>
    have hr : r < 256 := hv r (by simp [Value.registers])
    simp [Frame.operand?, Value.rk, RK.not_isConstant hr, Frame.value?]
  | constant k =>
    have hk : k ≤ RK.maxIndex := hkey
    simp [Frame.operand?, Value.rk, RK.isConstant_constant, RK.index_constant hk, Frame.value?]
  | upvalue u => exact hkey.elim
  | member owner key => exact hkey.elim

/-! ## Loading and placing -/

theorem Steps.of_exec {i : Instruction} {t : State V} (hcode : frame.code[pc]? = some i)
    (h : exec m frame pc ρ i = some (.next t)) : Steps m frame ⟨pc, ρ⟩ t :=
  .single ((step_eq hcode).trans h)

theorem exec_loadNil {a c : Nat} : exec m frame pc ρ (.abc .loadNil a 0 c) =
    some (.next ⟨pc + 1, Function.update ρ a m.nil⟩) := by
  have hupdate : (fun r ↦ if a ≤ r ∧ r ≤ a + 0 then m.nil else ρ r) =
      Function.update ρ a m.nil := by
    funext r
    simp only [Function.update_apply, Nat.add_zero]
    exact if_congr (by omega) rfl rfl
  rw [exec, hupdate]

/-- Reading a field into a register. -/
theorem steps_loadMember {owner key : Value} {mid : Nat} {tv kv : V} (hTable : owner.IsTable)
    (hKey : key.IsKey) (hkey : f.Holds key mid hi) (hmid : f.registers.numLocals ≤ mid)
    (hhi : hi ≤ 256) (hcode : frame.CodeAt pc ((Value.member owner key).loadCode dst))
    (htv : frame.value? m ρ owner = some tv) (hkv : frame.value? m ρ key = some kv) :
    Steps m frame ⟨pc, ρ⟩
      ⟨pc + ((Value.member owner key).loadCode dst).length,
        Function.update ρ dst (m.index tv kv)⟩ := by
  have hsmall : ∀ r ∈ key.registers, r < 256 := fun r hr ↦
    (Holds.registers_lt hkey hmid r hr).trans_le hhi
  have hoperand : frame.operand? ρ key.rk = some kv := (operand?_rk hKey hsmall).trans hkv
  cases owner with
  | register t =>
    obtain rfl : ρ t = tv := Option.some.inj htv
    exact .of_exec hcode.head (by simp [exec, hoperand, Value.loadCode])
  | upvalue u =>
    have hu : frame.upvalue? u = some tv := htv
    exact .of_exec hcode.head (by simp [exec, hu, hoperand, Value.loadCode])
  | constant k => exact hTable.elim
  | member _ _ => exact hTable.elim

theorem steps_load (hv : f.Holds v lo hi) (hlo : f.registers.numLocals ≤ lo) (hhi : hi ≤ 256)
    (hcode : frame.CodeAt pc (v.loadCode dst)) (hx : frame.value? m ρ v = some x) :
    Steps m frame ⟨pc, ρ⟩ ⟨pc + (v.loadCode dst).length, Function.update ρ dst x⟩ := by
  cases v with
  | register r =>
    obtain rfl : ρ r = x := Option.some.inj hx
    by_cases hr : r = dst
    · subst hr
      rw [Function.update_eq_self]
      simpa [Value.loadCode] using Steps.refl _
    · simp only [Value.loadCode, hr, if_false] at hcode ⊢
      exact .of_exec hcode.head rfl
  | constant k =>
    have hk : frame.constant? k = some x := hx
    by_cases hlimit : k ≤ Field.bx.limit
    · simp only [Value.loadCode, hlimit, if_true] at hcode ⊢
      exact .of_exec hcode.head (by simp [exec, hk])
    · simp only [Value.loadCode, hlimit, if_false] at hcode ⊢
      have hextra := hcode.tail.head
      exact .of_exec hcode.head (by simp [exec, hextra, hk])
  | upvalue u =>
    have hu : frame.upvalue? u = some x := hx
    exact .of_exec hcode.head (by simp [exec, hu, Value.loadCode])
  | member owner key =>
    obtain ⟨hTable, hKey, mid, hOwner, hkey⟩ := hv
    simp only [Frame.value?, Option.bind_eq_bind, Option.pure_def, Option.bind_eq_some_iff] at hx
    obtain ⟨tv, htv, kv, hkv, hx⟩ := hx
    obtain rfl := Option.some.inj hx
    exact steps_loadMember hTable hKey hkey (hlo.trans hOwner.le) hhi hcode htv hkv

theorem next_le_256 (hf : f.registers.Tidy) : f.registers.next ≤ 256 := by
  have hhigh := hf.next_le.trans hf.high_le
  rw [Registers.limit] at hhigh
  omega

/-- What code does from one function to a later one: it leaves the registers below `lo` alone, and
afterwards `w` stands for `x`. -/
def Leads (m : Meaning V) (frame : Frame V) (f g : OpenFunction) (lo : Nat) (ρ : Nat → V)
    (w : Value) (x : V) : Prop :=
  ∃ ρ', Steps m frame ⟨f.proto.code.size, ρ⟩ ⟨g.proto.code.size, ρ'⟩ ∧ (∀ r < lo, ρ' r = ρ r) ∧
    frame.value? m ρ' w = some x

theorem leads_placed (h : f.Placed v lo w g) (hv : f.Holds v lo f.registers.next)
    (hf : f.registers.Tidy) (hlo : f.registers.numLocals ≤ lo) (hcode : frame.Follows b g)
    (hb : b ≤ f.proto.code.size) (hx : frame.value? m ρ v = some x) :
    Leads m frame f g lo ρ w x := by
  rcases h with ⟨rfl, rfl⟩ | ⟨rfl, rfl⟩
  · exact ⟨ρ, Steps.refl _, fun _ _ ↦ rfl, hx⟩
  · have hload := steps_load hv hlo (next_le_256 hf)
      (Frame.Follows.codeAt (f := (f.downTo lo).taken) hcode hb) hx
    refine ⟨Function.update ρ lo x, ?_, ?_, ?_⟩
    · simpa [loading, OpenFunction.emit, taken, downTo] using hload
    · intro r hr
      exact Function.update_of_ne hr.ne x ρ
    · simp [Frame.value?]

/-! ## Code in sequence -/

theorem Leads.trans {h : OpenFunction} {y : V} (hfg : Leads m frame f g lo ρ v x)
    (hgh : ∀ ρ₁ : Nat → V, (∀ r < lo, ρ₁ r = ρ r) → frame.value? m ρ₁ v = some x →
      Leads m frame g h lo ρ₁ w y) : Leads m frame f h lo ρ w y := by
  obtain ⟨ρ₁, hsteps₁, hkeep₁, hx⟩ := hfg
  obtain ⟨ρ₂, hsteps₂, hkeep₂, hy⟩ := hgh ρ₁ hkeep₁ hx
  refine ⟨ρ₂, hsteps₁.trans hsteps₂, ?_, hy⟩
  intro r hr
  rw [hkeep₂ r hr, hkeep₁ r hr]

theorem Leads.placed {h : OpenFunction} (hfg : Leads m frame f g lo ρ v x)
    (hplaced : g.Placed v lo w h) (hv : g.Holds v lo g.registers.next) (hg : g.registers.Tidy)
    (hlo : g.registers.numLocals ≤ lo) (hcode : frame.Follows b h)
    (hb : b ≤ g.proto.code.size) : Leads m frame f h lo ρ w x :=
  hfg.trans fun _ _ hx ↦ leads_placed hplaced hv hg hlo hcode hb hx

/-- A field access whose owner is placed before its key. -/
theorem Leads.member {h : OpenFunction} {key : Value} {mid : Nat} {y : V}
    (hfg : Leads m frame f g lo ρ v x) (hv : g.Holds v lo mid) (hlo : g.registers.numLocals ≤ lo)
    (hkey : ∀ ρ₁ : Nat → V, (∀ r < lo, ρ₁ r = ρ r) → Leads m frame g h mid ρ₁ key y) :
    Leads m frame f h lo ρ (.member v key) (m.index x y) := by
  apply hfg.trans
  intro ρ₁ hkeep₁ hx
  obtain ⟨ρ₂, hsteps, hkeep₂, hy⟩ := hkey ρ₁ hkeep₁
  refine ⟨ρ₂, hsteps, ?_, ?_⟩
  · intro r hr
    exact hkeep₂ r (hr.trans_le hv.le)
  · have hx₂ : frame.value? m ρ₂ v = some x := (value?_of_holds hv hlo hkeep₂).trans hx
    simp [Frame.value?, hx₂, hy]

/-- Nothing runs, and a description already stands for the value. -/
theorem leads_of_value (hsize : g.proto.code.size = f.proto.code.size)
    (hx : frame.value? m ρ v = some x) : Leads m frame f g lo ρ v x :=
  ⟨ρ, hsize ▸ Steps.refl _, fun _ _ ↦ rfl, hx⟩

/-- One instruction writes the value into the first register. -/
theorem leads_of_exec {i : Instruction} (hcode : frame.Follows b (f.emit [i]))
    (hb : b ≤ f.proto.code.size)
    (hexec : exec m frame f.proto.code.size ρ i =
      some (.next ⟨f.proto.code.size + 1, Function.update ρ lo x⟩)) :
    Leads m frame f (f.emit [i]) lo ρ (.register lo) x := by
  have hat := (hcode.codeAt hb).head
  refine ⟨Function.update ρ lo x, ?_, ?_, by simp [Frame.value?]⟩
  · simpa [OpenFunction.emit] using Steps.of_exec hat hexec
  · intro r hr
    exact Function.update_of_ne hr.ne x ρ

theorem value?_intern {k : Constant} (hprovides : frame.Provides m outer (f.intern k)) :
    frame.value? m ρ (.constant (f.proto.constants.insert k).1) = some (m.constant k) :=
  hprovides.constant _ _ (Pool.get?_insert _ k)

theorem leads_constantKey {k : Constant} {key : Value} (h : f.PlacedConstant k key g)
    (hf : f.registers.Tidy) (hprovides : frame.Provides m outer g) (hcode : frame.Follows b g)
    (hb : b ≤ f.proto.code.size) : Leads m frame f g f.registers.next ρ key (m.constant k) := by
  have hinterned := hprovides.of_kept h.2.kept
  have hleads := leads_placed (ρ := ρ) h.2 (holds_intern f k) hf hf.numLocals_le hcode hb
    (value?_intern hinterned)
  exact hleads

end Machine

end LuaLower
