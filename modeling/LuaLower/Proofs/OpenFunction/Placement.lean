import LuaLower.Proofs.OpenFunction.Building

/-!
# Placing values builds

The steps that put a value where an instruction needs it: into a register, into an operand, or into
one half of a member access.
-/

namespace LuaLower

open OpenFunction Build

variable {Nested : ParamTree → Prototype → Prop} {b : Nat} {f : OpenFunction} {v : Value}
  {lo hi dst : Nat}

/-! ## The code that loads a value -/

theorem fits_getTable {t x : Nat} (hx : f.OperandFits x) (ht : t < f.registers.high)
    (hdst : dst < f.registers.high) : (Instruction.abc .getTable dst t x).Fits f :=
  ⟨List.forall_mem_cons.mpr ⟨hdst, List.forall_mem_cons.mpr ⟨ht, hx.registers⟩⟩, hx.constants,
    List.forall_mem_nil _, rfl⟩

theorem fits_getTabUp {u x : Nat} (hx : f.OperandFits x) (hu : u < f.proto.upvalues.length)
    (hdst : dst < f.registers.high) : (Instruction.abc .getTabUp dst u x).Fits f :=
  ⟨List.forall_mem_cons.mpr ⟨hdst, hx.registers⟩, hx.constants,
    List.forall_mem_singleton.mpr hu, rfl⟩

theorem fits_getUpval {u : Nat} (hu : u < f.proto.upvalues.length)
    (hdst : dst < f.registers.high) : (Instruction.abc .getUpval dst u 0).Fits f :=
  ⟨List.forall_mem_singleton.mpr hdst, List.forall_mem_nil _, List.forall_mem_singleton.mpr hu, rfl⟩

theorem Value.loadCode_fits (hf : f.registers.Tidy) (hv : f.Holds v lo hi)
    (hhi : hi ≤ f.registers.high) (hdst : dst < f.registers.high) :
    ∀ i ∈ v.loadCode dst, i.Fits f := by
  have hnamed : ∀ r ∈ [dst], r < f.registers.high := List.forall_mem_singleton.mpr hdst
  intro i hi
  cases v with
  | register r =>
    have hr : r < f.registers.high := HoldsRegister.lt_high hv hf hhi
    have hboth : ∀ q ∈ [dst, r], q < f.registers.high := by simp [hdst, hr]
    by_cases h : r = dst
    · simp [loadCode, h] at hi
    · obtain rfl : i = .abc .move dst r 0 := by simpa [loadCode, h] using hi
      exact .of_registers hboth rfl rfl rfl
  | constant k =>
    have hk : ∀ q ∈ [k], q < f.proto.constants.size := List.forall_mem_singleton.mpr hv.1
    by_cases h : k ≤ Field.bx.limit
    · obtain rfl : i = .abx .loadK dst k := by simpa [loadCode, h] using hi
      exact ⟨hnamed, hk, List.forall_mem_nil _, rfl⟩
    · have hi : i = .abx .loadKX dst 0 ∨ i = .ax .extraArg k := by simpa [loadCode, h] using hi
      rcases hi with rfl | rfl
      · exact .of_registers hnamed rfl rfl rfl
      · exact ⟨List.forall_mem_nil _, hk, List.forall_mem_nil _, rfl⟩
  | upvalue u =>
    obtain rfl : i = .abc .getUpval dst u 0 := by simpa [loadCode] using hi
    exact fits_getUpval hv.1 hdst
  | member owner key =>
    obtain ⟨hTable, hKey, mid, hOwner, hHolds⟩ := hv
    have hkey := (hHolds.operand hKey).fits hf hhi
    cases owner with
    | register t =>
      have ht : t < f.registers.high :=
        HoldsRegister.lt_high hOwner hf (hHolds.le.trans hhi)
      obtain rfl : i = .abc .getTable dst t key.rk := by simpa [loadCode] using hi
      exact fits_getTable hkey ht hdst
    | upvalue u =>
      obtain rfl : i = .abc .getTabUp dst u key.rk := by simpa [loadCode] using hi
      exact fits_getTabUp hkey hOwner.1 hdst
    | constant k => exact hTable.elim
    | member _ _ => exact hTable.elim

/-- The code for a value names its destination, unless there is nothing to do. -/
theorem Value.eq_register_or_named (hv : f.Holds v lo hi) (dst : Nat) :
    v = .register dst ∨ ∃ i ∈ v.loadCode dst, dst ∈ i.registers := by
  cases v with
  | register r =>
    by_cases h : r = dst
    · exact .inl (by rw [h])
    · exact .inr ⟨.abc .move dst r 0, by simp [loadCode, h], List.mem_cons_self⟩
  | constant k =>
    right
    by_cases h : k ≤ Field.bx.limit
    · exact ⟨.abx .loadK dst k, by simp [loadCode, h], List.mem_cons_self⟩
    · exact ⟨.abx .loadKX dst 0, by simp [loadCode, h], List.mem_cons_self⟩
  | upvalue u => exact .inr ⟨_, List.mem_cons_self, List.mem_cons_self⟩
  | member owner key =>
    obtain ⟨hTable, _⟩ := hv
    cases owner with
    | register t => exact .inr ⟨_, List.mem_cons_self, List.mem_cons_self⟩
    | upvalue u => exact .inr ⟨_, List.mem_cons_self, List.mem_cons_self⟩
    | constant k => exact hTable.elim
    | member _ _ => exact hTable.elim

/-! ## Into a register -/

namespace OpenFunction

/-- The value `v` is loaded into the first of the registers that it holds. -/
def loading (f : OpenFunction) (v : Value) (lo : Nat) : OpenFunction :=
  (f.downTo lo).taken.emit (v.loadCode lo)

/-- A value becomes `w` by staying where it is, or by being loaded. -/
def Placed (f : OpenFunction) (v : Value) (lo : Nat) (w : Value) (g : OpenFunction) : Prop :=
  w = v ∧ g = f ∨ w = .register lo ∧ g = f.loading v lo

theorem Placed.holds {w : Value} {g : OpenFunction} (h : f.Placed v lo w g)
    (hv : f.Holds v lo f.registers.next) : g.Holds w lo g.registers.next := by
  rcases h with ⟨rfl, rfl⟩ | ⟨rfl, rfl⟩
  · exact hv
  · exact .inr ⟨rfl, rfl⟩

theorem kept_emit (f : OpenFunction) (is : List Instruction) :
    Kept f.proto.code.size f (f.emit is) :=
  { Kept.refl f.proto.code.size f with
    code := fun _ hi ↦ Array.getElem?_append_left hi
    size_le := by simp [emit] }

theorem Placed.kept {w : Value} {g : OpenFunction} (h : f.Placed v lo w g) :
    Kept f.proto.code.size f g := by
  rcases h with ⟨_, rfl⟩ | ⟨_, rfl⟩
  · exact .refl _ g
  · exact { kept_emit ((f.downTo lo).taken) (v.loadCode lo) with }

end OpenFunction

theorem builds_inNewRegister (hlo : f.registers.numLocals ≤ lo)
    (hv : f.Holds v lo f.registers.next) :
    Builds Nested b (inNewRegister v) f (fun r g ↦ r = lo ∧ g = f.loading v lo) := by
  refine .replace (v.loadCode lo) (fun hf ↦ releaseValue_eq hf hlo hv) hlo hv.le
    (bind_of_ok (load_eq hv lo _)) ?_ ?_ ⟨rfl, rfl⟩
  · intro g hg hwithin hnext hdst
    exact Value.loadCode_fits hg (hv.within hwithin) hnext hdst
  · intro hf
    rcases Value.eq_register_or_named hv lo with rfl | hnamed
    · -- The value is already in the register, which was taken before.
      have hheld : lo < f.registers.next := HoldsRegister.lt hv hlo
      exact .inl (hheld.trans_le hf.next_le)
    · exact .inr hnamed

/-- Load a value into a register that stays taken. -/
theorem builds_setLocal (hlo : f.registers.numLocals ≤ lo) (hv : f.Holds v lo f.registers.next)
    (hdst : f.registers.Tidy → dst < f.registers.high) :
    Builds Nested b (setLocal dst v) f (fun _ g ↦ g = (f.downTo lo).emit (v.loadCode dst)) := by
  refine .assuming fun hf _ ↦ ?_
  refine (Builds.lower (fun hf ↦ releaseValue_eq hf hlo hv) hlo hv.le).bind ?_
  rintro _ _ - rfl
  refine .of_ok (fun _ ↦ load_eq hv dst _) (fun htidy ↦ ⟨.emit _ ?_, rfl⟩) rfl
  exact Value.loadCode_fits htidy (hv.within (within_downTo f lo)) hf.next_le (hdst hf)

theorem builds_inRegister (hlo : f.registers.numLocals ≤ lo) (hv : f.Holds v lo f.registers.next) :
    Builds Nested b (inRegister v) f (fun r g ↦ f.Placed v lo (.register r) g) := by
  cases v with
  | register r => exact .pure (.inl ⟨rfl, rfl⟩)
  | _ =>
    refine (builds_inNewRegister hlo hv).mono ?_
    rintro r g _ ⟨rfl, rfl⟩
    exact .inr ⟨rfl, rfl⟩

/-! ## Into operands and member accesses -/

def OpenFunction.PlacedOperand (f : OpenFunction) (v : Value) (lo x : Nat) (g : OpenFunction) :
    Prop :=
  ∃ key : Value, key.IsKey ∧ x = key.rk ∧ f.Placed v lo key g

theorem OpenFunction.PlacedOperand.holds {x : Nat} {g : OpenFunction}
    (h : f.PlacedOperand v lo x g) (hv : f.Holds v lo f.registers.next) :
    g.HoldsOperand x lo g.registers.next := by
  obtain ⟨key, hkey, rfl, hplaced⟩ := h
  exact (hplaced.holds hv).operand hkey

theorem builds_toOperand (hlo : f.registers.numLocals ≤ lo) (hv : f.Holds v lo f.registers.next) :
    Builds Nested b (toOperand v) f (fun x g ↦ f.PlacedOperand v lo x g) := by
  have hregister : Builds Nested b (inRegister v) f (fun x g ↦ f.PlacedOperand v lo x g) :=
    (builds_inRegister hlo hv).mono fun r _ _ h ↦ ⟨.register r, trivial, rfl, h⟩
  cases v with
  | constant k =>
    rw [toOperand]
    split
    case isTrue hk => exact .pure ⟨.constant k, hk, rfl, .inl ⟨rfl, rfl⟩⟩
    case isFalse => exact hregister
  | _ => exact hregister

theorem builds_toKey (hlo : f.registers.numLocals ≤ lo) (hv : f.Holds v lo f.registers.next) :
    Builds Nested b (toKey v) f (fun key g ↦ key.IsKey ∧ f.Placed v lo key g) := by
  have hregister : Builds Nested b (do return .register (← inRegister v)) f
      (fun key g ↦ key.IsKey ∧ f.Placed v lo key g) :=
    (builds_inRegister hlo hv).bind fun _ _ _ h ↦ .pure ⟨trivial, h⟩
  cases v with
  | constant k =>
    rw [toKey]
    split
    case isTrue hk => exact .pure ⟨hk, .inl ⟨rfl, rfl⟩⟩
    case isFalse => exact hregister
  | _ => exact hregister

theorem builds_toTable (hlo : f.registers.numLocals ≤ lo) (hv : f.Holds v lo f.registers.next) :
    Builds Nested b (toTable v) f (fun place g ↦ f.Placed v lo place.toValue g) := by
  have hregister : Builds Nested b (do return .register (← inRegister v)) f
      (fun (place : Place) g ↦ f.Placed v lo place.toValue g) :=
    (builds_inRegister hlo hv).bind fun _ _ _ h ↦ .pure h
  cases v with
  | register r => exact .pure (.inl ⟨rfl, rfl⟩)
  | upvalue u => exact .pure (.inl ⟨rfl, rfl⟩)
  | _ => exact hregister

theorem Place.isTable_toValue (place : Place) : place.toValue.IsTable := by
  cases place <;> exact trivial

/-! ## Constants and globals -/

theorem holds_intern (f : OpenFunction) (k : Constant) :
    (f.intern k).Holds (.constant (f.proto.constants.insert k).1) f.registers.next
      f.registers.next :=
  ⟨Pool.insert_lt_size _ _, rfl⟩

/-- A constant is put into the pool and becomes a key. -/
def OpenFunction.PlacedConstant (f : OpenFunction) (k : Constant) (key : Value) (g : OpenFunction) :
    Prop :=
  key.IsKey ∧
    (f.intern k).Placed (.constant (f.proto.constants.insert k).1) f.registers.next key g

theorem OpenFunction.PlacedConstant.holds {k : Constant} {key : Value} {g : OpenFunction}
    (h : f.PlacedConstant k key g) : g.Holds key f.registers.next g.registers.next :=
  h.2.holds (holds_intern f k)

theorem builds_constantKey (k : Constant) (hlo : f.registers.numLocals ≤ f.registers.next) :
    Builds Nested b (do toKey (.constant (← constantIndex k))) f
      (fun key g ↦ f.PlacedConstant k key g) := by
  refine .bind (.intern k) ?_
  rintro _ _ - ⟨rfl, rfl⟩
  exact builds_toKey (f := f.intern k) hlo (holds_intern f k)

theorem builds_globalField (name : String) (hlo : f.registers.numLocals ≤ f.registers.next) :
    Builds Nested b (globalField name) f
      (fun field g ↦ f.upvalueIndex? envName = some field.1 ∧
        f.PlacedConstant (.string name) field.2 g) := by
  refine .get ?_
  cases henv : f.upvalueIndex? envName with
  | none => exact .throw
  | some env =>
    have hfield : (do
        let key ← toKey (.constant (← stringIndex name))
        return (env, key) : Build (Nat × Value)) = do
        let key ← (do toKey (.constant (← constantIndex (.string name))))
        return (env, key) := by
      rw [bind_assoc]
      rfl
    simp only [hfield]
    refine (builds_constantKey _ hlo).bind ?_
    intro key g _ hkey
    exact .pure ⟨rfl, hkey⟩

theorem OpenFunction.upvalueIndex?_lt {name : String} {u : Nat}
    (h : f.upvalueIndex? name = some u) :
    u < f.proto.upvalues.length :=
  (List.findIdx?_eq_some_iff_findIdx_eq.mp h).1

theorem builds_globalValue (name : String) (hlo : f.registers.numLocals ≤ f.registers.next) :
    Builds Nested b (globalValue name) f
      (fun v g ↦ ∃ env key, v = .member (.upvalue env) key ∧
        f.upvalueIndex? envName = some env ∧ f.PlacedConstant (.string name) key g ∧
        g.Holds v f.registers.next g.registers.next) := by
  refine (builds_globalField name hlo).bind ?_
  rintro ⟨env, key⟩ g hfg ⟨henv, hkey⟩
  have henvg := (upvalueIndex?_lt henv).trans_le hfg.within.upvalues
  exact .pure
    ⟨env, key, rfl, henv, hkey, trivial, hkey.1, f.registers.next, ⟨henvg, rfl⟩, hkey.holds⟩

theorem builds_globalTarget (name : String) (hlo : f.registers.numLocals ≤ f.registers.next) :
    Builds Nested b (globalTarget name) f
      (fun target g ↦ ∃ env key, target = .member (.upvalue env) key.rk ∧
        env < g.proto.upvalues.length ∧ f.PlacedConstant (.string name) key g) := by
  refine (builds_globalField name hlo).bind ?_
  rintro ⟨env, key⟩ g hfg ⟨henv, hkey⟩
  have henvg := (upvalueIndex?_lt henv).trans_le hfg.within.upvalues
  exact .ofExcept (Value.operand_eq hkey.1)
    (.pure ⟨env, key, rfl, henvg, hkey⟩)

end LuaLower
