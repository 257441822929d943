import LuaLower.Proofs.Supply.Functions

/-!
# Constructs are supplied if their parts are

Each construct of the source language is put together from steps for its parts. A part knows only of
the temporaries above those in use when it starts, and the construct of all that it has taken.
-/

namespace LuaLower

open OpenFunction Build

variable {W : Nat → Prop} {U : String → Prop} {lo : Nat} {s t : Session} {name : String}
  {object key value left right : Lower Value} {target : Lower Target}

namespace Session

theorem Continued.numLocals_le (h : s.Continued t) (hs : s.Ready) :
    t.current.registers.numLocals ≤ s.current.registers.next :=
  h.within.numLocals.trans_le hs.tidy.numLocals_le

theorem Allows.above (h : s.Allows W U) (hs : s.Ready) {r : Nat}
    (hr : s.current.registers.next ≤ r) : W r :=
  h.free r (hs.tidy.numLocals_le.trans hr)

end Session

/-! ## Values -/

theorem suppliesValue_literal (l : Literal) : SuppliesValue (Lower.onCurrent (literal l)) := by
  intro W U s hs
  refine Continues.assuming fun hready ↦ ?_
  refine (Continues.onCurrent (builds_literal l) (neutral_literal l)).mono ?_
  rintro v t - ⟨-, hbuilt⟩
  exact ⟨hbuilt.supplied (hs.next hready), hbuilt.holds⟩

theorem suppliesValue_constant (k : Constant) :
    SuppliesValue (do return .constant (← constantIndex k)) := by
  intro W U s _
  refine .bind (.onCurrent (furnishes_intern k) (by simp)) ?_
  rintro _ t - ⟨rfl, ht⟩
  refine .pure ?_
  rw [ht]
  exact holds_intern s.current k

/-- The table of a member access is placed before its key is lowered. -/
theorem supplies_table (hobject : SuppliesValue object) (hs : s.Allows W U) :
    Supplies W U s.current.registers.next (do toTable (← object)) s fun owner t ↦
      t.current.Holds owner.toValue s.current.registers.next t.current.registers.next := by
  refine Continues.assuming fun hready ↦ Supplies.bind (hobject W U s hs) ?_
  intro v t hst hv
  exact (Supplies.onCurrent (furnishes_toTable (hst.numLocals_le hready) (hs.next hready) hv)
    (by simp)).mono fun _ _ _ hplaced ↦ hplaced.holds hv

theorem suppliesValue_member (types : TypeOracle) (name : String) (hobject : SuppliesValue object) :
    SuppliesValue (do
      let owner ← toTable (← object)
      Lower.withOwner owner.toValue (Lower.lookup types name)) := by
  intro W U s hs
  refine Continues.assuming fun hready ↦ ?_
  simp only [withOwner_lookup, ← bind_assoc]
  refine Supplies.bind (supplies_table hobject hs) ?_
  intro owner t hst howner
  have hlo : t.current.registers.numLocals ≤ t.current.registers.next := hst.ready.tidy.numLocals_le
  have hnext := hs.above hready howner.le
  have hkey : Furnishes W U s.current.registers.next
      (do toKey (.constant (← constantIndex (.string name)))) t.current _ :=
    (Furnishes.of_builds (builds_constantKey (.string name) hlo) fun _ _ h ↦
      h.supplied hnext).lower howner.le (le_refl _)
  refine Supplies.onCurrent (R := fun v g ↦ g.Holds v s.current.registers.next g.registers.next)
    (hkey.bind ?_) ?_
  · intro key g hg hkey
    exact .pure ⟨owner.isTable_toValue, hkey.1, _, howner.within hg.within, hkey.holds⟩
  · exact neutral_bind (neutral_bind (by simp) (by simp)) (by simp)

theorem suppliesValue_index (hobject : SuppliesValue object) (hkey : SuppliesValue key) :
    SuppliesValue (do
      let owner ← toTable (← object)
      let key ← toKey (← key)
      return .member owner.toValue key) := by
  intro W U s hs
  refine Continues.assuming fun hready ↦ ?_
  simp only [← bind_assoc (m := Lower) object]
  refine Supplies.bind (supplies_table hobject hs) ?_
  intro owner t hst howner
  have ht := hst.allows hs
  refine Supplies.bind ((hkey W U t ht).lower howner.le (le_refl _)) ?_
  intro k u htu hk
  refine Supplies.bind (.onCurrent ((furnishes_toKey (htu.numLocals_le hst.ready)
    (ht.next hst.ready) hk).lower howner.le hk.le) (by simp)) ?_
  rintro key w huw ⟨hkey, hplaced⟩
  exact .pure ⟨owner.isTable_toValue, hkey, _, (howner.within htu.within).within huw.within,
    hplaced.holds hk⟩

theorem suppliesValue_unary {o : UnaryOp} {op : Opcode} (ho : o.opcode? = some op)
    (hvalue : SuppliesValue value) : SuppliesValue (do Build.unary op (← value)) := by
  intro W U s hs
  refine Continues.assuming fun hready ↦ Supplies.bind (hvalue W U s hs) ?_
  intro v t hst hv
  refine (Supplies.onCurrent
    (furnishes_unary ho (hst.numLocals_le hready) (hs.next hready) hv) (by simp)).mono ?_
  rintro _ u - ⟨rfl, hnext⟩
  exact .inr ⟨rfl, hnext⟩

/-! ## Operators -/

theorem supplies_binary (op : BinaryOp) (isString : Bool) (hs : s.Allows W U)
    (hlo : lo ≤ s.current.registers.next)
    (hleft : Supplies W U lo left s fun v t ↦
      t.current.Holds v s.current.registers.next t.current.registers.next)
    (hright : SuppliesValue right) :
    Supplies W U lo (Lower.binary op isString left right) s fun v t ↦
      t.current.Holds v s.current.registers.next t.current.registers.next := by
  refine Continues.assuming fun hready ↦ Continues.bind hleft ?_
  rintro v t hst ⟨hcode, hv⟩
  have hlot := hst.numLocals_le hready
  refine Continues.bind
    (.onCurrent (builds_beginBinary op isString hlot hv) (neutral_beginBinary op isString v)) ?_
  rintro pending u htu ⟨-, hbegun, hpending⟩
  have hu : u.Allows W U := htu.allows (hst.allows hs)
  refine Continues.bind (hright W U u hu) ?_
  rintro w x hux ⟨hcode', hw⟩
  have hnumLocals := hux.within.numLocals.trans htu.within.numLocals
  have hpendingx := hpending.supplied hcode' hux.within
  refine (Continues.onCurrent (builds_finishBinary (hnumLocals.trans_le hlot) hpendingx hw)
    (neutral_finishBinary pending w)).mono ?_
  rintro _ y - ⟨-, rfl, hfinished⟩
  have hbinary := supplied_binary (fun r hr ↦ hs.above hready hr) hlot hnumLocals hv hbegun rfl
    hpendingx hcode' hw hfinished
  exact ⟨hcode.trans (hbinary.lower hlo hv.le), .inr ⟨rfl, hfinished.next_eq hpendingx⟩⟩

theorem suppliesValue_binary (op : BinaryOp) (isString : Bool) (hleft : SuppliesValue left)
    (hright : SuppliesValue right) : SuppliesValue (Lower.binary op isString left right) :=
  fun W U s hs ↦ supplies_binary op isString hs (le_refl _) (hleft W U s hs) hright

/-! ## Calls -/

/-- A step for arguments. If it is open, the results of the last one are all passed on. -/
def SuppliesArguments (step : Lower Bool) (count : Nat) : Prop :=
  ∀ W U s, s.Allows W U → Continues step s fun isOpen t ↦
    s.current.Supplied W U s.current.registers.next isOpen t.current ∧
      t.current.registers.next = s.current.registers.next + count

theorem continues_callWith {callee : Lower Value} {args : Lower Bool} {argCount : Nat}
    (use : ResultUse) (hcallee : SuppliesValue callee) (hargs : SuppliesArguments args argCount)
    (hs : s.Allows W U) :
    Continues (Lower.callWith callee args argCount use) s fun base t ↦
      s.current.Supplied W U s.current.registers.next (use == .forward) t.current ∧
        base = s.current.registers.next ∧ t.current.registers.next = use.next base := by
  refine Continues.assuming fun hready ↦ Continues.bind (hcallee W U s hs) ?_
  rintro v t hst ⟨hcode, hv⟩
  have hlo := hst.numLocals_le hready
  refine Continues.bind
    (Supplies.onCurrent (U := U) (furnishes_inNewRegister hlo (hs.next hready) hv) (by simp)) ?_
  rintro _ u htu ⟨hcode', rfl, hu⟩
  have hnext : u.current.registers.next = s.current.registers.next + 1 := by
    rw [hu]
    rfl
  refine Continues.bind (hargs W U u (htu.allows (hst.allows hs))) ?_
  rintro isOpen w huw ⟨hcode'', hw⟩
  rw [hnext] at hw
  have hnumLocals := (huw.within.numLocals.trans htu.within.numLocals).trans_le hlo
  refine Continues.bind (.onCurrent (builds_call isOpen use hnumLocals hw) (by simp)) ?_
  rintro _ x _ ⟨hwx, hx, hcall⟩
  have hwhole := hcode.trans (hcode'.trans (hcode''.lower (by omega) (le_refl _)))
  exact .pure ⟨hwhole.call use (le_refl _) (fun r hr ↦ hs.above hready hr) hw hwx hcall hx, rfl, hx⟩

theorem suppliesValue_call {callee : Lower Value} {args : Lower Bool} {argCount : Nat}
    (hcallee : SuppliesValue callee) (hargs : SuppliesArguments args argCount) :
    SuppliesValue (do
      let base ← Lower.callWith callee args argCount .single
      return .register base) := by
  intro W U s hs
  refine Continues.bind (continues_callWith .single hcallee hargs hs) ?_
  rintro _ t - ⟨hcode, rfl, hnext⟩
  exact .pure ⟨hcode, .inr ⟨rfl, hnext⟩⟩

theorem supplies_item (hvalue : SuppliesValue value) (hs : s.Allows W U) :
    Supplies W U s.current.registers.next (do item (← value)) s fun _ t ↦
      t.current.registers.next = s.current.registers.next + 1 := by
  refine Continues.assuming fun hready ↦ Supplies.bind (hvalue W U s hs) ?_
  intro v t hst hv
  exact .onCurrent (furnishes_item (hst.numLocals_le hready) (hs.next hready) hv) (by simp)

theorem suppliesArguments_cons {args : Lower Bool} {count : Nat} (hvalue : SuppliesValue value)
    (hargs : SuppliesArguments args count) :
    SuppliesArguments (do item (← value); args) (count + 1) := by
  intro W U s hs
  simp only [← bind_assoc]
  refine Continues.bind (supplies_item hvalue hs) ?_
  rintro _ t hst ⟨hcode, ht⟩
  refine (hargs W U t (hst.allows hs)).mono ?_
  rintro isOpen u _ ⟨hcode', hu⟩
  exact ⟨hcode.trans (hcode'.lower (by omega) (le_refl _)), by omega⟩

/-! ## Table constructors -/

/-- A table that stays in its register while its fields are set. -/
theorem suppliesValue_table (items fields : Nat) (fill : Nat → Lower Unit)
    (hfill : ∀ W U table s, s.Allows W U → s.current.registers.numLocals ≤ table →
      s.current.registers.next = table + 1 →
      Supplies W U table (fill table) s fun _ t ↦ t.current.registers.next = table + 1) :
    SuppliesValue (do
      let table ← newTable items fields
      fill table
      return .register table) := by
  intro W U s hs
  refine Continues.assuming fun hready ↦
    Supplies.bind (.onCurrent (furnishes_newTable items fields (hs.next hready)) (by simp)) ?_
  rintro _ t hst ⟨rfl, hnext⟩
  refine Supplies.bind
    (hfill W U _ t (hst.allows hs) (hst.numLocals_le hready) hnext) ?_
  intro _ u _ hu
  exact .pure (.inr ⟨rfl, hu⟩)

theorem supplies_property {table : Nat} (hlo : lo ≤ table)
    (htable : table < s.current.registers.next) (hkey : SuppliesValue key)
    (hvalue : SuppliesValue value) (hs : s.Allows W U) :
    Supplies W U lo (Lower.property table key value) s fun _ t ↦
      t.current.registers.next = s.current.registers.next := by
  have hlos : lo ≤ s.current.registers.next := hlo.trans htable.le
  refine Continues.assuming fun hready ↦
    Supplies.bind ((hkey W U s hs).lower hlos (le_refl _)) ?_
  intro k t hst hk
  refine Supplies.bind (.onCurrent ((furnishes_toOperand (hst.numLocals_le hready)
    (hs.next hready) hk).lower hlos hk.le) (by simp)) ?_
  intro x u htu hplaced
  have hx := hplaced.holds hk
  have hsu := hst.trans htu
  have hu := hsu.allows hs
  refine Supplies.bind ((hvalue W U u hu).lower (hlos.trans hx.le) (le_refl _)) ?_
  intro v w huw hv
  refine Supplies.bind (.onCurrent ((furnishes_toOperand (huw.numLocals_le hsu.ready)
    (hu.next hsu.ready) hv).lower (hlos.trans hx.le) hv.le) (by simp)) ?_
  intro y z hwz hplaced
  have hy := hplaced.holds hv
  have hxz := (hx.within huw.within).within hwz.within
  have hloz := (hsu.trans (huw.trans hwz)).numLocals_le hready
  refine .onCurrent (furnishes_setField (.inr ⟨hlo, htable.trans_le (hx.le.trans hy.le)⟩) hloz
    (hx.le.trans hy.le)
    (fun hz ↦ ⟨hxz.fits hz (hy.le.trans hz.next_le), hy.fits hz hz.next_le⟩)
    (fun r hr ↦ (hxz.known hy.le r hr).mono hlos)
    (fun r hr ↦ (hy.known (le_refl _) r hr).mono (hlos.trans hx.le)) ?_) (by simp)
  intro i hz
  exact releaseOperands_eq (f := z.current.emit [i]) hz hloz hxz hy

theorem supplies_setFirst {table : Nat} (hlo : lo ≤ table)
    (htable : table < s.current.registers.next) (hvalue : SuppliesValue value)
    (hs : s.Allows W U) :
    Supplies W U lo (do setFirst table (← value)) s fun _ t ↦
      t.current.registers.next = s.current.registers.next := by
  refine Continues.assuming fun hready ↦
    Supplies.bind ((hvalue W U s hs).lower (hlo.trans htable.le) (le_refl _)) ?_
  intro v t hst hv
  exact .onCurrent (furnishes_setFirst hlo htable (hst.numLocals_le hready)
    (fun r hr ↦ hs.above hready hr) hv) (by simp)

/-! ## Assignments -/

theorem suppliesTarget_field (name : String) (hobject : SuppliesValue object) :
    SuppliesTarget (do
      let owner ← toTable (← object)
      let key ← toOperand (.constant (← stringIndex name))
      return .member owner key) := by
  intro W U s hs
  refine Continues.assuming fun hready ↦ ?_
  simp only [← bind_assoc (m := Lower) object]
  refine Supplies.bind (supplies_table hobject hs) ?_
  intro owner t hst howner
  refine Supplies.bind (.onCurrent (furnishes_intern (.string name)) (by simp)) ?_
  rintro _ u htu ⟨rfl, hu⟩
  have hnext : u.current.registers.next = t.current.registers.next := by
    rw [hu]
    rfl
  have hconstant := holds_intern t.current (.string name)
  rw [← hu, ← hnext] at hconstant
  have hlo : u.current.registers.numLocals ≤ u.current.registers.next :=
    htu.ready.tidy.numLocals_le
  refine Supplies.bind (.onCurrent ((furnishes_toOperand hlo
    (hnext ▸ hs.above hready howner.le) hconstant).lower (hnext ▸ howner.le) (le_refl _))
    (by simp)) ?_
  intro key w huw hplaced
  exact .pure ⟨trivial, _, hnext ▸ (howner.within htu.within).within huw.within,
    hplaced.holds hconstant⟩

theorem suppliesTarget_index (hobject : SuppliesValue object) (hkey : SuppliesValue key) :
    SuppliesTarget (do
      let owner ← toTable (← object)
      let key ← toOperand (← key)
      return .member owner key) := by
  intro W U s hs
  refine Continues.assuming fun hready ↦ ?_
  simp only [← bind_assoc (m := Lower) object]
  refine Supplies.bind (supplies_table hobject hs) ?_
  intro owner t hst howner
  have ht := hst.allows hs
  refine Supplies.bind ((hkey W U t ht).lower howner.le (le_refl _)) ?_
  intro k u htu hk
  refine Supplies.bind (.onCurrent ((furnishes_toOperand (htu.numLocals_le hst.ready)
    (ht.next hst.ready) hk).lower howner.le hk.le) (by simp)) ?_
  intro key w huw hplaced
  exact .pure ⟨trivial, _, (howner.within htu.within).within huw.within, hplaced.holds hk⟩

/-- A compound assignment reads its target, whose registers the value knows nothing of. -/
theorem supplies_assignedValue {target : Target} (compound : Option (BinaryOp × Bool))
    (htarget : s.current.HoldsTarget target lo s.current.registers.next)
    (hright : SuppliesValue right) (hs : s.Allows W U) :
    Supplies W U lo (Lower.assignedValue target compound right) s fun v t ↦
      t.current.Holds v s.current.registers.next t.current.registers.next := by
  refine Continues.assuming fun hready ↦ ?_
  cases compound with
  | none => exact (hright W U s hs).lower htarget.le (le_refl _)
  | some compound =>
    exact supplies_binary compound.1 compound.2 hs htarget.le
      (.onCurrent (Target.furnishes_read htarget (hs.next hready)) (by simp)) hright

theorem supplies_assignment (compound : Option (BinaryOp × Bool)) (htarget : SuppliesTarget target)
    (hright : SuppliesValue right) (hs : s.Allows W U) :
    Supplies W U s.current.registers.next (Lower.assignment target compound right) s fun r t ↦
      r.1.Allowed W U t.current ∧
        ∃ mid, t.current.HoldsTarget r.1 s.current.registers.next mid ∧
          t.current.Holds r.2 mid t.current.registers.next := by
  refine Supplies.bind (htarget W U s hs) ?_
  rintro target t hst ⟨hallowed, htarget⟩
  refine Supplies.bind
    (supplies_assignedValue compound htarget hright (hst.allows hs)) ?_
  intro v u htu hv
  exact .pure ⟨hallowed.developed htu.current, t.current.registers.next,
    htarget.within htu.within, hv⟩

theorem suppliesValue_assign {compound : Except Failure (Option (BinaryOp × Bool))}
    (htarget : SuppliesTarget target) (hright : SuppliesValue right) :
    SuppliesValue (do
      let compound ← MonadExcept.ofExcept compound
      let (target, value) ← Lower.assignment target compound right
      target.assignValue value) := by
  intro W U s hs
  refine Continues.assuming fun hready ↦ Continues.ofExcept fun compound _ ↦
    Supplies.bind (supplies_assignment compound htarget hright hs) ?_
  rintro ⟨target, value⟩ t hst ⟨hallowed, mid, htarget, hvalue⟩
  exact .onCurrent (Target.furnishes_assignValue (hst.numLocals_le hready) htarget hvalue
    (fun r hr ↦ hs.above hready hr) hallowed) (by simp)

theorem supplies_assignStatement {compound : Except Failure (Option (BinaryOp × Bool))}
    (htarget : SuppliesTarget target) (hright : SuppliesValue right) (hs : s.Allows W U) :
    Supplies W U s.current.registers.next (do
      let compound ← MonadExcept.ofExcept compound
      let (target, value) ← Lower.assignment target compound right
      target.assign value) s fun _ t ↦
      t.current.registers.next = s.current.registers.next := by
  refine Continues.assuming fun hready ↦ Continues.ofExcept fun compound _ ↦
    Supplies.bind (supplies_assignment compound htarget hright hs) ?_
  rintro ⟨target, value⟩ t hst ⟨hallowed, mid, htarget, hvalue⟩
  exact .onCurrent (Target.furnishes_assign (hst.numLocals_le hready) htarget hvalue
    (hs.above hready htarget.le) hallowed) (by simp)

theorem supplies_setGlobal (name : String) (hvalue : SuppliesValue value) (hs : s.Allows W U) :
    Supplies W U s.current.registers.next (Lower.setGlobal name value) s fun _ t ↦
      t.current.registers.next = s.current.registers.next := by
  refine Continues.assuming fun hready ↦
    Supplies.bind (supplies_globalTarget name (hs.next hready)) ?_
  rintro target t hst ⟨hallowed, htarget⟩
  refine Supplies.bind ((hvalue W U t (hst.allows hs)).lower htarget.le (le_refl _)) ?_
  intro v u htu hv
  exact .onCurrent (Target.furnishes_assign ((hst.trans htu).numLocals_le hready)
    (htarget.within htu.within) hv (hs.above hready htarget.le)
    (hallowed.developed htu.current)) (by simp)

theorem supplies_setLocal {l : Local} (hl : s.current.local? name = some l) (hW : W l.register)
    (hvalue : SuppliesValue value) (hs : s.Allows W U) :
    Supplies W U s.current.registers.next (do setLocal l.register (← value)) s fun _ t ↦
      t.current.registers.next = s.current.registers.next := by
  refine Continues.assuming fun hready ↦ Supplies.bind (hvalue W U s hs) ?_
  intro v t hst hv
  have hregister : l.register < t.current.registers.numLocals :=
    (hready.tidy.find?_lt hl).trans_eq hst.numLocals_eq.symm
  refine (Supplies.onCurrent (furnishes_setLocal (hst.numLocals_le hready) hv hregister hW)
    (by simp)).mono ?_
  rintro _ u - hu
  rw [hu]
  rfl

/-! ## Ends of statements -/

theorem supplies_drop (hvalue : SuppliesValue value) (hs : s.Allows W U) :
    Supplies W U s.current.registers.next (do drop (← value)) s fun _ t ↦
      t.current.registers.next = s.current.registers.next := by
  refine Continues.assuming fun hready ↦ Supplies.bind (hvalue W U s hs) ?_
  intro v t hst hv
  exact .onCurrent (furnishes_drop (hst.numLocals_le hready) (hs.next hready) hv) (by simp)

theorem supplies_returnValue (hvalue : SuppliesValue value) (hs : s.Allows W U) :
    Supplies W U s.current.registers.next (do returnValue (← value)) s fun _ t ↦
      t.current.registers.next = s.current.registers.next := by
  refine Continues.assuming fun hready ↦ Supplies.bind (hvalue W U s hs) ?_
  intro v t hst hv
  exact .onCurrent (furnishes_returnValue (hst.numLocals_le hready) (hs.next hready) hv) (by simp)

end LuaLower
