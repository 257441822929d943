import LuaLower.Proofs.Session.Functions
import LuaLower.Proofs.Session.Resolution

/-!
# Constructs translate if their parts do

Each construct of the source language is put together from steps that translate its parts. From what
the parts hold afterwards it follows what the construct holds.
-/

namespace LuaLower

open OpenFunction Build

variable {Nested : ParamTree → Prototype → Prop} {W : Nat → Prop} {b : Nat} {s : Session}
  {ts us : List ParamTree} {names others : List String} {left right value : Lower Value}
  {target : Lower Target}

/-- A step that translates an expression, in which locals of the given names may be assigned. The
temporaries of its value start at the first free register. -/
def TranslatesValue (Nested : ParamTree → Prototype → Prop) (step : Lower Value)
    (names : List String) (ts : List ParamTree) : Prop :=
  ∀ W b s, s.Covers W names → Translates Nested W b step s ts
    (fun v t ↦ t.current.Holds v s.current.registers.next t.current.registers.next)

/-- A step that translates the left side of an assignment. -/
def TranslatesTarget (Nested : ParamTree → Prototype → Prop) (step : Lower Target)
    (names : List String) (ts : List ParamTree) : Prop :=
  ∀ W b s, s.Covers W names → Translates Nested W b step s ts
    (fun target t ↦ target.WritesIn W ∧
      t.current.HoldsTarget target s.current.registers.next t.current.registers.next)

/-- A step that translates arguments. Their code is open if the results of the last one are all
passed on. -/
def TranslatesArguments (Nested : ParamTree → Prototype → Prop) (step : Lower Bool) (count : Nat)
    (names : List String) (ts : List ParamTree) : Prop :=
  ∀ W b s, s.Covers W names → Lowers Nested b step s ts
    (fun isOpen t ↦ s.current.Emitted W isOpen t.current ∧
      t.current.registers.next = s.current.registers.next + count)

/-! ## Operators -/

/-- Between the two operands the right one is lowered, which leaves alone all code before it. -/
theorem lowers_rightOperand (hright : TranslatesValue Nested right names ts) (hs : s.Covers W names)
    {pending : Pending} {lo : Nat}
    (hpending : s.current.HoldsPending b pending lo s.current.registers.next) :
    Lowers Nested b right s ts (fun v t ↦ s.current.Emitted W false t.current ∧
      t.current.HoldsPending b pending lo s.current.registers.next ∧
      t.current.Holds v s.current.registers.next t.current.registers.next) := by
  refine .assuming fun _ hb ↦ ?_
  refine (Lowers.mono (hright W s.current.proto.code.size s hs) ?_).weaken hb (le_refl _)
  rintro v t hst ⟨hcode, hv⟩
  exact ⟨hcode, hpending.extends hst.innermost, hv⟩

theorem translates_binary (op : BinaryOp) (isString : Bool)
    (hleft : Translates Nested W b left s ts
      (fun v t ↦ t.current.Holds v s.current.registers.next t.current.registers.next))
    (hright : TranslatesValue Nested right names us) (hs : s.Covers W names) :
    Translates Nested W b (Lower.binary op isString left right) s (ts ++ us)
      (fun v t ↦ t.current.Holds v s.current.registers.next t.current.registers.next) := by
  refine .assuming fun hready _ ↦ Lowers.bind hleft ?_
  rintro v t hst ⟨hcode, hv⟩
  have hlo : t.current.registers.numLocals ≤ s.current.registers.next :=
    hst.numLocals.trans_le hready.tidy.numLocals_le
  refine .bind (Lowers.onCurrent (builds_beginBinary op isString hlo hv)) ?_
  rintro pending u htu ⟨hbegun, hpending⟩
  have hu : u.Covers W names := hs.later (hst.trans htu) hpending.le
  refine .bind_last (lowers_rightOperand hright hu hpending) ?_
  rintro w x hux ⟨hcode', hpending, hw⟩
  have hlox := (hux.numLocals.trans htu.numLocals).trans_le hlo
  refine (Lowers.onCurrent (builds_finishBinary hlox hpending hw)).mono ?_
  rintro _ y - ⟨rfl, hfinished⟩
  have hbinary :=
    emitted_binary hs.free hpending.le hlox hbegun hpending hcode' hw hfinished
  exact ⟨hcode.trans hbinary, .inr ⟨rfl, hfinished.next_eq hpending⟩⟩

/-! ## Calls and object literals -/

/-- A call takes its arguments from the block before it. -/
theorem OpenFunction.Emitted.call {f g h : OpenFunction} {isOpen : Bool} {base argCount : Nat}
    (hfg : f.Emitted W isOpen g) (use : ResultUse) (hbase : ∀ r, base ≤ r → W r)
    (hcode : h.proto.code = (g.emit
      [.abc .call base (if isOpen then 0 else argCount + 1) use.operand]).proto.code) :
    f.Emitted W (use == .forward) h := by
  obtain ⟨is, his, hblock⟩ := hfg
  have hopen : (if isOpen then 0 else argCount + 1) = 0 ↔ isOpen = true := by
    cases isOpen <;> simp
  have huse : (use.operand == 0) = (use == .forward) := by
    cases use <;> rfl
  have hcall := Block.call use.operand hblock hopen hbase
  rw [huse] at hcall
  refine ⟨_, ?_, hcall⟩
  rw [hcode, OpenFunction.emit]
  simp [his]

theorem lowers_callWith {callee : Lower Value} {args : Lower Bool} {argCount : Nat}
    (use : ResultUse) (hcallee : TranslatesValue Nested callee names ts)
    (hargs : TranslatesArguments Nested args argCount others us)
    (hs : s.Covers W (names ++ others)) :
    Lowers Nested b (Lower.callWith callee args argCount use) s (ts ++ us)
      (fun base t ↦ s.current.Emitted W (use == .forward) t.current ∧
        base = s.current.registers.next ∧ t.current.registers.next = use.next base) := by
  refine .assuming fun hready _ ↦ Lowers.bind (hcallee W b s hs.left) ?_
  rintro v t hst ⟨hcode, hv⟩
  have hlo : t.current.registers.numLocals ≤ s.current.registers.next :=
    hst.numLocals.trans_le hready.tidy.numLocals_le
  refine .bind (Lowers.onCurrent (emits_inNewRegister hlo hs.next hv)) ?_
  rintro _ u htu ⟨hcode', rfl, hu⟩
  have hnext : u.current.registers.next = s.current.registers.next + 1 := by
    rw [hu]
    rfl
  have hcovers : u.Covers W others := hs.right.later (hst.trans htu) (by omega)
  refine .bind_last (hargs W b u hcovers) ?_
  rintro isOpen w huw ⟨hcode'', hw⟩
  have hlow := (huw.numLocals.trans htu.numLocals).trans_le hlo
  rw [hnext] at hw
  refine .bind_last (Lowers.onCurrent (builds_call isOpen use hlow hw)) ?_
  rintro _ x _ ⟨hx, hcall⟩
  exact .pure ⟨hcode.trans (hcode'.trans (hcode''.call use hs.free hcall)), rfl, hx⟩

theorem translates_property {table : Nat} {key : Lower Value}
    (htable : table < s.current.registers.next) (hkey : TranslatesValue Nested key names ts)
    (hvalue : TranslatesValue Nested value others us) (hs : s.Covers W (names ++ others)) :
    Translates Nested W b (Lower.property table key value) s (ts ++ us)
      (fun _ t ↦ t.current.registers.next = s.current.registers.next) := by
  refine .assuming fun hready _ ↦ (hkey W b s hs.left).bind ?_
  intro k t hst hk
  have hlo : t.current.registers.numLocals ≤ s.current.registers.next :=
    hst.numLocals.trans_le hready.tidy.numLocals_le
  refine .bind (.onCurrent (emits_toOperand hlo hs.next hk)) ?_
  intro x u htu hplaced
  have hx := hplaced.holds hk
  have hlou := htu.numLocals.trans_le hlo
  have hu : u.Covers W others := hs.right.later (hst.trans htu) hx.le
  refine .bind_last (hvalue W b u hu) ?_
  intro v w huw hv
  have hlow := huw.numLocals.trans_le hlou
  have hxw := hx.within huw.within
  refine .bind_last (.onCurrent (emits_toOperand (hlow.trans hx.le) hu.next hv)) ?_
  intro y z hwz hplaced
  have hy := hplaced.holds hv
  have hloz := hwz.numLocals.trans_le hlow
  have hxz := hxw.within hwz.within
  refine .onCurrent (emits_setField (htable.trans_le (hx.le.trans hy.le)) hloz
    (hx.le.trans hy.le) (fun hz ↦ hxz.fits hz (hy.le.trans hz.next_le))
    (fun hz ↦ hy.fits hz hz.next_le) ?_)
  intro i hz
  exact releaseOperands_eq (f := z.current.emit [i]) hz hloz hxz hy

/-! ## Assignments -/

theorem translates_assignedValue {target : Target} {lo : Nat} (compound : Option (BinaryOp × Bool))
    (htarget : s.current.HoldsTarget target lo s.current.registers.next)
    (hright : TranslatesValue Nested right names ts) (hs : s.Covers W names) :
    Translates Nested W b (Lower.assignedValue target compound right) s ts
      (fun v t ↦ t.current.Holds v s.current.registers.next t.current.registers.next) := by
  cases compound with
  | none => exact hright W b s hs
  | some compound =>
    exact translates_binary compound.1 compound.2
      (.onCurrent (Target.emits_read htarget hs.next)) hright hs

theorem translates_assignment (compound : Option (BinaryOp × Bool))
    (htarget : TranslatesTarget Nested target names ts)
    (hright : TranslatesValue Nested right others us) (hs : s.Covers W (names ++ others)) :
    Translates Nested W b (Lower.assignment target compound right) s (ts ++ us)
      (fun r t ↦ r.1.WritesIn W ∧
        ∃ mid, t.current.HoldsTarget r.1 s.current.registers.next mid ∧
          t.current.Holds r.2 mid t.current.registers.next) := by
  refine (htarget W b s hs.left).bind ?_
  rintro target t hst ⟨hwrites, htarget⟩
  have ht : t.Covers W others := hs.right.later hst htarget.le
  refine .bind_last (translates_assignedValue compound htarget hright ht) ?_
  intro v u htu hv
  exact .pure ⟨hwrites, t.current.registers.next, htarget.within htu.within, hv⟩

theorem translates_setGlobal (name : String) (hvalue : TranslatesValue Nested value names ts)
    (hs : s.Covers W names) :
    Translates Nested W b (Lower.setGlobal name value) s ts
      (fun _ t ↦ t.current.registers.next = s.current.registers.next) := by
  refine .assuming fun hready _ ↦ .bind (translates_globalTarget name hs.next) ?_
  rintro target t hst ⟨hwrites, htarget⟩
  have ht : t.Covers W names := hs.later hst htarget.le
  refine .bind_last (hvalue W b t ht) ?_
  intro v u htu hv
  have hlo := (htu.numLocals.trans hst.numLocals).trans_le hready.tidy.numLocals_le
  exact .onCurrent (Target.emits_assign hlo (htarget.within htu.within) hv ht.next hwrites)

/-! ## Declarations -/

theorem translates_setLocal {name : String} {l : Local} (hl : s.current.local? name = some l)
    (hvalue : TranslatesValue Nested value names ts) :
    Translates Nested (fun _ ↦ True) b (do setLocal l.register (← value)) s ts
      (fun _ t ↦ t.current.registers.next = s.current.registers.next) := by
  refine .assuming fun hs _ ↦ .bind_last (hvalue _ b s (.trivial s names)) ?_
  intro v t hst hv
  have hlo := hst.numLocals.trans_le hs.tidy.numLocals_le
  have hregister : l.register < t.current.registers.numLocals :=
    (hs.tidy.find?_lt hl).trans_eq hst.numLocals.symm
  refine (Translates.onCurrent (emits_setLocal hlo hv
    (fun ht ↦ hregister.trans_le (ht.numLocals_le.trans ht.next_le)) trivial)).mono ?_
  rintro - u - hu
  rw [hu]
  rfl

/-- The nested functions of an initial value, which may be missing. -/
def TranslatesInit (Nested : ParamTree → Prototype → Prop) (init : Option (Lower Value))
    (ts : List ParamTree) : Prop :=
  match init with
  | some init => ∃ names, TranslatesValue Nested init names ts
  | none => ts = []

theorem translates_initialValue {init : Option (Lower Value)}
    (hinit : TranslatesInit Nested init ts) :
    Translates Nested (fun _ ↦ True) b (Lower.initialValue init) s ts
      (fun r t ↦ r = s.current.registers.next ∧
        t.current.registers.next = s.current.registers.next + 1) := by
  cases init with
  | none =>
    obtain rfl : ts = [] := hinit
    refine (Translates.onCurrent (emits_newNil trivial)).mono ?_
    rintro _ t - ⟨rfl, ht⟩
    exact ⟨rfl, by rw [ht]; rfl⟩
  | some init =>
    obtain ⟨names, hinit⟩ := hinit
    refine .assuming fun hs _ ↦ .bind_last (hinit _ b s (.trivial s names)) ?_
    intro v t hst hv
    have hlo := hst.numLocals.trans_le hs.tidy.numLocals_le
    refine (Translates.onCurrent (emits_inNewRegister hlo trivial hv)).mono ?_
    rintro _ u - ⟨rfl, hu⟩
    exact ⟨rfl, by rw [hu]; rfl⟩

/-- The one place where a local is bound. -/
theorem proceeds_bindNew {init : Option (Lower Value)} (name : String) (isConst : Bool)
    (hinit : TranslatesInit Nested init ts) :
    Proceeds Nested b (do
      let r ← Lower.initialValue init
      bindLocal name r isConst) s ts := by
  intro hs hsettled hb
  refine (translates_initialValue hinit hs hb).bind ?_
  rintro _ t ⟨hst, hcode, rfl, hnext⟩
  have ht := hst.ready hs
  have hnumLocals : s.current.registers.next = t.current.registers.numLocals :=
    hsettled.trans hst.numLocals.symm
  rw [hnumLocals] at hnext ⊢
  have hbind := bindLocal_apply ht.tidy name isConst hnext
  refine .of_ok (Lower.onCurrent_of_ok hbind) ⟨?_, hnext, hcode.trans (.of_code_eq rfl)⟩
  have hgrows : Session.Grows Nested b t []
      { t with current := t.current.binding name isConst } :=
    ⟨.bind t.current name isConst hnext, forall₂_gained_refl _, rfl⟩
  have h := hst.toGrows.trans hgrows
  rwa [List.append_nil] at h

theorem translates_declareGlobal (init : Option (Lower Value)) (name : String)
    (hinit : TranslatesInit Nested init ts) :
    Translates Nested (fun _ ↦ True) b (do
      Lower.addGlobal name
      match init with
      | some init => Lower.setGlobal name init
      | none => return) s ts
      (fun _ t ↦ t.current.registers.next = s.current.registers.next) := by
  refine .bind (.of_lowers (lowers_addGlobal name) fun _ _ h ↦ .of_code_eq (by rw [h])) ?_
  intro _ t _ ht
  cases init with
  | none =>
    obtain rfl : ts = [] := hinit
    exact .pure (by rw [ht])
  | some init =>
    obtain ⟨names, hinit⟩ := hinit
    rw [← ht]
    exact translates_setGlobal name hinit (.trivial t names)

theorem proceeds_declare {init : Option (Lower Value)} (kind : DeclKind) (name : String)
    (hinit : TranslatesInit Nested init ts) :
    Proceeds Nested b (Lower.declare kind name init) s ts := by
  refine .get ?_
  cases hlocal : s.current.local? name with
  | some l =>
    cases init with
    | some init =>
      obtain ⟨names, hinit⟩ := hinit
      exact .of_translates fun _ ↦ translates_setLocal hlocal hinit
    | none =>
      obtain rfl : ts = [] := hinit
      refine .of_translates fun _ ↦ .assuming fun hs _ ↦ ?_
      have hregister : l.register < s.current.registers.high :=
        (hs.tidy.find?_lt hlocal).trans_le (hs.tidy.numLocals_le.trans hs.tidy.next_le)
      simp only
      split
      · refine Translates.onCurrent
          (R := fun _ g ↦ g.registers.next = s.current.registers.next)
          (Builds.push (fun _ ↦ .of_registers ?_ rfl rfl rfl)
            ⟨.of_emit rfl (loadNil_block trivial), rfl⟩)
        exact List.forall_mem_singleton.mpr hregister
      · exact .pure rfl
  | none =>
    by_cases hkind : kind.bindsLocal = true
    · simp only [hkind, if_true]
      exact proceeds_bindNew name _ hinit
    · simp only [hkind]
      exact .of_translates fun _ ↦ translates_declareGlobal init name hinit

theorem proceeds_declareFunction (name : String) (hvalue : TranslatesValue Nested value names ts) :
    Proceeds Nested b (Lower.declareFunction name value) s ts := by
  refine .get (.of_translates fun _ ↦ ?_)
  cases hlocal : s.current.local? name with
  | some l => exact translates_setLocal hlocal hvalue
  | none => exact translates_declareGlobal (some value) name ⟨names, hvalue⟩

end LuaLower
