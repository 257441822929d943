import LuaLower.Proofs.Instruction.Blocks
import LuaLower.Proofs.OpenFunction.Placement

/-!
# The code that steps emit

A step emits code if it builds and appends a block to the code of the function. Which registers the
block may write is given from outside: those that are free, and those of locals that are assigned.
-/

namespace LuaLower

open OpenFunction Build

variable {Nested : ParamTree → Prototype → Prop} {W : Nat → Prop} {isOpen : Bool} {b : Nat}
  {f g h : OpenFunction} {v w : Value} {lo hi dst : Nat} {is : List Instruction}

namespace OpenFunction

def Emitted (W : Nat → Prop) (isOpen : Bool) (f g : OpenFunction) : Prop :=
  ∃ is, g.proto.code = f.proto.code ++ is.toArray ∧ Block W isOpen is

theorem Emitted.of_code_eq (h : g.proto.code = f.proto.code) : Emitted W false f g :=
  ⟨[], by simpa using h, .nil⟩

theorem Emitted.refl (f : OpenFunction) : Emitted W false f f := .of_code_eq rfl

theorem Emitted.of_emit (hg : g.proto.code = (f.emit is).proto.code) (his : Block W isOpen is) :
    Emitted W isOpen f g :=
  ⟨is, hg, his⟩

theorem Emitted.trans (hfg : Emitted W false f g) (hgh : Emitted W isOpen g h) :
    Emitted W isOpen f h := by
  obtain ⟨is, his, hblock⟩ := hfg
  obtain ⟨js, hjs, hblock'⟩ := hgh
  refine ⟨is ++ js, ?_, .append hblock hblock'⟩
  simp [hjs, his, Array.append_assoc]

end OpenFunction

/-! ## Loading values -/

/-- A single instruction that writes one register. -/
theorem Block.single {i : Instruction} (hplain : i.isPlain = true)
    (hwrites : ∀ r, i.writes r = true → r = dst) (hdst : W dst) : Block W false [i] :=
  .plain hplain fun r hr ↦ hwrites r hr ▸ hdst

theorem Value.loadCode_block (v : Value) (hdst : W dst) : Block W false (v.loadCode dst) := by
  cases v with
  | register r =>
    rw [loadCode]
    split
    · exact .nil
    · exact .single rfl (by simp [Instruction.writes]) hdst
  | constant k =>
    rw [loadCode]
    split
    · exact .single rfl (by simp [Instruction.writes]) hdst
    · exact .wide k hdst
  | upvalue u => exact .single rfl (by simp [Instruction.writes]) hdst
  | member owner key =>
    cases owner with
    | register t => exact .single rfl (by simp [Instruction.writes]) hdst
    | upvalue u => exact .single rfl (by simp [Instruction.writes]) hdst
    | constant k => exact .nil
    | member _ _ => exact .nil

namespace OpenFunction

theorem emitted_loading (f : OpenFunction) (v : Value) (hlo : W lo) :
    f.Emitted W false (f.loading v lo) :=
  .of_emit rfl (v.loadCode_block hlo)

theorem Placed.emitted (h : f.Placed v lo w g) (hlo : W lo) : f.Emitted W false g := by
  rcases h with ⟨_, rfl⟩ | ⟨_, rfl⟩
  · exact .refl g
  · exact emitted_loading f v hlo

theorem PlacedOperand.emitted {x : Nat} (h : f.PlacedOperand v lo x g) (hlo : W lo) :
    f.Emitted W false g := by
  obtain ⟨key, _, _, hplaced⟩ := h
  exact hplaced.emitted hlo

theorem PlacedConstant.emitted {k : Constant} {key : Value} (h : f.PlacedConstant k key g)
    (hnext : W f.registers.next) : f.Emitted W false g :=
  Emitted.trans (.of_code_eq rfl) (h.2.emitted hnext)

end OpenFunction

/-! ## Rules -/

section Rules

variable {α β : Type} {x : Build α} {k : α → Build β} {P P' : α → OpenFunction → Prop}
  {Q : β → OpenFunction → Prop} {a : α}

def Emits (Nested : ParamTree → Prototype → Prop) (W : Nat → Prop) (b : Nat) (step : Build α)
    (f : OpenFunction) (post : α → OpenFunction → Prop) : Prop :=
  Builds Nested b step f (fun a g ↦ f.Emitted W false g ∧ post a g)

namespace Emits

theorem of_builds (h : Builds Nested b x f P) (hcode : ∀ a g, P a g → f.Emitted W false g) :
    Emits Nested W b x f P :=
  h.mono fun a g _ hpost ↦ ⟨hcode a g hpost, hpost⟩

theorem pure (hpost : P a f) : Emits Nested W b (pure a) f P := Builds.pure ⟨.refl f, hpost⟩

theorem bind (hx : Emits Nested W b x f P)
    (hk : ∀ a g, Extends Nested b f [] g → P a g → Emits Nested W b (k a) g Q) :
    Emits Nested W b (x >>= k) f Q := by
  refine Builds.bind hx ?_
  rintro a g hfg ⟨hcode, hpost⟩
  refine (hk a g hfg hpost).mono ?_
  rintro c h _ ⟨hcode', hpost'⟩
  exact ⟨hcode.trans hcode', hpost'⟩

theorem mono (hx : Emits Nested W b x f P) (h : ∀ a g, Extends Nested b f [] g → P a g → P' a g) :
    Emits Nested W b x f P' := by
  refine Builds.mono hx ?_
  rintro a g hfg ⟨hcode, hpost⟩
  exact ⟨hcode, h a g hfg hpost⟩

theorem assuming (h : f.registers.Tidy → b ≤ f.proto.code.size → Emits Nested W b x f P) :
    Emits Nested W b x f P :=
  Builds.assuming h

theorem get {k : OpenFunction → Build β} (hk : Emits Nested W b (k f) f Q) :
    Emits Nested W b (get >>= k) f Q := hk

end Emits

end Rules

/-! ## Placing values -/

theorem emits_inNewRegister (hlo : f.registers.numLocals ≤ lo) (hW : W lo)
    (hv : f.Holds v lo f.registers.next) :
    Emits Nested W b (inNewRegister v) f (fun r g ↦ r = lo ∧ g = f.loading v lo) :=
  .of_builds (builds_inNewRegister hlo hv) fun _ _ h ↦ h.2 ▸ emitted_loading f v hW

theorem emits_setLocal (hlo : f.registers.numLocals ≤ lo) (hv : f.Holds v lo f.registers.next)
    (hdst : f.registers.Tidy → dst < f.registers.high) (hW : W dst) :
    Emits Nested W b (setLocal dst v) f (fun _ g ↦ g = (f.downTo lo).emit (v.loadCode dst)) :=
  .of_builds (builds_setLocal hlo hv hdst)
    fun _ _ h ↦ .of_emit (by rw [h]; rfl) (v.loadCode_block hW)

theorem emits_inRegister (hlo : f.registers.numLocals ≤ lo) (hW : W lo)
    (hv : f.Holds v lo f.registers.next) :
    Emits Nested W b (inRegister v) f (fun r g ↦ f.Placed v lo (.register r) g) :=
  .of_builds (builds_inRegister hlo hv) fun _ _ h ↦ h.emitted hW

theorem emits_toOperand (hlo : f.registers.numLocals ≤ lo) (hW : W lo)
    (hv : f.Holds v lo f.registers.next) :
    Emits Nested W b (toOperand v) f (fun x g ↦ f.PlacedOperand v lo x g) :=
  .of_builds (builds_toOperand hlo hv) fun _ _ h ↦ h.emitted hW

theorem emits_toKey (hlo : f.registers.numLocals ≤ lo) (hW : W lo)
    (hv : f.Holds v lo f.registers.next) :
    Emits Nested W b (toKey v) f (fun key g ↦ key.IsKey ∧ f.Placed v lo key g) :=
  .of_builds (builds_toKey hlo hv) fun _ _ h ↦ h.2.emitted hW

theorem emits_toTable (hlo : f.registers.numLocals ≤ lo) (hW : W lo)
    (hv : f.Holds v lo f.registers.next) :
    Emits Nested W b (toTable v) f (fun place g ↦ f.Placed v lo place.toValue g) :=
  .of_builds (builds_toTable hlo hv) fun _ _ h ↦ h.emitted hW

theorem emits_intern (k : Constant) :
    Emits Nested W b (constantIndex k) f
      (fun index g ↦ index = (f.proto.constants.insert k).1 ∧ g = f.intern k) :=
  .of_builds (.intern k) fun _ _ h ↦ .of_code_eq (by rw [h.2]; rfl)

end LuaLower
