import LuaLower.OpenFunction.Basic
import LuaLower.Proofs.Instruction.Operands
import LuaLower.Proofs.Pool
import LuaLower.Proofs.Registers.Tidy

/-!
# How an open function grows

Whatever the compiler does to an open function is a sequence of a few kinds of changes, listed by
`Grows` with the conditions under which each is made. An invariant of open functions needs one case
for each kind of change, and no case for any construct of the source language.
-/

namespace LuaLower

/-- The number of parameters of a function, and the same of the functions nested in it. -/
inductive ParamTree where
  | node (params : Nat) (nested : List ParamTree)

namespace OpenFunction

/-! ## Changes -/

def emit (f : OpenFunction) (is : List Instruction) : OpenFunction :=
  { f with proto := { f.proto with code := f.proto.code ++ is.toArray } }

/-- Release the registers from `m` on. -/
def downTo (f : OpenFunction) (m : Nat) : OpenFunction :=
  { f with registers := { f.registers with next := m } }

/-- Take the first free register. -/
def taken (f : OpenFunction) : OpenFunction :=
  { f with
    registers := { f.registers with
      next := f.registers.next + 1
      high := max f.registers.high (f.registers.next + 1) } }

def intern (f : OpenFunction) (k : Constant) : OpenFunction :=
  { f with proto := { f.proto with constants := (f.proto.constants.insert k).2 } }

def capturing (f : OpenFunction) (us : List Upvalue) : OpenFunction :=
  { f with proto := { f.proto with upvalues := f.proto.upvalues ++ us } }

/-- Make the first register above the locals the home of another one. -/
def binding (f : OpenFunction) (name : String) (isConst : Bool) : OpenFunction :=
  { f with
    registers := { f.registers with
      locals := ⟨name, f.registers.numLocals, isConst⟩ :: f.registers.locals } }

def adopting (f : OpenFunction) (p : Prototype) : OpenFunction :=
  { f with proto := { f.proto with children := f.proto.children ++ [p] } }

/-- Let the jump at a position lead to the next instruction. -/
def landing (f : OpenFunction) (jump : Nat) : OpenFunction :=
  { f with
    proto := { f.proto with
      code := f.proto.code.setIfInBounds jump (.asbx .jmp 0 (f.proto.code.size - jump - 1)) } }

@[simp] theorem emit_nil (f : OpenFunction) : f.emit [] = f := by
  obtain ⟨proto, registers⟩ := f
  cases proto
  simp [emit]

@[simp] theorem emit_emit (f : OpenFunction) (is js : List Instruction) :
    (f.emit is).emit js = f.emit (is ++ js) := by
  simp [emit, Array.append_assoc]

@[simp] theorem capturing_nil (f : OpenFunction) : f.capturing [] = f := by
  obtain ⟨proto, registers⟩ := f
  cases proto
  simp [capturing]

end OpenFunction

/-- Everything that an instruction names is there: registers that have been taken, constants of the
pool and upvalues. Closures are no concern of it. -/
structure Instruction.Fits (i : Instruction) (f : OpenFunction) : Prop where
  registers : ∀ r ∈ i.registers, r < f.registers.high
  constants : ∀ k ∈ i.constants, k < f.proto.constants.size
  upvalues : ∀ u ∈ i.upvalues, u < f.proto.upvalues.length
  closures : i.closures = []

namespace OpenFunction

/-- `f` becomes `g` by changes that leave the code before position `b` alone. They add a nested
function for each of `ts`, and of these the relation `Nested` is known. -/
inductive Grows (Nested : ParamTree → Prototype → Prop) (b : Nat) :
    OpenFunction → List ParamTree → OpenFunction → Prop
  | refl (f : OpenFunction) : Grows Nested b f [] f
  | trans {f g h : OpenFunction} {ts us : List ParamTree} :
    Grows Nested b f ts g → Grows Nested b g us h → Grows Nested b f (ts ++ us) h
  | intern (f : OpenFunction) (k : Constant) : Grows Nested b f [] (f.intern k)
  | capture (f : OpenFunction) (us : List Upvalue) : Grows Nested b f [] (f.capturing us)
  | lower (f : OpenFunction) {m : Nat} : f.registers.numLocals ≤ m → m ≤ f.registers.next →
    Grows Nested b f [] (f.downTo m)
  | emit (f : OpenFunction) {is : List Instruction} : (∀ i ∈ is, i.Fits f) →
    Grows Nested b f [] (f.emit is)
  /-- A register that was never taken before is named by the instructions that follow. -/
  | take (f : OpenFunction) {is : List Instruction} : f.registers.next < Registers.limit →
    (∀ i ∈ is, i.Fits f.taken) →
    (f.registers.next < f.registers.high ∨ ∃ i ∈ is, f.registers.next ∈ i.registers) →
    Grows Nested b f [] (f.taken.emit is)
  | land (f : OpenFunction) {jump : Nat} : b ≤ jump →
    f.proto.code[jump]? = some (.asbx .jmp 0 0) → Grows Nested b f [] (f.landing jump)
  | bind (f : OpenFunction) (name : String) (isConst : Bool) :
    f.registers.next = f.registers.numLocals + 1 → Grows Nested b f [] (f.binding name isConst)
  | closure (f : OpenFunction) {t : ParamTree} {p : Prototype} : Nested t p →
    f.registers.next < Registers.limit →
    Grows Nested b f [t] ((f.adopting p).taken.emit
      [.abx .closure f.registers.next f.proto.children.length])

/-- What an open function keeps whatever happens to it: the code before position `b`, and everything
that is only ever added to. -/
structure Kept (b : Nat) (f g : OpenFunction) : Prop where
  code : ∀ i < b, g.proto.code[i]? = f.proto.code[i]?
  size_le : f.proto.code.size ≤ g.proto.code.size
  constants : f.proto.constants.toList <+: g.proto.constants.toList
  upvalues : f.proto.upvalues <+: g.proto.upvalues
  children : f.proto.children <+: g.proto.children
  inOrder : g.registers.inOrder = f.registers.inOrder

namespace Kept

variable {b c : Nat} {f g h : OpenFunction}

theorem refl (b : Nat) (f : OpenFunction) : Kept b f f where
  code _ _ := rfl
  size_le := le_refl _
  constants := List.prefix_refl _
  upvalues := List.prefix_refl _
  children := List.prefix_refl _
  inOrder := rfl

theorem trans (hfg : Kept b f g) (hgh : Kept b g h) : Kept b f h where
  code i hi := (hgh.code i hi).trans (hfg.code i hi)
  size_le := hfg.size_le.trans hgh.size_le
  constants := hfg.constants.trans hgh.constants
  upvalues := hfg.upvalues.trans hgh.upvalues
  children := hfg.children.trans hgh.children
  inOrder := hgh.inOrder.trans hfg.inOrder

theorem mono (hfg : Kept b f g) (hc : c ≤ b) : Kept c f g :=
  { hfg with code := fun i hi ↦ hfg.code i (hi.trans_le hc) }

end Kept

/-! ## What growth keeps -/

namespace Grows

variable {Nested : ParamTree → Prototype → Prop} {b c : Nat} {f g : OpenFunction}
  {ts : List ParamTree}

theorem mono (hfg : Grows Nested b f ts g) (hc : c ≤ b) : Grows Nested c f ts g := by
  induction hfg with
  | refl f => exact refl f
  | trans _ _ ihfg ihgh => exact trans ihfg ihgh
  | intern f k => exact intern f k
  | capture f us => exact capture f us
  | lower f hm hnext => exact lower f hm hnext
  | emit f his => exact emit f his
  | take f hlimit his hnamed => exact take f hlimit his hnamed
  | land f hjump hcode => exact land f (hc.trans hjump) hcode
  | bind f name isConst hnext => exact bind f name isConst hnext
  | closure f hp hlimit => exact closure f hp hlimit

theorem kept (hfg : Grows Nested b f ts g) (hb : b ≤ f.proto.code.size) : Kept b f g := by
  induction hfg with
  | refl f => exact .refl b f
  | trans _ _ ihfg ihgh =>
    have hkept := ihfg hb
    exact hkept.trans (ihgh (hb.trans hkept.size_le))
  | intern f k =>
    exact { Kept.refl b f with constants := f.proto.constants.prefix_toList_insert k }
  | capture f us => exact { Kept.refl b f with upvalues := List.prefix_append _ _ }
  | lower f _ _ => exact { Kept.refl b f with }
  | emit f _ =>
    refine { Kept.refl b f with code := ?_, size_le := ?_ }
    · intro i hi
      exact Array.getElem?_append_left (hi.trans_le hb)
    · simp [OpenFunction.emit]
  | take f _ _ _ =>
    refine { Kept.refl b f with code := ?_, size_le := ?_ }
    · intro i hi
      exact Array.getElem?_append_left (hi.trans_le hb)
    · simp [OpenFunction.emit, taken]
  | land f hjump _ =>
    refine { Kept.refl b f with code := ?_, size_le := ?_ }
    · intro i hi
      exact Array.getElem?_setIfInBounds_ne (by omega)
    · simp [landing]
  | bind f _ _ _ => exact { Kept.refl b f with }
  | closure f _ _ =>
    refine { Kept.refl b f with code := ?_, size_le := ?_, children := ?_ }
    · intro i hi
      exact Array.getElem?_append_left (hi.trans_le hb)
    · simp [OpenFunction.emit, taken, adopting]
    · exact List.prefix_append _ _

theorem tidy (hfg : Grows Nested b f ts g) (hf : f.registers.Tidy) : g.registers.Tidy := by
  induction hfg with
  | refl f => exact hf
  | trans _ _ ihfg ihgh => exact ihgh (ihfg hf)
  | intern f k => exact hf
  | capture f us => exact hf
  | lower f hm hnext => exact hf.lower hm hnext
  | emit f _ => exact hf
  | take f hlimit _ _ => exact hf.raise hlimit
  | land f _ _ => exact hf
  | bind f name isConst hnext => exact hf.bound name isConst hnext
  | closure f _ hlimit => exact hf.raise hlimit

theorem high_le (hfg : Grows Nested b f ts g) : f.registers.high ≤ g.registers.high := by
  induction hfg with
  | trans _ _ ihfg ihgh => exact ihfg.trans ihgh
  | take f _ _ _ => exact le_max_left _ _
  | closure f _ _ => exact le_max_left _ _
  | _ => exact le_refl _

end Grows

end OpenFunction

end LuaLower
