import LuaLower.Proofs.Instruction.Dataflow
import LuaLower.Proofs.Prototype.Nesting
import LuaLower.Proofs.Session.Steadiness

/-!
# What code is supplied with

When a piece of code starts, the locals of its function have been written, and so have the
temporaries from some register on. `f.Supplied W U lo isOpen g` is about the code by which `g` is
longer than `f`: that is all it reads besides what it has written itself, and when it ends the same
is true of `g`. It writes no register outside `W` and sets no upvalue whose name is not in `U`, and
neither do the functions nested in it that were added.
-/

namespace LuaLower

open OpenFunction

/-! ## Writing and setting -/

namespace Instruction

/-- Whether an instruction sets an upvalue. -/
def setsUpvalue (i : Instruction) (u : Nat) : Bool :=
  match i with
  | .abc .setUpval _ b _ => u = b
  | _ => false

structure Obeys (W S : Nat → Prop) (i : Instruction) : Prop where
  writes : ∀ r, i.writes r = true → W r
  sets : ∀ u, i.setsUpvalue u = true → S u

theorem Obeys.mono {W S S' : Nat → Prop} {i : Instruction} (h : i.Obeys W S)
    (hS : ∀ u, S u → S' u) : i.Obeys W S' :=
  ⟨h.writes, fun u hu ↦ hS u (h.sets u hu)⟩

theorem Obeys.of_not_sets {W S : Nat → Prop} {i : Instruction}
    (hwrites : ∀ r, i.writes r = true → W r) (hsets : ∀ u, i.setsUpvalue u = false) :
    i.Obeys W S :=
  ⟨hwrites, fun u hu ↦ by simp [hsets] at hu⟩

theorem Obeys.of_inert {W S : Nat → Prop} {i : Instruction} (hwrites : ∀ r, i.writes r = false)
    (hsets : ∀ u, i.setsUpvalue u = false) : i.Obeys W S :=
  .of_not_sets (fun r hr ↦ by simp [hwrites] at hr) hsets

end Instruction

namespace Prototype

/-- A function sets one of its upvalues, or a function nested in it does, to which that upvalue is
passed on. -/
inductive Sets : Prototype → Nat → Prop
  | here {p : Prototype} {i : Instruction} {u : Nat} :
      i ∈ p.code → i.setsUpvalue u = true → Sets p u
  | nested {p c : Prototype} {v : Nat} {upvalue : Upvalue} : c ∈ p.children → Sets c v →
    c.upvalues[v]? = some upvalue → upvalue.inStack = false → Sets p upvalue.index.toNat

/-- A register of a function is captured as an upvalue that is set, at any depth. -/
def SetsCaptured (p : Prototype) (r : Nat) : Prop :=
  ∃ c ∈ p.children, ∃ v upvalue, c.Sets v ∧ c.upvalues[v]? = some upvalue ∧
    upvalue.inStack = true ∧ upvalue.index.toNat = r

end Prototype

/-! ## Supplied code -/

variable {W : Nat → Prop} {U : String → Prop} {A : Nat → Prop} {isOpen : Bool} {lo hi dst : Nat}
  {f g h : OpenFunction} {is : List Instruction} {v w : Value}

namespace OpenFunction

/-- The registers of the locals, and of the temporaries from `lo` on. -/
def Known (f : OpenFunction) (lo r : Nat) : Prop :=
  r < f.registers.numLocals ∨ lo ≤ r ∧ r < f.registers.next

/-- What has been written at the end of a piece of code, besides what had been before. The results
of an open call start at the last register that was taken. -/
def Reaches (g : OpenFunction) (lo : Nat) (A : Nat → Prop) : Bool → Progress → Prop
  | false, x => x.Has fun r ↦ A r ∨ g.Known lo r
  | true, x => x.Has fun r ↦ A r ∨ r < g.registers.numLocals ∨
    lo ≤ r ∧ (r + 1 < g.registers.next ∨ r < x.top)

/-- An upvalue with a name that may be set. -/
def CanSet (f : OpenFunction) (U : String → Prop) (u : Nat) : Prop :=
  ∃ y, f.UpvalueNamed u y ∧ U y

/-- What is required of a nested function: it captures locals only, and sets no others than those
that may be written or set from `f`. -/
structure Adopts (W : Nat → Prop) (U : String → Prop) (f : OpenFunction) (c : Prototype) :
    Prop where
  readsWritten : ∀ q, c.Contains q → q.ReadsWritten
  captured : ∀ upvalue ∈ c.upvalues, upvalue.inStack = true →
    upvalue.index.toNat < f.registers.numLocals
  sets : ∀ v upvalue, c.Sets v → c.upvalues[v]? = some upvalue →
    if upvalue.inStack then W upvalue.index.toNat else f.CanSet U upvalue.index.toNat

structure Supplied (W : Nat → Prop) (U : String → Prop) (lo : Nat) (isOpen : Bool)
    (f g : OpenFunction) : Prop extends f.Developed g where
  nested : ∀ c ∈ g.proto.children, c ∈ f.proto.children ∨ g.Adopts W U c
  code : ∃ is, g.proto.code = (f.emit is).proto.code ∧ (∀ i ∈ is, i.Obeys W (g.CanSet U)) ∧
    ∀ cs A, g.proto.children <+: cs → (∀ r, f.Known lo r → A r) →
      Carries cs (Progress.Has A) is (g.Reaches lo A isOpen)

theorem Developed.numLocals_le (h : f.Developed g) :
    f.registers.numLocals ≤ g.registers.numLocals :=
  h.locals.length_le

theorem CanSet.developed {u : Nat} (h : f.CanSet U u) (hfg : f.Developed g) : g.CanSet U u := by
  obtain ⟨y, hy, hU⟩ := h
  obtain ⟨us, hus⟩ := hfg.upvalues
  refine ⟨y, ?_, hU⟩
  rw [UpvalueNamed, ← hus, List.getElem?_append_left hy.lt]
  exact hy

theorem Adopts.developed {c : Prototype} (h : f.Adopts W U c) (hfg : f.Developed g) :
    g.Adopts W U c := by
  refine ⟨h.readsWritten, fun upvalue hu hstack ↦ ?_, fun v upvalue hsets hv ↦ ?_⟩
  · exact (h.captured upvalue hu hstack).trans_le hfg.numLocals_le
  · have hset := h.sets v upvalue hsets hv
    cases hstack : upvalue.inStack with
    | true => simpa [hstack] using hset
    | false =>
      rw [hstack] at hset
      exact CanSet.developed hset hfg

theorem Reaches.mono {B : Nat → Prop} {lo' : Nat} {x : Progress} (h : g.Reaches lo' B isOpen x)
    (hA : ∀ r, A r → B r) (hlo : ∀ r, lo ≤ r → r < lo' → B r) : g.Reaches lo A isOpen x := by
  have hfrom {r : Nat} (hr : lo ≤ r) : B r ∨ lo' ≤ r := by
    rcases Nat.lt_or_ge r lo' with hlt | hge
    · exact .inl (hlo r hr hlt)
    · exact .inr hge
  cases isOpen with
  | false =>
    rintro r (hr | hr | ⟨hr, hnext⟩)
    · exact h r (.inl (hA r hr))
    · exact h r (.inr (.inl hr))
    · exact h r ((hfrom hr).imp id fun hr ↦ .inr ⟨hr, hnext⟩)
  | true =>
    rintro r (hr | hr | ⟨hr, hnext⟩)
    · exact h r (.inl (hA r hr))
    · exact h r (.inr (.inl hr))
    · exact h r ((hfrom hr).imp id fun hr ↦ .inr ⟨hr, hnext⟩)

namespace Supplied

theorem trans (hfg : f.Supplied W U lo false g) (hgh : g.Supplied W U lo isOpen h) :
    f.Supplied W U lo isOpen h := by
  obtain ⟨is, his, hobeys, hcarries⟩ := hfg.code
  obtain ⟨js, hjs, hobeys', hcarries'⟩ := hgh.code
  refine ⟨hfg.toDeveloped.trans hgh.toDeveloped, fun c hc ↦ ?_, is ++ js, ?_, ?_, ?_⟩
  · rcases hgh.nested c hc with hc | hc
    · exact (hfg.nested c hc).imp id fun hc ↦ hc.developed hgh.toDeveloped
    · exact .inr hc
  · simp only [emit] at his hjs ⊢
    simp [hjs, his, Array.append_assoc]
  · refine List.forall_mem_append.mpr ⟨fun i hi ↦ ?_, hobeys'⟩
    exact (hobeys i hi).mono fun u hu ↦ hu.developed hgh.toDeveloped
  · intro cs A hcs hA
    have hfirst := hcarries cs A (hgh.children.trans hcs) hA
    have hsecond := hcarries' cs (fun r ↦ A r ∨ g.Known lo r) hcs fun r hr ↦ .inr hr
    refine hfirst.append (hsecond.mono (fun x hx ↦ hx) fun x hx ↦ ?_)
    exact hx.mono (fun r hr ↦ .inl hr) fun r hr hlt ↦ absurd hr (Nat.not_le.mpr hlt)

/-- Temporaries below those that a piece of code knows of are none of its concern. -/
theorem lower {lo' : Nat} (h : f.Supplied W U lo' isOpen g) (hlo : lo ≤ lo')
    (hnext : lo' ≤ f.registers.next) : f.Supplied W U lo isOpen g := by
  obtain ⟨is, his, hobeys, hcarries⟩ := h.code
  refine ⟨h.toDeveloped, h.nested, is, his, hobeys, fun cs A hcs hA ↦ ?_⟩
  refine (hcarries cs A hcs fun r hr ↦ hA r ?_).mono (fun x hx ↦ hx) fun x hx ↦ ?_
  · exact hr.imp id fun hr ↦ ⟨hlo.trans hr.1, hr.2⟩
  · exact hx.mono (fun r hr ↦ hr) fun r hr hlt ↦ hA r (.inr ⟨hr, hlt.trans_le hnext⟩)

/-- Registers that were released still hold what was written. -/
theorem regain (h : f.Supplied W U lo false g)
    (hlocals : g.registers.numLocals = f.registers.numLocals) :
    f.Supplied W U lo false (g.downTo f.registers.next) := by
  obtain ⟨is, his, hobeys, hcarries⟩ := h.code
  refine ⟨⟨h.locals, h.upvalues, h.children⟩, fun c hc ↦ ?_, is, his, hobeys, fun cs A hcs hA ↦ ?_⟩
  · exact (h.nested c hc).imp id fun hc ↦ ⟨hc.readsWritten, hc.captured, hc.sets⟩
  · refine (hcarries cs A hcs hA).mono (fun x hx ↦ hx) fun x hx r hr ↦ hx r (.inl ?_)
    exact hr.elim id fun hr ↦ hA r (hr.imp (fun hr ↦ hr.trans_eq hlocals) id)

/-- No code at all. -/
theorem of_known (hfg : f.Developed g) (hchildren : g.proto.children = f.proto.children)
    (hcode : g.proto.code = f.proto.code) (hknown : ∀ r, g.Known lo r → f.Known lo r) :
    f.Supplied W U lo false g := by
  refine ⟨hfg, fun c hc ↦ .inl (hchildren ▸ hc), [], by simpa [emit] using hcode, by simp, ?_⟩
  intro cs A _ hA
  exact .nil fun x hx r hr ↦ hx r (hr.elim id fun hr ↦ hA r (hknown r hr))

theorem refl (f : OpenFunction) : f.Supplied W U lo false f :=
  of_known (.refl f) rfl rfl fun _ hr ↦ hr

/-- Code that adds neither variables nor nested functions. -/
theorem of_carries (hfg : f.SameVariables g) (hcode : g.proto.code = (f.emit is).proto.code)
    (hobeys : ∀ i ∈ is, i.Obeys W (g.CanSet U))
    (hcarries : ∀ cs A, (∀ r, f.Known lo r → A r) →
      Carries cs (Progress.Has A) is (Progress.Has fun r ↦ A r ∨ g.Known lo r)) :
    f.Supplied W U lo false g :=
  ⟨hfg.developed, fun _ hc ↦ .inl (hfg.children ▸ hc), is, hcode, hobeys,
    fun cs A _ hA ↦ hcarries cs A hA⟩

theorem single {i : Instruction} (hfg : f.SameVariables g)
    (hcode : g.proto.code = (f.emit [i]).proto.code) (hplain : i.isPlain = true)
    (hobeys : i.Obeys W (g.CanSet U)) (hreads : ∀ cs top r, i.reads cs top r → f.Known lo r)
    (hwrites : ∀ top r, g.Known lo r → f.Known lo r ∨ i.assigns 1 top r) :
    f.Supplied W U lo false g := by
  refine of_carries hfg hcode (List.forall_mem_singleton.mpr hobeys) fun cs A hA ↦ ?_
  refine .plain hplain (fun top r hr ↦ hA r (hreads cs top r hr)) fun top r hr ↦ ?_
  rcases hr with hr | hr
  · exact .inl hr
  · exact (hwrites top r hr).imp (hA r) id

end Supplied

end OpenFunction

/-! ## Loading values -/

theorem RK.eq_of_mem_registers {x r : Nat} (h : r ∈ RK.registers x) : r = x := by
  rw [RK.registers] at h
  split at h <;> simp_all

namespace OpenFunction

theorem HoldsRegister.known {r : Nat} (h : f.HoldsRegister r lo hi) (hhi : hi ≤ f.registers.next) :
    f.Known lo r := by
  rcases h with ⟨hr, _⟩ | ⟨rfl, rfl⟩
  · exact .inl hr
  · exact .inr ⟨le_refl _, hhi⟩

theorem Known.mono {mid r : Nat} (h : f.Known mid r) (hlo : lo ≤ mid) : f.Known lo r :=
  h.imp id fun h ↦ ⟨hlo.trans h.1, h.2⟩

theorem HoldsOperand.known {x : Nat} (h : f.HoldsOperand x lo hi) (hhi : hi ≤ f.registers.next) :
    ∀ r ∈ RK.registers x, f.Known lo r := by
  intro r hr
  rcases h with ⟨k, _, _, rfl, _⟩ | hx
  · simp at hr
  · rw [RK.eq_of_mem_registers hr]
    exact hx.known hhi

theorem Holds.known (h : f.Holds v lo hi) (hhi : hi ≤ f.registers.next) :
    ∀ r ∈ v.registers, f.Known lo r := by
  induction v generalizing lo hi with
  | register r => exact List.forall_mem_singleton.mpr (HoldsRegister.known h hhi)
  | constant k => simp [Value.registers]
  | upvalue u => simp [Value.registers]
  | member owner key ihOwner ihKey =>
    obtain ⟨_, _, mid, hOwner, hHolds⟩ := h
    refine List.forall_mem_append.mpr ⟨ihOwner hOwner (hHolds.le.trans hhi), fun r hr ↦ ?_⟩
    exact (ihKey hHolds hhi r hr).mono hOwner.le

end OpenFunction

theorem Value.mem_registers_of_rk {r : Nat} (hv : v.IsKey) (hr : r ∈ RK.registers v.rk) :
    r ∈ v.registers := by
  cases v with
  | register q => exact List.mem_singleton.mpr (RK.eq_of_mem_registers hr)
  | constant k => simp [rk] at hr
  | upvalue u => exact hv.elim
  | member owner key => exact hv.elim

/-- Loading a value reads the registers that it names. -/
theorem Value.carries_loadCode (hv : f.Holds v lo hi) (hA : ∀ r ∈ v.registers, A r)
    (cs : List Prototype) (dst : Nat) :
    Carries cs (Progress.Has A) (v.loadCode dst) (Progress.Has fun r ↦ A r ∨ r = dst) := by
  cases v with
  | register r =>
    have hr : A r := hA r (List.mem_singleton_self r)
    rw [loadCode]
    split
    case isTrue hdst => exact .nil fun x hx q hq ↦ hx q (hq.elim id fun hq ↦ hq ▸ hdst ▸ hr)
    case isFalse => exact .plain rfl (fun _ q hq ↦ hq ▸ hr) fun _ q hq ↦ hq
  | constant k =>
    rw [loadCode]
    split
    · exact .plain rfl (fun _ _ hq ↦ absurd hq.1 (by decide))
        fun _ q hq ↦ hq.imp id fun hq ↦ ⟨.inl rfl, hq⟩
    · exact .wide fun q hq ↦ hq
  | upvalue u => exact .plain rfl (fun _ q hq ↦ hq.elim) fun _ q hq ↦ hq
  | member owner key =>
    obtain ⟨hTable, hKey, _⟩ := hv
    have hkey : ∀ r ∈ RK.registers key.rk, A r := fun r hr ↦
      hA r (List.mem_append_right _ (mem_registers_of_rk hKey hr))
    cases owner with
    | register t =>
      have ht : A t := hA t (List.mem_append_left _ (List.mem_singleton_self t))
      exact .plain rfl (fun _ q hq ↦ hq.elim (fun hq ↦ hq ▸ ht) (hkey q)) fun _ q hq ↦ hq
    | upvalue u => exact .plain rfl (fun _ q hq ↦ hkey q hq) fun _ q hq ↦ hq
    | constant k => exact hTable.elim
    | member _ _ => exact hTable.elim

theorem Value.obeys_loadCode {S : Nat → Prop} (v : Value) (hdst : W dst) :
    ∀ i ∈ v.loadCode dst, i.Obeys W S := by
  intro i hi
  refine ⟨(v.loadCode_block hdst).writes i hi, fun u hu ↦ ?_⟩
  have hnone : i.setsUpvalue u = false := by
    cases v with
    | register r =>
      rw [loadCode] at hi
      split at hi <;> simp_all [Instruction.setsUpvalue]
    | constant k =>
      rw [loadCode] at hi
      split at hi
      · simp_all [Instruction.setsUpvalue]
      · obtain rfl | rfl : i = .abx .loadKX dst 0 ∨ i = .ax .extraArg k := by simpa using hi
        · rfl
        · rfl
    | upvalue u => simp_all [loadCode, Instruction.setsUpvalue]
    | member owner key => cases owner <;> simp_all [loadCode, Instruction.setsUpvalue]
  simp [hnone] at hu

namespace OpenFunction

theorem supplied_load (hv : f.Holds v lo f.registers.next) (hdst : W dst) (hfg : f.SameVariables g)
    (hcode : g.proto.code = (f.emit (v.loadCode dst)).proto.code)
    (hknown : ∀ r, g.Known lo r → f.Known lo r ∨ r = dst) : f.Supplied W U lo false g := by
  refine .of_carries hfg hcode (v.obeys_loadCode hdst) fun cs A hA ↦ ?_
  refine (Value.carries_loadCode hv (fun r hr ↦ hA r (hv.known (le_refl _) r hr)) cs dst).mono
    (fun x hx ↦ hx) fun x hx r hr ↦ hx r ?_
  rcases hr with hr | hr
  · exact .inl hr
  · exact (hknown r hr).imp (hA r) id

theorem supplied_loading (hlo : W lo) (hv : f.Holds v lo f.registers.next) :
    f.Supplied W U lo false (f.loading v lo) := by
  refine supplied_load hv hlo ⟨rfl, rfl, rfl⟩ rfl fun r hr ↦ ?_
  rcases hr with hr | ⟨hr, hnext⟩
  · exact .inl (.inl hr)
  · exact .inr (Nat.le_antisymm (Nat.lt_succ_iff.mp hnext) hr)

theorem Placed.supplied (h : f.Placed v lo w g) (hlo : W lo) (hv : f.Holds v lo f.registers.next) :
    f.Supplied W U lo false g := by
  rcases h with ⟨_, rfl⟩ | ⟨_, rfl⟩
  · exact .refl g
  · exact supplied_loading hlo hv

theorem PlacedOperand.supplied {x : Nat} (h : f.PlacedOperand v lo x g) (hlo : W lo)
    (hv : f.Holds v lo f.registers.next) : f.Supplied W U lo false g := by
  obtain ⟨key, _, _, hplaced⟩ := h
  exact hplaced.supplied hlo hv

theorem supplied_intern (f : OpenFunction) (k : Constant) : f.Supplied W U lo false (f.intern k) :=
  .of_known (SameVariables.developed ⟨rfl, rfl, rfl⟩) rfl rfl fun _ hr ↦ hr

theorem supplied_downTo (f : OpenFunction) {m : Nat} (hm : m ≤ f.registers.next) :
    f.Supplied W U lo false (f.downTo m) :=
  .of_known (SameVariables.developed ⟨rfl, rfl, rfl⟩) rfl rfl fun _ hr ↦
    hr.imp id fun hr ↦ ⟨hr.1, hr.2.trans_le hm⟩

theorem PlacedConstant.supplied {k : Constant} {key : Value} (h : f.PlacedConstant k key g)
    (hnext : W f.registers.next) : f.Supplied W U f.registers.next false g :=
  (supplied_intern f k).trans (h.2.supplied hnext (holds_intern f k))

end OpenFunction

end LuaLower
