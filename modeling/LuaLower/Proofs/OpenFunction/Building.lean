import LuaLower.Lowering.Target
import LuaLower.Proofs.OpenFunction.Steps

/-!
# Steps that build

A step builds on an open function with tidy registers if it makes the function grow and keeps its
locals when it succeeds, and loses nothing when it fails. Placing a value somewhere builds; what the
result holds starts where the value's own temporaries started.
-/

namespace LuaLower

open OpenFunction

variable {Nested : ParamTree → Prototype → Prop} {b c : Nat} {f g h : OpenFunction}
  {ts us : List ParamTree} {α β : Type}

/-- Growth that binds no local. -/
structure Extends (Nested : ParamTree → Prototype → Prop) (b : Nat) (f : OpenFunction)
    (ts : List ParamTree) (g : OpenFunction) : Prop where
  grows : Grows Nested b f ts g
  locals : g.registers.locals = f.registers.locals

namespace Extends

theorem refl (f : OpenFunction) : Extends Nested b f [] f := ⟨.refl f, rfl⟩

theorem trans (hfg : Extends Nested b f ts g) (hgh : Extends Nested b g us h) :
    Extends Nested b f (ts ++ us) h :=
  ⟨hfg.grows.trans hgh.grows, hgh.locals.trans hfg.locals⟩

theorem mono (hfg : Extends Nested b f ts g) (hc : c ≤ b) : Extends Nested c f ts g :=
  ⟨hfg.grows.mono hc, hfg.locals⟩

theorem kept (hfg : Extends Nested b f ts g) (hb : b ≤ f.proto.code.size) : Kept b f g :=
  hfg.grows.kept hb

theorem size_le (hfg : Extends Nested b f ts g) : f.proto.code.size ≤ g.proto.code.size :=
  ((hfg.mono (Nat.zero_le b)).kept (Nat.zero_le _)).size_le

theorem numLocals (hfg : Extends Nested b f ts g) :
    g.registers.numLocals = f.registers.numLocals := by
  rw [Registers.numLocals, hfg.locals, Registers.numLocals]

theorem within (hfg : Extends Nested b f ts g) : Within f g := by
  have hkept := (hfg.mono (Nat.zero_le b)).kept (Nat.zero_le _)
  exact ⟨hfg.numLocals, hkept.constants.length_le, hkept.upvalues.length_le, hfg.grows.high_le⟩

theorem lower (f : OpenFunction) {m : Nat} (hm : f.registers.numLocals ≤ m)
    (hnext : m ≤ f.registers.next) : Extends Nested b f [] (f.downTo m) :=
  ⟨.lower f hm hnext, rfl⟩

end Extends

theorem OpenFunction.within_taken (f : OpenFunction) : Within f f.taken :=
  ⟨rfl, le_refl _, le_refl _, le_max_left _ _⟩

theorem OpenFunction.within_downTo (f : OpenFunction) (m : Nat) : Within f (f.downTo m) :=
  ⟨rfl, le_refl _, le_refl _, le_refl _⟩

def Builds (Nested : ParamTree → Prototype → Prop) (b : Nat) (step : Build α) (f : OpenFunction)
    (post : α → OpenFunction → Prop) : Prop :=
  f.registers.Tidy → b ≤ f.proto.code.size →
    Yields step f (fun a g ↦ Extends Nested b f [] g ∧ post a g) (fun _ g ↦ Kept b f g)

namespace Builds

variable {step x : Build α} {k : α → Build β} {P P' : α → OpenFunction → Prop}
  {Q : β → OpenFunction → Prop} {a : α}

theorem of_ok (hstep : f.registers.Tidy → step f = .ok a g)
    (hfg : f.registers.Tidy → Extends Nested b f [] g) (hpost : P a g) :
    Builds Nested b step f P :=
  fun hf _ ↦ .of_ok (hstep hf) ⟨hfg hf, hpost⟩

theorem pure (hpost : P a f) : Builds Nested b (pure a) f P :=
  fun _ _ ↦ yields_pure ⟨.refl f, hpost⟩

theorem throw {e : Failure} : Builds Nested b (throw e : Build α) f P :=
  fun _ _ ↦ yields_throw (.refl b f)

theorem bind (hx : Builds Nested b x f P)
    (hk : ∀ a g, Extends Nested b f [] g → P a g → Builds Nested b (k a) g Q) :
    Builds Nested b (x >>= k) f Q := by
  intro hf hb
  refine (hx hf hb).bind ?_
  rintro a g ⟨hfg, hpost⟩
  refine (hk a g hfg hpost (hfg.grows.tidy hf) (hb.trans hfg.size_le)).mono ?_ ?_
  · rintro c h ⟨hgh, hpost⟩
    exact ⟨hfg.trans hgh, hpost⟩
  · intro e h hkept
    exact (hfg.kept hb).trans hkept

theorem mono (hx : Builds Nested b x f P) (h : ∀ a g, Extends Nested b f [] g → P a g → P' a g) :
    Builds Nested b x f P' := by
  intro hf hb
  refine (hx hf hb).mono ?_ (fun _ _ h ↦ h)
  rintro a g ⟨hfg, hpost⟩
  exact ⟨hfg, h a g hfg hpost⟩

/-- What a step may rely on can be used to show that it builds. -/
theorem assuming (h : f.registers.Tidy → b ≤ f.proto.code.size → Builds Nested b x f P) :
    Builds Nested b x f P :=
  fun hf hb ↦ h hf hb hf hb

theorem push {i : Instruction} {P : Unit → OpenFunction → Prop}
    (hi : f.registers.Tidy → i.Fits f) (hpost : P () (f.emit [i])) :
    Builds Nested b (Build.push i) f P := by
  refine of_ok (fun _ ↦ Build.push_apply i f) (fun hf ↦ ⟨.emit f ?_, rfl⟩) hpost
  simpa using hi hf

/-- A new register, and the code that follows at once. -/
theorem take {k : Nat → Build α} (is : List Instruction)
    (hk : k f.registers.next f.taken = .ok a (f.taken.emit is))
    (his : f.taken.registers.Tidy → ∀ i ∈ is, i.Fits f.taken)
    (hnamed : f.registers.next < f.registers.high ∨ ∃ i ∈ is, f.registers.next ∈ i.registers)
    (hpost : P a (f.taken.emit is)) : Builds Nested b (Build.takeRegister >>= k) f P := by
  intro hf _
  rcases Nat.lt_or_ge f.registers.next Registers.limit with hlimit | hlimit
  · refine .of_ok ((bind_of_ok (Build.takeRegister_of_lt hf hlimit)).trans hk) ⟨?_, hpost⟩
    exact ⟨.take f hlimit (his (hf.raise hlimit)) hnamed, rfl⟩
  · exact .of_error (bind_of_error (Build.takeRegister_of_le hlimit)) (.refl b f)

theorem lower {step : Build Unit} {m : Nat}
    (hstep : f.registers.Tidy → step f = .ok () (f.downTo m)) (hm : f.registers.numLocals ≤ m)
    (hnext : m ≤ f.registers.next) : Builds Nested b step f (fun _ g ↦ g = f.downTo m) :=
  of_ok hstep (fun _ ↦ .lower f hm hnext) rfl

/-- Registers are released, and the lowest of them is taken again at once. -/
theorem replace {release : Build Unit} {k : Nat → Build α} {lo : Nat} (is : List Instruction)
    (hrelease : f.registers.Tidy → release f = .ok () (f.downTo lo))
    (hlo : f.registers.numLocals ≤ lo) (hnext : lo ≤ f.registers.next)
    (hk : k lo (f.downTo lo).taken = .ok a ((f.downTo lo).taken.emit is))
    (his : ∀ g, g.registers.Tidy → Within f g → f.registers.next ≤ g.registers.high →
      lo < g.registers.high → ∀ i ∈ is, i.Fits g)
    (hnamed : f.registers.Tidy → lo < f.registers.high ∨ ∃ i ∈ is, lo ∈ i.registers)
    (hpost : P a ((f.downTo lo).taken.emit is)) :
    Builds Nested b (release >>= fun _ ↦ Build.takeRegister >>= k) f P := by
  refine assuming fun hf _ ↦ (lower hrelease hlo hnext).bind ?_
  rintro _ _ - rfl
  refine take is hk (fun htidy ↦ ?_) (hnamed hf) hpost
  have hwithin := (within_downTo f lo).trans (within_taken (f.downTo lo))
  exact his _ htidy hwithin (hf.next_le.trans hwithin.high) (le_max_right f.registers.high (lo + 1))

/-- An instruction, and the release of the registers that were needed for it. -/
theorem pushRelease {i : Instruction} {release : Build Unit} {m : Nat}
    (hi : f.registers.Tidy → i.Fits f)
    (hrelease : f.registers.Tidy → release (f.emit [i]) = .ok () ((f.emit [i]).downTo m))
    (hm : f.registers.numLocals ≤ m) (hnext : m ≤ f.registers.next) :
    Builds Nested b (Build.push i >>= fun _ ↦ release) f
      (fun _ g ↦ g = (f.emit [i]).downTo m) := by
  refine (push (P := fun _ g ↦ g = f.emit [i]) hi rfl).bind ?_
  rintro _ _ - rfl
  exact lower (f := f.emit [i]) hrelease hm hnext

theorem get {k : OpenFunction → Build β} (hk : Builds Nested b (k f) f Q) :
    Builds Nested b (get >>= k) f Q := hk

theorem ofExcept {y : Except Failure α} (hy : y = .ok a) (hk : Builds Nested b (k a) f Q) :
    Builds Nested b (MonadExcept.ofExcept y >>= k) f Q := by
  subst hy
  exact hk

theorem intern (k : Constant) :
    Builds Nested b (Build.constantIndex k) f
      (fun index g ↦ index = (f.proto.constants.insert k).1 ∧ g = f.intern k) :=
  of_ok (fun _ ↦ Build.constantIndex_apply k f) (fun _ ↦ ⟨.intern f k, rfl⟩) ⟨rfl, rfl⟩

end Builds

end LuaLower
