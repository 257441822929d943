import LuaLower.Proofs.OpenFunction.Building
import Mathlib.Data.List.Forall2

/-!
# Steps that lower

What building is for one open function, lowering is for a session: the innermost function grows, the
functions around it gain upvalues and nothing else, and the owners are as before. A step that lowers
binds no local; a step that advances may.
-/

namespace LuaLower

open OpenFunction

namespace OpenFunction

def Gained (f g : OpenFunction) : Prop := ∃ us, g = f.capturing us

variable {f g h : OpenFunction}

theorem Gained.refl (f : OpenFunction) : Gained f f := ⟨[], (capturing_nil f).symm⟩

theorem Gained.trans (hfg : Gained f g) (hgh : Gained g h) : Gained f h := by
  obtain ⟨us, rfl⟩ := hfg
  obtain ⟨vs, rfl⟩ := hgh
  exact ⟨us ++ vs, by simp [capturing, List.append_assoc]⟩

theorem Gained.registers (hfg : Gained f g) : g.registers = f.registers := by
  obtain ⟨us, rfl⟩ := hfg
  rfl

theorem Gained.code (hfg : Gained f g) : g.proto.code = f.proto.code := by
  obtain ⟨us, rfl⟩ := hfg
  rfl

theorem Gained.extends {Nested : ParamTree → Prototype → Prop} {b : Nat} (hfg : Gained f g) :
    Extends Nested b f [] g := by
  obtain ⟨us, rfl⟩ := hfg
  exact ⟨.capture f us, rfl⟩

end OpenFunction

variable {Nested : ParamTree → Prototype → Prop} {b c : Nat} {s t u : Session}
  {ts us : List ParamTree}

theorem forall₂_gained_refl (fs : List OpenFunction) : List.Forall₂ Gained fs fs :=
  List.forall₂_same.mpr fun f _ ↦ Gained.refl f

theorem forall₂_gained_trans {fs gs hs : List OpenFunction} (hfg : List.Forall₂ Gained fs gs)
    (hgh : List.Forall₂ Gained gs hs) : List.Forall₂ Gained fs hs := by
  induction hfg generalizing hs with
  | nil => exact hgh
  | cons hf _ ih =>
    cases hgh with
    | cons hg hgs => exact .cons (hf.trans hg) (ih hgs)

namespace Session

/-- No field access is under way, and the registers of the innermost function are tidy. -/
structure Ready (s : Session) : Prop where
  owners : s.names.owners = []
  tidy : s.current.registers.Tidy

/-- No temporary is in use. -/
def Settled (s : Session) : Prop := s.current.registers.next = s.current.registers.numLocals

structure Grows (Nested : ParamTree → Prototype → Prop) (b : Nat) (s : Session)
    (ts : List ParamTree) (t : Session) : Prop where
  current : OpenFunction.Grows Nested b s.current ts t.current
  enclosing : List.Forall₂ Gained s.enclosing t.enclosing
  owners : t.names.owners = s.names.owners

structure Extends (Nested : ParamTree → Prototype → Prop) (b : Nat) (s : Session)
    (ts : List ParamTree) (t : Session) : Prop extends Session.Grows Nested b s ts t where
  locals : t.current.registers.locals = s.current.registers.locals

/-- What is left of a session after a failure. -/
structure Kept (b : Nat) (s t : Session) : Prop where
  current : OpenFunction.Kept b s.current t.current
  enclosing : List.Forall₂ Gained s.enclosing t.enclosing
  owners : t.names.owners = s.names.owners

theorem Kept.refl (b : Nat) (s : Session) : Session.Kept b s s :=
  ⟨.refl b s.current, forall₂_gained_refl _, rfl⟩

theorem Kept.trans (hst : Session.Kept b s t) (htu : Session.Kept b t u) : Session.Kept b s u where
  current := hst.current.trans htu.current
  enclosing := forall₂_gained_trans hst.enclosing htu.enclosing
  owners := htu.owners.trans hst.owners

namespace Grows

theorem refl (s : Session) : Session.Grows Nested b s [] s :=
  ⟨.refl s.current, forall₂_gained_refl _, rfl⟩

theorem trans (hst : Session.Grows Nested b s ts t) (htu : Session.Grows Nested b t us u) :
    Session.Grows Nested b s (ts ++ us) u where
  current := hst.current.trans htu.current
  enclosing := forall₂_gained_trans hst.enclosing htu.enclosing
  owners := htu.owners.trans hst.owners

theorem kept (hst : Session.Grows Nested b s ts t) (hb : b ≤ s.current.proto.code.size) :
    Session.Kept b s t :=
  ⟨hst.current.kept hb, hst.enclosing, hst.owners⟩

theorem size_le (hst : Session.Grows Nested b s ts t) :
    s.current.proto.code.size ≤ t.current.proto.code.size :=
  ((hst.current.mono (Nat.zero_le b)).kept (Nat.zero_le _)).size_le

theorem ready (hst : Session.Grows Nested b s ts t) (hs : s.Ready) : t.Ready :=
  ⟨hst.owners.trans hs.owners, hst.current.tidy hs.tidy⟩

end Grows

namespace Extends

theorem refl (s : Session) : Session.Extends Nested b s [] s := ⟨.refl s, rfl⟩

theorem trans (hst : Session.Extends Nested b s ts t) (htu : Session.Extends Nested b t us u) :
    Session.Extends Nested b s (ts ++ us) u :=
  ⟨hst.toGrows.trans htu.toGrows, htu.locals.trans hst.locals⟩

theorem innermost (hst : Session.Extends Nested b s ts t) :
    LuaLower.Extends Nested b s.current ts t.current :=
  ⟨hst.current, hst.locals⟩

theorem mono (hst : Session.Extends Nested b s ts t) (hc : c ≤ b) :
    Session.Extends Nested c s ts t :=
  ⟨⟨hst.current.mono hc, hst.enclosing, hst.owners⟩, hst.locals⟩

theorem numLocals (hst : Session.Extends Nested b s ts t) :
    t.current.registers.numLocals = s.current.registers.numLocals :=
  hst.innermost.numLocals

theorem within (hst : Session.Extends Nested b s ts t) : Within s.current t.current :=
  hst.innermost.within

/-- A step on the innermost function alone. -/
theorem of_current {f : OpenFunction} (h : LuaLower.Extends Nested b s.current ts f) :
    Session.Extends Nested b s ts { s with current := f } :=
  ⟨⟨h.grows, forall₂_gained_refl _, rfl⟩, h.locals⟩

end Extends

end Session

/-! ## Rules -/

section Rules

variable {α β : Type} {x : Lower α} {k : α → Lower β} {P P' : α → Session → Prop}
  {Q : β → Session → Prop} {a : α}

def Lowers (Nested : ParamTree → Prototype → Prop) (b : Nat) (step : Lower α) (s : Session)
    (ts : List ParamTree) (post : α → Session → Prop) : Prop :=
  s.Ready → b ≤ s.current.proto.code.size →
    Yields step s (fun a t ↦ s.Extends Nested b ts t ∧ post a t) (fun _ t ↦ s.Kept b t)

namespace Lowers

theorem pure (hpost : P a s) : Lowers Nested b (pure a) s [] P :=
  fun _ _ ↦ yields_pure ⟨.refl s, hpost⟩

theorem throw {e : Failure} : Lowers Nested b (throw e : Lower α) s ts P :=
  fun _ _ ↦ yields_throw (.refl b s)

theorem bind (hx : Lowers Nested b x s ts P)
    (hk : ∀ a t, s.Extends Nested b ts t → P a t → Lowers Nested b (k a) t us Q) :
    Lowers Nested b (x >>= k) s (ts ++ us) Q := by
  intro hs hb
  refine (hx hs hb).bind ?_
  rintro a t ⟨hst, hpost⟩
  refine (hk a t hst hpost (hst.ready hs) (hb.trans hst.size_le)).mono ?_ ?_
  · rintro c u ⟨htu, hpost⟩
    exact ⟨hst.trans htu, hpost⟩
  · intro e u hkept
    exact (hst.kept hb).trans hkept

/-- A step that adds no nested function comes last. -/
theorem bind_last (hx : Lowers Nested b x s ts P)
    (hk : ∀ a t, s.Extends Nested b ts t → P a t → Lowers Nested b (k a) t [] Q) :
    Lowers Nested b (x >>= k) s ts Q := by
  have h := hx.bind hk
  rwa [List.append_nil] at h

theorem mono (hx : Lowers Nested b x s ts P)
    (h : ∀ a t, s.Extends Nested b ts t → P a t → P' a t) : Lowers Nested b x s ts P' := by
  intro hs hb
  refine (hx hs hb).mono ?_ (fun _ _ h ↦ h)
  rintro a t ⟨hst, hpost⟩
  exact ⟨hst, h a t hst hpost⟩

/-- Less of the code before a step may be relied on afterwards. -/
theorem weaken (hx : Lowers Nested c x s ts P) (hc : b ≤ c)
    (hsize : c ≤ s.current.proto.code.size) :
    Lowers Nested b x s ts P := by
  intro hs _
  refine (hx hs hsize).mono ?_ ?_
  · rintro a t ⟨hst, hpost⟩
    exact ⟨hst.mono hc, hpost⟩
  · intro e t hkept
    exact { hkept with current := hkept.current.mono hc }

theorem assuming (h : s.Ready → b ≤ s.current.proto.code.size → Lowers Nested b x s ts P) :
    Lowers Nested b x s ts P :=
  fun hs hb ↦ h hs hb hs hb

theorem onCurrent_exact {step : Build α} {R : α → OpenFunction → Prop}
    (h : Builds Nested b step s.current R) :
    Lowers Nested b (Lower.onCurrent step) s []
      (fun a t ↦ R a t.current ∧ t = { s with current := t.current }) := by
  intro hs hb
  refine (Lower.yields_onCurrent (h hs.tidy hb)).mono ?_ ?_
  · rintro a t ⟨⟨hst, hpost⟩, ht⟩
    rw [ht]
    exact ⟨.of_current hst, hpost, rfl⟩
  · rintro e t ⟨hkept, ht⟩
    rw [ht]
    exact ⟨hkept, forall₂_gained_refl _, rfl⟩

theorem onCurrent {step : Build α} {R : α → OpenFunction → Prop}
    (h : Builds Nested b step s.current R) :
    Lowers Nested b (Lower.onCurrent step) s [] (fun a t ↦ R a t.current) :=
  (onCurrent_exact h).mono fun _ _ _ hpost ↦ hpost.1

theorem get {k : Session → Lower β} (hk : Lowers Nested b (k s) s us Q) :
    Lowers Nested b (get >>= k) s us Q := hk

theorem ofExcept {y : Except Failure α} (hk : ∀ a, y = .ok a → Lowers Nested b (k a) s us Q) :
    Lowers Nested b (MonadExcept.ofExcept y >>= k) s us Q := by
  cases hy : y with
  | ok a => exact hk a hy
  | error e => exact fun _ _ ↦ .of_error rfl (.refl b s)

end Lowers

/-- A step from one settled session to another. -/
def Advances (Nested : ParamTree → Prototype → Prop) (b : Nat) (step : Lower Unit) (s : Session)
    (ts : List ParamTree) : Prop :=
  s.Ready → s.Settled → b ≤ s.current.proto.code.size →
    Yields step s (fun _ t ↦ s.Grows Nested b ts t ∧ t.Settled) (fun _ t ↦ s.Kept b t)

namespace Advances

variable {step rest : Lower Unit}

theorem bind (hstep : Advances Nested b step s ts)
    (hrest : ∀ t, s.Grows Nested b ts t → t.Settled → Advances Nested b rest t us) :
    Advances Nested b (step >>= fun _ ↦ rest) s (ts ++ us) := by
  intro hs hsettled hb
  refine (hstep hs hsettled hb).bind ?_
  rintro - t ⟨hst, ht⟩
  refine (hrest t hst ht (hst.ready hs) ht (hb.trans hst.size_le)).mono ?_ ?_
  · rintro - u ⟨htu, hu⟩
    exact ⟨hst.trans htu, hu⟩
  · intro e u hkept
    exact (hst.kept hb).trans hkept

/-- A step that adds no nested function comes first. -/
theorem bind_first (hstep : Advances Nested b step s [])
    (hrest : ∀ t, s.Grows Nested b [] t → t.Settled → Advances Nested b rest t us) :
    Advances Nested b (step >>= fun _ ↦ rest) s us :=
  hstep.bind hrest

end Advances

end Rules

end LuaLower
