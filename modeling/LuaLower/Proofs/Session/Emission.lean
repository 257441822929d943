import LuaLower.Proofs.OpenFunction.Emission
import LuaLower.Proofs.Session.Extension

/-!
# Steps that translate

A step translates if it lowers and appends a block to the code of the innermost function. A step
from one settled session to another that does so proceeds; its block may write any register.
-/

namespace LuaLower

open OpenFunction

variable {Nested : ParamTree → Prototype → Prop} {W : Nat → Prop} {b : Nat} {s t : Session}
  {ts us : List ParamTree}

/-- The registers that are free, and those of the locals with given names, may be written. -/
structure Session.Covers (s : Session) (W : Nat → Prop) (names : List String) : Prop where
  free : ∀ r, s.current.registers.next ≤ r → W r
  assigned : ∀ name ∈ names, ∀ l, s.current.local? name = some l → W l.register

namespace Session.Covers

variable {names others : List String}

theorem trivial (s : Session) (names : List String) : s.Covers (fun _ ↦ True) names :=
  ⟨fun _ _ ↦ True.intro, fun _ _ _ _ ↦ True.intro⟩

theorem mono (h : s.Covers W names) (hsub : others ⊆ names) : s.Covers W others :=
  ⟨h.free, fun name hname ↦ h.assigned name (hsub hname)⟩

theorem left (h : s.Covers W (names ++ others)) : s.Covers W names :=
  h.mono (List.subset_append_left _ _)

theorem right (h : s.Covers W (names ++ others)) : s.Covers W others :=
  h.mono (List.subset_append_right _ _)

theorem next (h : s.Covers W names) : W s.current.registers.next := h.free _ (le_refl _)

/-- What may be written depends on the locals and the free registers only. -/
theorem of_extends (h : s.Covers W names) (hst : s.Extends Nested b ts t)
    (hfree : ∀ r, t.current.registers.next ≤ r → W r) : t.Covers W names := by
  have hlocal : t.current.local? = s.current.local? := by
    funext name
    rw [OpenFunction.local?, Registers.find?, hst.locals, OpenFunction.local?, Registers.find?]
  refine ⟨hfree, ?_⟩
  rw [hlocal]
  exact h.assigned

theorem later (h : s.Covers W names) (hst : s.Extends Nested b ts t)
    (hnext : s.current.registers.next ≤ t.current.registers.next) : t.Covers W names :=
  h.of_extends hst fun r hr ↦ h.free r (hnext.trans hr)

end Session.Covers

/-! ## Rules -/

section Rules

variable {α β : Type} {x : Lower α} {k : α → Lower β} {P P' : α → Session → Prop}
  {Q : β → Session → Prop} {a : α}

def Translates (Nested : ParamTree → Prototype → Prop) (W : Nat → Prop) (b : Nat) (step : Lower α)
    (s : Session) (ts : List ParamTree) (post : α → Session → Prop) : Prop :=
  Lowers Nested b step s ts (fun a t ↦ s.current.Emitted W false t.current ∧ post a t)

namespace Translates

theorem of_lowers (h : Lowers Nested b x s ts P)
    (hcode : ∀ a t, P a t → s.current.Emitted W false t.current) : Translates Nested W b x s ts P :=
  h.mono fun a t _ hpost ↦ ⟨hcode a t hpost, hpost⟩

theorem lowers (h : Translates Nested W b x s ts P) : Lowers Nested b x s ts P :=
  Lowers.mono h fun _ _ _ hpost ↦ hpost.2

theorem pure (hpost : P a s) : Translates Nested W b (pure a) s [] P :=
  Lowers.pure ⟨.refl _, hpost⟩

theorem throw {e : Failure} : Translates Nested W b (throw e : Lower α) s ts P := Lowers.throw

theorem bind (hx : Translates Nested W b x s ts P)
    (hk : ∀ a t, s.Extends Nested b ts t → P a t → Translates Nested W b (k a) t us Q) :
    Translates Nested W b (x >>= k) s (ts ++ us) Q := by
  refine Lowers.bind hx ?_
  rintro a t hst ⟨hcode, hpost⟩
  refine (hk a t hst hpost).mono ?_
  rintro c u _ ⟨hcode', hpost'⟩
  exact ⟨hcode.trans hcode', hpost'⟩

theorem bind_last (hx : Translates Nested W b x s ts P)
    (hk : ∀ a t, s.Extends Nested b ts t → P a t → Translates Nested W b (k a) t [] Q) :
    Translates Nested W b (x >>= k) s ts Q := by
  have h := hx.bind hk
  rwa [List.append_nil] at h

theorem mono (hx : Translates Nested W b x s ts P)
    (h : ∀ a t, s.Extends Nested b ts t → P a t → P' a t) : Translates Nested W b x s ts P' := by
  refine Lowers.mono hx ?_
  rintro a t hst ⟨hcode, hpost⟩
  exact ⟨hcode, h a t hst hpost⟩

theorem assuming (h : s.Ready → b ≤ s.current.proto.code.size → Translates Nested W b x s ts P) :
    Translates Nested W b x s ts P :=
  Lowers.assuming h

theorem onCurrent {step : Build α} {R : α → OpenFunction → Prop}
    (h : Emits Nested W b step s.current R) :
    Translates Nested W b (Lower.onCurrent step) s [] (fun a t ↦ R a t.current) :=
  Lowers.onCurrent h

theorem get {k : Session → Lower β} (hk : Translates Nested W b (k s) s us Q) :
    Translates Nested W b (get >>= k) s us Q := hk

theorem ofExcept {y : Except Failure α}
    (hk : ∀ a, y = .ok a → Translates Nested W b (k a) s us Q) :
    Translates Nested W b (MonadExcept.ofExcept y >>= k) s us Q :=
  Lowers.ofExcept hk

end Translates

def Proceeds (Nested : ParamTree → Prototype → Prop) (b : Nat) (step : Lower Unit) (s : Session)
    (ts : List ParamTree) : Prop :=
  s.Ready → s.Settled → b ≤ s.current.proto.code.size →
    Yields step s
      (fun _ t ↦ s.Grows Nested b ts t ∧ t.Settled ∧
        s.current.Emitted (fun _ ↦ True) false t.current)
      (fun _ t ↦ s.Kept b t)

namespace Proceeds

variable {step rest : Lower Unit}

theorem advances (h : Proceeds Nested b step s ts) : Advances Nested b step s ts :=
  fun hs hsettled hb ↦ (h hs hsettled hb).mono (fun _ _ h ↦ ⟨h.1, h.2.1⟩) fun _ _ h ↦ h

theorem pure : Proceeds Nested b (pure ()) s [] :=
  fun _ hs _ ↦ yields_pure ⟨.refl s, hs, .refl _⟩

theorem throw {e : Failure} : Proceeds Nested b (throw e) s ts :=
  fun _ _ _ ↦ yields_throw (.refl b s)

theorem bind (hstep : Proceeds Nested b step s ts)
    (hrest : ∀ t, s.Grows Nested b ts t → t.Settled → Proceeds Nested b rest t us) :
    Proceeds Nested b (step >>= fun _ ↦ rest) s (ts ++ us) := by
  intro hs hsettled hb
  refine (hstep hs hsettled hb).bind ?_
  rintro - t ⟨hst, ht, hcode⟩
  refine (hrest t hst ht (hst.ready hs) ht (hb.trans hst.size_le)).mono ?_ ?_
  · rintro - u ⟨htu, hu, hcode'⟩
    exact ⟨hst.trans htu, hu, hcode.trans hcode'⟩
  · intro e u hkept
    exact (hst.kept hb).trans hkept

/-- A step that adds no nested function comes first. -/
theorem bind_first (hstep : Proceeds Nested b step s [])
    (hrest : ∀ t, s.Grows Nested b [] t → t.Settled → Proceeds Nested b rest t us) :
    Proceeds Nested b (step >>= fun _ ↦ rest) s us :=
  hstep.bind hrest

theorem get {k : Session → Lower Unit} (hk : Proceeds Nested b (k s) s ts) :
    Proceeds Nested b (get >>= k) s ts := hk

/-- A step that binds no local and gives back every register that it takes. -/
theorem of_translates
    (h : s.Settled → Translates Nested (fun _ ↦ True) b step s ts
      (fun _ t ↦ t.current.registers.next = s.current.registers.next)) :
    Proceeds Nested b step s ts := by
  intro hs hsettled hb
  refine (h hsettled hs hb).mono ?_ (fun _ _ h ↦ h)
  rintro - t ⟨hst, hcode, hnext⟩
  exact ⟨hst.toGrows, hnext.trans (hsettled.trans hst.numLocals.symm), hcode⟩

end Proceeds

end Rules

end LuaLower
