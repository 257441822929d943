import LuaLower.Proofs.Supply.Operators

/-!
# Steps of a session that are supplied

What may be written and set is given by what the session allows: registers above the locals, locals
that are not constant, and upvalues for variables of the functions around that are not constant.
That stays so when variables are declared, since a new local is above the others.
-/

namespace LuaLower

open OpenFunction Build

variable {W : Nat → Prop} {U : String → Prop} {lo mid : Nat} {s t u : Session} {name : String}

/-! ## What may be assigned -/

/-- Whether the nearest local of a name, if there is one, may be assigned. -/
def Assignable (fs : List OpenFunction) (name : String) : Prop :=
  name = envName ∨ (fs.findSome? fun f ↦ f.local? name).any Local.isConst = false

theorem findSome?_local?_gained {fs gs : List OpenFunction} (h : List.Forall₂ Gained fs gs)
    (name : String) :
    (gs.findSome? fun f ↦ f.local? name) = fs.findSome? fun f ↦ f.local? name := by
  induction h with
  | nil => rfl
  | cons hf _ ih => rw [List.findSome?_cons, List.findSome?_cons, hf.local?_eq, ih]

theorem assignable_gained {fs gs : List OpenFunction} (h : List.Forall₂ Gained fs gs) :
    Assignable gs name ↔ Assignable fs name := by
  rw [Assignable, Assignable, findSome?_local?_gained h]

/-- A local is one of those before, or above them. -/
theorem OpenFunction.Developed.local?_cases {f g : OpenFunction} {l : Local} (hfg : f.Developed g)
    (hg : g.registers.Tidy) (hl : g.local? name = some l) :
    f.local? name = some l ∨ f.registers.numLocals ≤ l.register := by
  obtain ⟨ls, hls⟩ := hfg.locals
  have hregisters := hg.contiguous
  rw [Registers.numLocals, ← hls, List.map_append, List.length_append, Nat.add_comm, List.range_add,
    List.reverse_append] at hregisters
  have hnew := (List.append_inj hregisters (by simp)).1
  rw [local?, Registers.find?, ← hls, List.find?_append] at hl
  cases hfind : ls.find? fun l ↦ l.name == name with
  | none =>
    rw [hfind] at hl
    exact .inl hl
  | some l' =>
    rw [hfind] at hl
    cases hl
    have hmem := List.mem_map_of_mem (f := Local.register) (List.mem_of_find?_eq_some hfind)
    rw [hnew, List.mem_reverse, List.mem_map] at hmem
    obtain ⟨k, _, hk⟩ := hmem
    exact .inr (hk ▸ Nat.le_add_right _ _)

namespace Session

structure Allows (W : Nat → Prop) (U : String → Prop) (s : Session) : Prop where
  linked : Linked s.functions
  free : ∀ r, s.current.registers.numLocals ≤ r → W r
  assigned : ∀ name l, s.current.local? name = some l → l.isConst = false → W l.register
  upvalue : ∀ name, Assignable s.enclosing name → U name

theorem Stays.numLocals_eq (h : s.Stays t) :
    t.current.registers.numLocals = s.current.registers.numLocals :=
  congrArg List.length h.locals

theorem Allows.follows (h : s.Allows W U) (hst : s.Follows t) (ht : t.Ready) : t.Allows W U where
  linked := hst.linked h.linked
  free r hr := h.free r (hst.current.numLocals_le.trans hr)
  assigned name l hl hconst := (hst.current.local?_cases ht.tidy hl).elim
    (fun hl ↦ h.assigned name l hl hconst) (h.free l.register)
  upvalue name hname := h.upvalue name ((assignable_gained hst.enclosing).mp hname)

/-- A step that declares nothing goes on with the same locals, and in order. -/
structure Continued (s t : Session) : Prop extends s.Stays t where
  ready : t.Ready
  within : Within s.current t.current

theorem Continued.trans (hst : s.Continued t) (htu : t.Continued u) : s.Continued u :=
  ⟨hst.toStays.trans htu.toStays, htu.ready, hst.within.trans htu.within⟩

theorem Continued.allows (hst : s.Continued t) (hs : s.Allows W U) : t.Allows W U :=
  hs.follows hst.toFollows hst.ready

theorem Continued.refl (hs : s.Ready) : s.Continued s :=
  ⟨.refl s, hs, rfl, le_refl _, le_refl _, le_refl _⟩

end Session

/-! ## Rules -/

section Rules

variable {α β : Type} {x : Lower α} {k : α → Lower β} {P P' : α → Session → Prop}
  {Q : β → Session → Prop} {a : α}

/-- What is true of a step if it succeeds. -/
def Continues (step : Lower α) (s : Session) (post : α → Session → Prop) : Prop :=
  s.Ready → Yields step s (fun a t ↦ s.Continued t ∧ post a t) fun _ _ ↦ True

def Supplies (W : Nat → Prop) (U : String → Prop) (lo : Nat) (step : Lower α) (s : Session)
    (post : α → Session → Prop) : Prop :=
  Continues step s fun a t ↦ s.current.Supplied W U lo false t.current ∧ post a t

namespace Continues

theorem of_lowers {ts : List ParamTree} (hx : x.Still)
    (h : Lowers (fun _ _ ↦ True) 0 x s ts P) : Continues x s P := by
  intro hs
  cases hrun : x s with
  | ok a t =>
    obtain ⟨hst, hpost⟩ := (h hs (Nat.zero_le _)).result hrun
    exact .of_ok hrun ⟨⟨(hx s).result hrun, hst.ready hs, hst.within⟩, hpost⟩
  | error e t => exact .of_error hrun trivial

theorem onCurrent {step : Build α} {R : α → OpenFunction → Prop}
    (h : Builds (fun _ _ ↦ True) 0 step s.current R) (hstep : step.Neutral) :
    Continues (Lower.onCurrent step) s fun a t ↦
      s.current.SameVariables t.current ∧ R a t.current := by
  have hboth : Builds (fun _ _ ↦ True) 0 step s.current fun a g ↦
      s.current.SameVariables g ∧ R a g := by
    intro htidy hb
    cases hrun : step s.current with
    | ok a g =>
      obtain ⟨hg, hpost⟩ := (h htidy hb).result hrun
      exact .of_ok hrun ⟨hg, (hstep s.current).result hrun, hpost⟩
    | error e g => exact .of_error hrun ((h htidy hb).failure hrun)
  exact of_lowers (Lower.still_build hstep) (Lowers.onCurrent hboth)

theorem bind (hx : Continues x s P)
    (hk : ∀ a t, s.Continued t → P a t → Continues (k a) t Q) : Continues (x >>= k) s Q := by
  intro hs
  refine (hx hs).bind ?_
  rintro a t ⟨hst, hpost⟩
  refine (hk a t hst hpost hst.ready).mono ?_ fun _ _ _ ↦ trivial
  rintro b u ⟨htu, hpost⟩
  exact ⟨hst.trans htu, hpost⟩

theorem mono (hx : Continues x s P) (h : ∀ a t, s.Continued t → P a t → P' a t) :
    Continues x s P' := by
  intro hs
  refine (hx hs).mono ?_ fun _ _ _ ↦ trivial
  rintro a t ⟨hst, hpost⟩
  exact ⟨hst, h a t hst hpost⟩

theorem pure (hpost : P a s) : Continues (pure a) s P := fun hs ↦ yields_pure ⟨.refl hs, hpost⟩

theorem throw {e : Failure} : Continues (throw e : Lower α) s P := fun _ ↦ yields_throw trivial

theorem assuming (h : s.Ready → Continues x s P) : Continues x s P := fun hs ↦ h hs hs

theorem get {k : Session → Lower β} (hk : Continues (k s) s Q) : Continues (get >>= k) s Q := hk

theorem ofExcept {y : Except Failure α} (hk : ∀ a, y = .ok a → Continues (k a) s Q) :
    Continues (MonadExcept.ofExcept y >>= k) s Q := by
  cases hy : y with
  | ok a => exact hk a hy
  | error e => exact fun _ ↦ .of_error rfl trivial

end Continues

namespace Supplies

theorem bind (hx : Supplies W U lo x s P)
    (hk : ∀ a t, s.Continued t → P a t → Supplies W U lo (k a) t Q) :
    Supplies W U lo (x >>= k) s Q := by
  refine Continues.bind hx ?_
  rintro a t hst ⟨hcode, hpost⟩
  refine (hk a t hst hpost).mono ?_
  rintro b u _ ⟨hcode', hpost⟩
  exact ⟨hcode.trans hcode', hpost⟩

theorem mono (hx : Supplies W U lo x s P) (h : ∀ a t, s.Continued t → P a t → P' a t) :
    Supplies W U lo x s P' :=
  Continues.mono hx fun a t hst hpost ↦ ⟨hpost.1, h a t hst hpost.2⟩

theorem pure (hpost : P a s) : Supplies W U lo (pure a) s P := Continues.pure ⟨.refl _, hpost⟩

theorem lower (hx : Supplies W U mid x s P) (hlo : lo ≤ mid)
    (hmid : mid ≤ s.current.registers.next) :
    Supplies W U lo x s P :=
  Continues.mono hx fun _ _ _ hpost ↦ ⟨hpost.1.lower hlo hmid, hpost.2⟩

theorem onCurrent {step : Build α} {R : α → OpenFunction → Prop}
    (h : Furnishes W U lo step s.current R) (hstep : step.Neutral) :
    Supplies W U lo (Lower.onCurrent step) s fun a t ↦ R a t.current :=
  (Continues.onCurrent h hstep).mono fun _ _ _ hpost ↦ hpost.2

end Supplies

end Rules

/-! ## Names -/

theorem OpenFunction.Gained.supplied {f g : OpenFunction} (h : Gained f g) :
    f.Supplied W U lo false g := by
  obtain ⟨us, rfl⟩ := h
  exact .of_known (Gained.developed ⟨us, rfl⟩) rfl rfl fun _ hr ↦ hr

theorem Session.Found.supplied {place : Option Place} (h : s.Found name place t) :
    s.current.Supplied W U lo false t.current :=
  h.resolved.chain.innermost.supplied

theorem Session.LookedUp.supplied {v : Value} (h : s.LookedUp name v t)
    (hnext : W s.current.registers.next) :
    s.current.Supplied W U s.current.registers.next false t.current := by
  cases h with
  | ofPlace hfound => exact hfound.supplied
  | constant hfound _ => exact hfound.supplied.trans (supplied_intern _ _)
  | global hfound _ _ hplaced _ =>
    rw [← hfound.next_eq] at hnext ⊢
    exact hfound.supplied.trans (hplaced.supplied hnext)

/-- A step for an expression. The temporaries of its value start at the first free register. -/
def SuppliesValue (step : Lower Value) : Prop :=
  ∀ W U s, s.Allows W U → Supplies W U s.current.registers.next step s fun v t ↦
    t.current.Holds v s.current.registers.next t.current.registers.next

/-- A step for the left side of an assignment. -/
def SuppliesTarget (step : Lower Target) : Prop :=
  ∀ W U s, s.Allows W U → Supplies W U s.current.registers.next step s fun target t ↦
    target.Allowed W U t.current ∧
      t.current.HoldsTarget target s.current.registers.next t.current.registers.next

theorem Session.Allows.next (h : s.Allows W U) (hs : s.Ready) : W s.current.registers.next :=
  h.free _ hs.tidy.numLocals_le

theorem suppliesValue_lookup (types : TypeOracle) (name : String) :
    SuppliesValue (Lower.lookup types name) := by
  intro W U s hs
  refine Continues.assuming fun hready ↦ ?_
  refine (Continues.of_lowers (Lower.still_lookup types name) (lowers_lookup types name)).mono ?_
  intro v t _ hfound
  exact ⟨hfound.supplied (hs.next hready), hfound.holds hready⟩

theorem suppliesValue_lookupThis : SuppliesValue Lower.lookupThis := by
  intro W U s _
  refine Continues.assuming fun hready ↦ ?_
  refine (Continues.of_lowers Lower.still_lookupThis lowers_lookupThis).mono ?_
  rintro _ t - (⟨place, rfl, hfound⟩ | ⟨env, rfl, hfound, henv⟩)
  · exact ⟨hfound.supplied, hfound.holds hready⟩
  · exact ⟨hfound.supplied, upvalueIndex?_lt henv, hfound.next_eq⟩

theorem supplies_globalTarget (name : String) (hnext : W s.current.registers.next) :
    Supplies W U s.current.registers.next (Lower.onCurrent (globalTarget name)) s fun target t ↦
      target.Allowed W U t.current ∧
        t.current.HoldsTarget target s.current.registers.next t.current.registers.next := by
  refine Continues.assuming fun hready ↦ ?_
  refine (Continues.onCurrent (builds_globalTarget name hready.tidy.numLocals_le)
    (neutral_globalTarget name)).mono ?_
  rintro _ t - ⟨-, env, key, rfl, henv, hkey⟩
  exact ⟨hkey.supplied hnext, trivial, s.current.registers.next, ⟨henv, rfl⟩,
    hkey.holds.operand hkey.1⟩

theorem supplies_addGlobal (name : String) :
    Supplies W U lo (Lower.addGlobal name) s fun _ t ↦ t.current = s.current := by
  refine (Continues.of_lowers (Lower.still_addGlobal name) (lowers_addGlobal name)).mono ?_
  intro _ t _ ht
  exact ⟨ht ▸ .refl _, ht⟩

theorem supplies_place? (name : String) :
    Supplies W U lo (Lower.place? name) s fun place t ↦ s.Found name place t :=
  (Continues.of_lowers (Lower.still_place? name) (lowers_place? name)).mono
    fun _ _ _ hfound ↦ ⟨hfound.supplied, hfound⟩

/-- A name that is not constant names a local or an upvalue that may be assigned, or a global. -/
theorem suppliesTarget_name (name : String) : SuppliesTarget (Lower.nameTarget name) := by
  intro W U s hs
  refine Continues.assuming fun hready ↦ Continues.get ?_
  split
  case isTrue => exact .throw
  case isFalse hconst =>
    have hconst : (s.functions.findSome? fun f ↦ f.local? name).any Local.isConst = false := by
      simpa [Session.isConst] using hconst
    rw [Session.functions, List.findSome?_cons] at hconst
    refine Supplies.bind (supplies_place? name) ?_
    intro place t hst hfound
    cases hfound with
    | home hl =>
      rw [hl] at hconst
      exact .pure ⟨hs.assigned name _ hl hconst, hready.tidy.find?_lt hl, rfl⟩
    | captured hlocal _ ht hu =>
      rw [hlocal] at hconst
      have hnext := congrArg Registers.next ht.chain.innermost.registers
      exact .pure ⟨⟨name, hu, hs.upvalue name (.inr hconst)⟩, hu.lt, hnext⟩
    | missing hlocal _ ht =>
      have hnext := congrArg Registers.next ht.chain.innermost.registers
      simp only
      split
      · exact .throw
      · refine Supplies.bind (supplies_addGlobal name) ?_
        intro _ u _ hu
        have hunext : u.current.registers.next = s.current.registers.next := by
          rw [hu, hnext]
        rw [← hunext]
        exact supplies_globalTarget name (hunext ▸ hs.next hready)

end LuaLower
