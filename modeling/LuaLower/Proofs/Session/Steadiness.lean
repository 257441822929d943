import LuaLower.Lowering.Body
import LuaLower.Proofs.NearestVariable
import LuaLower.Proofs.OpenFunction.Variables

/-!
# What every step leaves in place

Whatever a step of the lowering does, and even if it fails, the innermost function keeps the locals,
upvalues and nested functions that it has, the functions around it gain upvalues at most, and a
chain that is linked stays linked. A step that declares no variable leaves the locals as they are.
None of this depends on the registers being tidy.
-/

namespace LuaLower

open OpenFunction Build

variable {f g h : OpenFunction} {s t u : Session} {α β : Type}

namespace OpenFunction

structure Developed (f g : OpenFunction) : Prop where
  locals : f.registers.locals <:+ g.registers.locals
  upvalues : f.proto.upvalues <+: g.proto.upvalues
  children : f.proto.children <+: g.proto.children

theorem Developed.refl (f : OpenFunction) : f.Developed f :=
  ⟨List.suffix_rfl, List.prefix_rfl, List.prefix_rfl⟩

theorem Developed.trans (hfg : f.Developed g) (hgh : g.Developed h) : f.Developed h where
  locals := hfg.locals.trans hgh.locals
  upvalues := hfg.upvalues.trans hgh.upvalues
  children := hfg.children.trans hgh.children

theorem SameVariables.developed (hfg : f.SameVariables g) : f.Developed g where
  locals := hfg.locals ▸ List.suffix_rfl
  upvalues := hfg.upvalues ▸ List.prefix_rfl
  children := hfg.children ▸ List.prefix_rfl

theorem Gained.developed (hfg : f.Gained g) : f.Developed g := by
  obtain ⟨us, rfl⟩ := hfg
  exact ⟨List.suffix_rfl, List.prefix_append _ us, List.prefix_rfl⟩

/-- A local that a function has stays there, whatever it declares later. -/
theorem Developed.isSome_local? {name : String} (hfg : f.Developed g)
    (hname : (f.local? name).isSome) : (g.local? name).isSome := by
  rw [local?, Registers.find?, List.find?_isSome] at hname ⊢
  obtain ⟨l, hl, hname⟩ := hname
  exact ⟨l, hfg.locals.subset hl, hname⟩

end OpenFunction

theorem forall₂_trans {R : OpenFunction → OpenFunction → Prop}
    (htrans : ∀ {f g h}, R f g → R g h → R f h) {fs gs hs : List OpenFunction}
    (hfg : List.Forall₂ R fs gs) (hgh : List.Forall₂ R gs hs) : List.Forall₂ R fs hs := by
  induction hfg generalizing hs with
  | nil => exact hgh
  | cons hf _ ih =>
    cases hgh with
    | cons hg hgs => exact .cons (htrans hf hg) (ih hgs)

/-- One session follows another in which the same functions are open. -/
structure Session.Follows (s t : Session) : Prop where
  current : s.current.Developed t.current
  enclosing : List.Forall₂ Gained s.enclosing t.enclosing
  owners : t.names.owners = s.names.owners
  globals : ∀ x, s.names.knowsGlobal x = true → t.names.knowsGlobal x = true
  linked : Linked s.functions → Linked t.functions

namespace Session.Follows

theorem refl (s : Session) : s.Follows s :=
  ⟨.refl _, forall₂_gained_refl _, rfl, fun _ h ↦ h, id⟩

theorem trans (hst : s.Follows t) (htu : t.Follows u) : s.Follows u where
  current := hst.current.trans htu.current
  enclosing := forall₂_gained_trans hst.enclosing htu.enclosing
  owners := htu.owners.trans hst.owners
  globals x hx := htu.globals x (hst.globals x hx)
  linked hs := htu.linked (hst.linked hs)

/-- Only the innermost function has changed. -/
theorem of_current (hcurrent : s.current.Developed f)
    (hlinked : Linked s.functions → Linked (f :: s.enclosing)) :
    s.Follows { s with current := f } :=
  ⟨hcurrent, forall₂_gained_refl _, rfl, fun _ h ↦ h, hlinked⟩

theorem of_sameVariables (hf : s.current.SameVariables f) : s.Follows { s with current := f } :=
  of_current hf.developed (ChainStep.work hf.upvalues hf.locals).linked

/-- Only what is known about globals has changed. -/
theorem of_names {names : Names} (howners : names.owners = s.names.owners)
    (hglobals : ∀ x, s.names.knowsGlobal x = true → names.knowsGlobal x = true) :
    s.Follows { s with names } :=
  ⟨.refl _, forall₂_gained_refl _, howners, hglobals, id⟩

theorem functions (h : s.Follows t) : List.Forall₂ Developed s.functions t.functions :=
  .cons h.current (h.enclosing.imp fun _ _ hfg ↦ hfg.developed)

end Session.Follows

theorem Names.knowsGlobal_addGlobals {n : Names} {x : String} (names : List String)
    (hx : n.knowsGlobal x = true) : (names.foldl Names.addGlobal n).knowsGlobal x = true := by
  induction names generalizing n with
  | nil => exact hx
  | cons name names ih => exact ih (by simp [hx])

/-- One session follows another, and the innermost function has the same locals in both. -/
structure Session.Stays (s t : Session) : Prop extends s.Follows t where
  locals : t.current.registers.locals = s.current.registers.locals

namespace Session.Stays

theorem refl (s : Session) : s.Stays s := ⟨.refl s, rfl⟩

theorem trans (hst : s.Stays t) (htu : t.Stays u) : s.Stays u :=
  ⟨hst.toFollows.trans htu.toFollows, htu.locals.trans hst.locals⟩

theorem of_sameVariables (hf : s.current.SameVariables f) : s.Stays { s with current := f } :=
  ⟨.of_sameVariables hf, hf.locals⟩

theorem local?_eq (h : s.Stays t) (name : String) :
    t.current.local? name = s.current.local? name := by
  rw [local?, local?, Registers.find?, Registers.find?, h.locals]

end Session.Stays

namespace Lower

def Steady (step : Lower α) : Prop :=
  ∀ s, Yields step s (fun _ t ↦ s.Follows t) (fun _ t ↦ s.Follows t)

def Still (step : Lower α) : Prop :=
  ∀ s, Yields step s (fun _ t ↦ s.Stays t) (fun _ t ↦ s.Stays t)

theorem Still.steady {step : Lower α} (h : Still step) : Steady step :=
  fun s ↦ (h s).mono (fun _ _ h ↦ h.toFollows) fun _ _ h ↦ h.toFollows

theorem onCurrent_eq_ok {step : Build α} {a : α} (h : onCurrent step s = .ok a t) :
    step s.current = .ok a t.current ∧ t = { s with current := t.current } := by
  cases hstep : step s.current with
  | ok b f =>
    cases (onCurrent_of_ok hstep).symm.trans h
    exact ⟨rfl, rfl⟩
  | error e f => cases (onCurrent_of_error hstep).symm.trans h

/-! ## Rules -/

theorem still_pure (a : α) : Still (pure a) := fun s ↦ yields_pure (.refl s)

theorem still_throw (e : Failure) : Still (throw e : Lower α) := fun s ↦ yields_throw (.refl s)

theorem steady_bind {x : Lower α} {k : α → Lower β} (hx : Steady x) (hk : ∀ a, Steady (k a)) :
    Steady (x >>= k) := by
  intro s
  refine (hx s).bind fun a t hst ↦ ?_
  exact (hk a t).mono (fun _ _ htu ↦ hst.trans htu) (fun _ _ htu ↦ hst.trans htu)

theorem still_bind {x : Lower α} {k : α → Lower β} (hx : Still x) (hk : ∀ a, Still (k a)) :
    Still (x >>= k) := by
  intro s
  refine (hx s).bind fun a t hst ↦ ?_
  exact (hk a t).mono (fun _ _ htu ↦ hst.trans htu) (fun _ _ htu ↦ hst.trans htu)

theorem still_get : Still get := fun s ↦ .of_ok rfl (.refl s)

theorem still_build {step : Build α} (h : step.Neutral) : Still (onCurrent step) := by
  intro s
  refine (yields_onCurrent (h s.current)).mono ?_ ?_
  · rintro _ t ⟨ht, hs⟩
    rw [hs]
    exact .of_sameVariables ht
  · rintro _ t ⟨ht, hs⟩
    rw [hs]
    exact .of_sameVariables ht

/-! ## Names -/

theorem still_place? (name : String) : Still (place? name) := by
  intro s
  have hgained := yields_place?_gained name s
  have hnames :
      Yields (place? name) s (fun _ t ↦ t.names = s.names) (fun _ t ↦ t.names = s.names) := by
    cases hlocal : s.current.local? name with
    | some l => exact .of_ok (place?_of_local hlocal) rfl
    | none =>
      cases hrun : capture name s.current s.enclosing with
      | ok u chain => exact .of_ok (place?_of_capture hlocal hrun) rfl
      | error e chain => exact .of_error (place?_of_capture_error hlocal hrun) rfl
  have hstays {t : Session} (hgained : List.Forall₂ Gained s.functions t.functions)
      (hnames : t.names = s.names) (hstep : ChainStep s.functions t.functions) : s.Stays t := by
    rw [Session.functions, Session.functions, List.forall₂_cons] at hgained
    refine ⟨⟨hgained.1.developed, hgained.2, by rw [hnames], fun x hx ↦ ?_, hstep.linked⟩,
      by rw [hgained.1.registers]⟩
    rwa [hnames]
  cases hrun : place? name s with
  | ok place t =>
    exact .of_ok hrun (hstays (hgained.result hrun) (hnames.result hrun) (.resolve hrun))
  | error e t =>
    exact .of_error hrun (hstays (hgained.failure hrun) (hnames.failure hrun) (.fail hrun))

theorem still_addGlobal (name : String) : Still (addGlobal name) :=
  fun s ↦ .of_ok rfl ⟨.of_names rfl fun x hx ↦ by simp [hx], rfl⟩

theorem still_hoist (body : List Stmt) : Still (hoist body) := by
  intro s
  refine .of_ok rfl ⟨.of_names (Names.owners_addGlobals _ _) fun x hx ↦ ?_, rfl⟩
  exact Names.knowsGlobal_addGlobals _ hx

theorem still_lookup (types : TypeOracle) (name : String) : Still (lookup types name) := by
  refine still_bind still_get fun s ↦ ?_
  simp only
  split
  · exact still_bind (still_build (neutral_stringIndex name)) fun k ↦
      still_bind (still_build (neutral_toKey _)) fun key ↦ still_pure _
  · refine still_bind (still_place? name) fun place ↦ ?_
    split
    · exact still_pure _
    · split
      · exact still_bind (still_build (neutral_constantIndex _)) fun k ↦ still_pure _
      · split
        · exact still_build (neutral_globalValue name)
        · exact still_throw _

theorem still_lookupThis : Still lookupThis := by
  refine still_bind (still_place? "this") fun place ↦ ?_
  split
  · exact still_pure _
  · refine still_bind still_get fun s ↦ ?_
    split
    · exact still_pure _
    · exact still_throw _

theorem still_field (types : TypeOracle) (owner : Place) (name : String) :
    Still (withOwner owner.toValue (lookup types name)) := by
  rw [withOwner_lookup]
  exact still_build (neutral_bind (neutral_stringIndex name) fun k ↦ by simp)

theorem still_nameTarget (name : String) : Still (nameTarget name) := by
  refine still_bind still_get fun s ↦ ?_
  split
  · exact still_throw _
  · refine still_bind (still_place? name) fun place ↦ ?_
    split
    · exact still_pure _
    · exact still_pure _
    · split
      · exact still_throw _
      · exact still_bind (still_addGlobal name) fun _ ↦ still_build (neutral_globalTarget name)

/-! ## Locals and nested functions -/

/-- A register that was just taken becomes a local. -/
theorem steady_bindNew {step : Build Nat} (name : String) (isConst : Bool)
    (h : step.GivesRegister) :
    Steady (onCurrent (do bindLocal name (← step) isConst)) := by
  intro s
  rw [onCurrent_bind]
  refine ((yields_onCurrent (h s.current)).mono (fun _ _ h ↦ h) ?_).bind ?_
  · rintro _ t ⟨ht, hs⟩
    rw [hs]
    exact .of_sameVariables ht
  · rintro r t ⟨⟨hr, ht⟩, hs⟩
    rw [hs]
    have hbind : bindLocal name r isConst t.current =
      .ok () { t.current with registers := t.current.registers.bind name r isConst } := rfl
    refine .of_ok (onCurrent_of_ok hbind) ((Session.Follows.of_sameVariables ht).trans ?_)
    refine .of_current ⟨?_, List.prefix_rfl, List.prefix_rfl⟩ (ChainStep.declare hr hbind).linked
    exact List.suffix_cons _ _

theorem steady_bindParams (names : List String) : Steady (onCurrent (bindParams names)) := by
  induction names with
  | nil => exact (still_pure ()).steady
  | cons name names ih =>
    have htake := steady_bindNew name false givesRegister_takeRegister
    rw [onCurrent_bind] at htake
    rw [bindParams, onCurrent_bind]
    simp only [onCurrent_bind, ← bind_assoc]
    exact steady_bind htake fun _ ↦ ih

/-- A function that was opened is there to be closed, and the one around it gains no local. -/
theorem still_inFunction {step : Lower Unit} (h : Steady step) : Still (inFunction step) := by
  intro s
  have hstep := h { s with current := s.current.inside, enclosing := s.functions }
  have hback {t : Session} {parent : OpenFunction} {outer : List OpenFunction}
      (ht : Session.Follows { s with current := s.current.inside, enclosing := s.functions } t)
      (hparent : t.enclosing = parent :: outer) :
      s.Stays { t with current := parent.afterNested t.current, enclosing := outer } := by
    have hgained := ht.enclosing
    rw [hparent, Session.functions, List.forall₂_cons] at hgained
    have hafter : parent.SameVariables (parent.afterNested t.current) := ⟨rfl, rfl, rfl⟩
    refine ⟨⟨hgained.1.developed.trans hafter.developed, hgained.2, ht.owners, ht.globals, ?_⟩,
      by rw [hafter.locals, hgained.1.registers]⟩
    intro hs
    have hlinked := ht.linked (ChainStep.linked (.enter s.current s.enclosing) hs)
    rw [Session.functions, hparent] at hlinked
    exact ChainStep.linked (.work hafter.upvalues hafter.locals) hlinked.2
  have hopen {t : Session}
      (ht : Session.Follows { s with current := s.current.inside, enclosing := s.functions } t) :
      ∃ parent outer, t.enclosing = parent :: outer := by
    have hlength := ht.enclosing.length_eq
    cases houter : t.enclosing with
    | nil => simp [houter, Session.functions] at hlength
    | cons parent outer => exact ⟨parent, outer, rfl⟩
  cases hrun : step { s with current := s.current.inside, enclosing := s.functions } with
  | ok a t =>
    have ht := hstep.result hrun
    obtain ⟨parent, outer, hparent⟩ := hopen ht
    refine .of_ok (a := t.current.close) ?_ (hback ht hparent)
    simp [inFunction, hrun, hparent]
  | error e t =>
    have ht := hstep.failure hrun
    obtain ⟨parent, outer, hparent⟩ := hopen ht
    refine .of_error (e := e) ?_ (hback ht hparent)
    simp [inFunction, hrun, hparent]

theorem still_closure (p : Prototype) : Still (onCurrent (closure p)) := by
  intro s
  have hattach :
    attach p s.current = .ok s.current.proto.children.length (s.current.adopting p) := rfl
  have hstays : s.Stays { s with current := s.current.adopting p } := by
    refine ⟨.of_current ⟨List.suffix_rfl, List.prefix_rfl, List.prefix_append _ [p]⟩ ?_, rfl⟩
    exact ChainStep.linked (.work (f := s.current) (g := s.current.adopting p) rfl rfl)
  have hload : Still (onCurrent do
      let dst ← takeRegister
      push (.abx .closure dst s.current.proto.children.length)
      return Value.register dst) := still_build (by simp)
  rw [Build.closure, onCurrent_bind, Yields, bind_of_ok (onCurrent_of_ok hattach)]
  exact (hload _).mono (fun _ _ h ↦ hstays.trans h) (fun _ _ h ↦ hstays.trans h)

/-- The start of a nested function: its parameters become locals, and its globals known. -/
def openBody (params : List String) (body : List Stmt) : Lower Unit := do
  bindParams params
  setParamCount params.length
  hoist body

theorem steady_openBody (params : List String) (body : List Stmt) :
    Steady (openBody params body) := by
  refine steady_bind (steady_bindParams params) fun _ ↦ ?_
  have hcount : Still (onCurrent (setParamCount params.length)) :=
    still_build (neutral_modify fun _ ↦ ⟨rfl, rfl, rfl⟩)
  refine steady_bind hcount.steady fun _ ↦ ?_
  exact (still_hoist body).steady

end Lower

end LuaLower
