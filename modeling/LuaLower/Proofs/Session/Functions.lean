import LuaLower.Proofs.Lowering.Parts
import LuaLower.Proofs.Session.Emission

/-!
# Nested functions

A function starts with its parameters as its only locals and with no code. Whatever it becomes, the
functions around it gain upvalues only, and the record of order is carried over unchanged.
-/

namespace LuaLower

open OpenFunction Build

variable {Nested : ParamTree → Prototype → Prop} {W : Nat → Prop} {b : Nat} {f g : OpenFunction}
  {s t : Session}

/-- A function with `n` parameters before anything of its body is lowered. -/
structure OpenFunction.Fresh (n : Nat) (f : OpenFunction) : Prop where
  code : f.proto.code = #[]
  children : f.proto.children = []
  numParams : f.proto.numParams.toNat = n
  numLocals : f.registers.numLocals = n
  next : f.registers.next = n
  high : f.registers.high = n
  tidy : f.registers.Tidy
  inOrder : f.registers.inOrder = true

theorem fresh_main (source : Option String) : Fresh 0 (.main source) where
  code := rfl
  children := rfl
  numParams := rfl
  numLocals := rfl
  next := rfl
  high := rfl
  tidy := Registers.tidy_empty
  inOrder := rfl

/-! ## Parameters -/

/-- The locals for a list of parameters, of which the first has register `first`. -/
def paramLocals (first : Nat) : List String → List Local
  | [] => []
  | name :: names => paramLocals (first + 1) names ++ [⟨name, first, false⟩]

theorem length_paramLocals (first : Nat) (names : List String) :
    (paramLocals first names).length = names.length := by
  induction names generalizing first with
  | nil => rfl
  | cons name names ih => simp [paramLocals, ih]

/-- The registers of a function whose locals are its parameters. -/
structure Registers.OfParams (rs : Registers) : Prop where
  tidy : rs.Tidy
  next : rs.next = rs.numLocals
  high : rs.high = rs.numLocals

theorem yields_bindParams (names : List String) (hf : f.registers.OfParams) :
    Yields (bindParams names) f
      (fun _ g ↦ g.registers.OfParams ∧ g.proto = f.proto ∧
        g.registers.inOrder = f.registers.inOrder ∧
        g.registers.locals = paramLocals f.registers.numLocals names ++ f.registers.locals)
      (fun _ g ↦ Kept b f g) := by
  induction names generalizing f with
  | nil => exact yields_pure ⟨hf, rfl, rfl, rfl⟩
  | cons name names ih =>
    rw [bindParams]
    rcases Nat.lt_or_ge f.registers.next Registers.limit with hlimit | hlimit
    · have htake := takeRegister_of_lt hf.tidy hlimit
      have hnext : f.taken.registers.next = f.taken.registers.numLocals + 1 :=
        congrArg (· + 1) hf.next
      have hbind := bindLocal_apply (hf.tidy.raise hlimit) (f := f.taken) name false hnext
      have hparams : (f.taken.binding name false).registers.OfParams := by
        refine ⟨(hf.tidy.raise hlimit).bound name false hnext, hnext, ?_⟩
        have hhigh := hf.high
        have hmark := hf.next
        simp only [binding, taken, Registers.numLocals, List.length_cons] at hhigh hmark ⊢
        omega
      have hstep :
          (takeRegister >>= fun r ↦ bindLocal name r false >>= fun _ ↦ bindParams names) f =
          bindParams names (f.taken.binding name false) := by
        rw [bind_of_ok htake, hf.next]
        exact bind_of_ok hbind
      refine ((ih hparams).of_eq hstep).mono ?_ ?_
      · rintro - g ⟨hg, hproto, horder, hlocals⟩
        refine ⟨hg, hproto, horder, hlocals.trans ?_⟩
        simp [paramLocals, binding, taken, Registers.numLocals]
      · intro e g hkept
        exact { hkept with }
    · exact .of_error (bind_of_error (takeRegister_of_le hlimit)) (.refl b f)

theorem fresh_inside (parent : OpenFunction) : Fresh 0 parent.inside where
  code := rfl
  children := rfl
  numParams := rfl
  numLocals := rfl
  next := rfl
  high := rfl
  tidy := Registers.tidy_empty
  inOrder := rfl

theorem yields_openParams (names : List String) (hf : Fresh 0 f) :
    Yields (do bindParams names; setParamCount names.length) f
      (fun _ g ↦ Fresh names.length g ∧ g.registers.locals = paramLocals 0 names ∧
        g.proto = { f.proto with numParams := UInt8.ofNat names.length })
      (fun _ g ↦ Kept b f g) := by
  have hlocals : f.registers.locals = [] := List.eq_nil_of_length_eq_zero hf.numLocals
  have hempty : f.registers.OfParams :=
    ⟨hf.tidy, hf.next.trans hf.numLocals.symm, hf.high.trans hf.numLocals.symm⟩
  refine (yields_bindParams names hempty).bind ?_
  rintro - g ⟨hg, hproto, horder, hglocals⟩
  rw [hf.numLocals, hlocals, List.append_nil] at hglocals
  have hnumLocals : g.registers.numLocals = names.length := by
    rw [Registers.numLocals, hglocals, length_paramLocals]
  have hlimit : names.length ≤ Registers.limit := by
    rw [← hnumLocals, ← hg.high]
    exact hg.tidy.high_le
  refine .of_ok rfl ⟨?_, hglocals, by rw [← hproto]⟩
  exact {
    code := by rw [← hf.code, ← hproto]
    children := by rw [← hf.children, ← hproto]
    numParams := UInt8.toNat_ofNat_of_lt (Nat.lt_of_le_of_lt hlimit (by decide))
    numLocals := hnumLocals
    next := hg.next.trans hnumLocals
    high := hg.high.trans hnumLocals
    tidy := hg.tidy
    inOrder := horder.trans hf.inOrder }

/-! ## Closing -/

/-- What is left of the functions around a nested one when it is closed. -/
structure Session.Leaves (s t : Session) : Prop where
  inOrder : t.current.registers.inOrder = true
  enclosing : List.Forall₂ Gained s.functions t.enclosing
  owners : t.names.owners = s.names.owners

theorem afterNested_eq {nested : OpenFunction} (hf : f.registers.Tidy)
    (hnested : nested.registers.inOrder = true) : f.afterNested nested = f := by
  rw [afterNested, hnested, Registers.note_eq_self hf.marksInOrder]

theorem lowers_inFunction {step : Lower Unit} {P : Prototype → Prop}
    (hstep : Yields step { s with current := s.current.inside, enclosing := s.functions }
      (fun _ t ↦ s.Leaves t ∧ P t.current.close) (fun _ t ↦ s.Leaves t)) :
    Lowers Nested b (Lower.inFunction step) s []
      (fun p t ↦ P p ∧ t.current.registers = s.current.registers ∧
        t.current.proto.code = s.current.proto.code) := by
  intro hs hb
  have hback {t : Session} {parent : OpenFunction} {outer : List OpenFunction} (h : s.Leaves t)
      (ht : t.enclosing = parent :: outer) :
      parent.afterNested t.current = parent ∧
        s.Extends Nested b [] { t with current := parent, enclosing := outer } ∧
        parent.registers = s.current.registers ∧ parent.proto.code = s.current.proto.code := by
    have henclosing := h.enclosing
    rw [ht, Session.functions, List.forall₂_cons] at henclosing
    obtain ⟨hparent, houter⟩ := henclosing
    have hregisters := hparent.registers
    have htidy : parent.registers.Tidy := hregisters ▸ hs.tidy
    exact ⟨afterNested_eq htidy h.inOrder,
      ⟨⟨hparent.extends.grows, houter, h.owners⟩, congrArg Registers.locals hregisters⟩, hregisters,
      hparent.code⟩
  cases hrun : step { s with current := s.current.inside, enclosing := s.functions } with
  | ok a t =>
    obtain ⟨hleaves, hp⟩ := hstep.result hrun
    cases ht : t.enclosing with
    | nil => simpa [ht, Session.functions] using hleaves.enclosing
    | cons parent outer =>
      obtain ⟨hafter, hextends, hregisters, hcode⟩ := hback hleaves ht
      refine .of_ok ?_ ⟨hextends, hp, hregisters, hcode⟩
      simp [Lower.inFunction, hrun, ht, hafter]
  | error e t =>
    have hleaves := hstep.failure hrun
    cases ht : t.enclosing with
    | nil => simpa [ht, Session.functions] using hleaves.enclosing
    | cons parent outer =>
      obtain ⟨hafter, hextends, _⟩ := hback hleaves ht
      refine .of_error (e := e) ?_ (hextends.kept hb)
      simp [Lower.inFunction, hrun, ht, hafter]

/-- What is known of a nested function follows from how it grew out of its parameters. -/
def ClosesTo (Nested : ParamTree → Prototype → Prop) : Prop :=
  ∀ n f ts g, Fresh n f → Grows Nested 0 f ts g → Nested (.node n ts) g.close

theorem closesTo_trivial : ClosesTo fun _ _ ↦ True := fun _ _ _ _ _ _ ↦ trivial

/-- What is known of a nested function may also depend on its code being a block. -/
def ClosesBlock (Nested : ParamTree → Prototype → Prop) : Prop :=
  ∀ n f ts g, Fresh n f → Grows Nested 0 f ts g → Emitted (fun _ ↦ True) false f g →
    Nested (.node n ts) g.close

theorem ClosesTo.block (h : ClosesTo Nested) : ClosesBlock Nested :=
  fun n f ts g hfresh hgrows _ ↦ h n f ts g hfresh hgrows

theorem yields_functionBody {params : List String} {body : Lower Unit} {ts : List ParamTree}
    (hNested : ClosesBlock Nested) (hs : s.Ready) (hbody : ∀ t, Proceeds Nested 0 body t ts) :
    Yields (do bindParams params; setParamCount params.length; body : Lower Unit)
      { s with current := s.current.inside, enclosing := s.functions }
      (fun _ t ↦ s.Leaves t ∧ Nested (.node params.length ts) t.current.close)
      (fun _ t ↦ s.Leaves t) := by
  have hparams := Lower.yields_onCurrent
    (s := { s with current := s.current.inside, enclosing := s.functions })
    (yields_openParams (b := 0) params (fresh_inside s.current))
  rw [Lower.onCurrent_bind] at hparams
  have hopen := hparams.mono (F := fun _ t ↦ s.Leaves t) (fun _ _ h ↦ h) ?_
  · simp only [← bind_assoc]
    refine hopen.bind ?_
    rintro - t ⟨⟨hfresh, _⟩, ht⟩
    have hready : t.Ready := ⟨by rw [ht]; exact hs.owners, hfresh.tidy⟩
    have hsettled : t.Settled := hfresh.next.trans hfresh.numLocals.symm
    refine (hbody t hready hsettled (Nat.zero_le _)).mono ?_ ?_
    · rintro - u ⟨htu, _, hcode⟩
      have hkept := htu.kept (Nat.zero_le _)
      refine ⟨⟨hkept.current.inOrder.trans hfresh.inOrder, ?_, ?_⟩,
        hNested _ _ _ _ hfresh htu.current hcode⟩
      · have henclosing := htu.enclosing
        rwa [ht] at henclosing
      · rw [htu.owners, ht]
    · intro e u hkept
      refine ⟨hkept.current.inOrder.trans hfresh.inOrder, ?_, ?_⟩
      · have henclosing := hkept.enclosing
        rwa [ht] at henclosing
      · rw [hkept.owners, ht]
  · rintro e t ⟨hkept, ht⟩
    refine ⟨hkept.inOrder, ?_, ?_⟩
    · rw [ht]
      exact forall₂_gained_refl _
    · rw [ht]

theorem translates_function {params : List String} {body : Lower Unit} {ts : List ParamTree}
    (hNested : ClosesBlock Nested) (hbody : ∀ t, Proceeds Nested 0 body t ts)
    (hnext : W s.current.registers.next) :
    Translates Nested W b (Lower.function params body) s [.node params.length ts]
      (fun v t ↦ v = .register s.current.registers.next ∧
        t.current.registers.next = s.current.registers.next + 1) := by
  refine .assuming fun hs _ ↦ ?_
  refine Lowers.bind (lowers_inFunction (yields_functionBody hNested hs hbody)) ?_
  rintro p t - ⟨hp, hregisters, hcode⟩ ht hb
  refine (Lower.yields_onCurrent (yields_closure (b := b) hp ht.tidy)).mono ?_ ?_
  · rintro v u ⟨⟨htu, hv, hnext', hcode'⟩, hu⟩
    rw [hregisters] at hv hnext' hcode'
    have hclosure : Block W false
        [.abx .closure s.current.registers.next t.current.proto.children.length] :=
      .single rfl (by simp [Instruction.writes]) hnext
    rw [hu]
    exact ⟨.of_current htu, .trans (.of_code_eq hcode) (.of_emit hcode' hclosure), hv, hnext'⟩
  · rintro e u ⟨hkept, hu⟩
    rw [hu]
    exact ⟨hkept, forall₂_gained_refl _, rfl⟩

end LuaLower
