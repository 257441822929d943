import LuaLower.Proofs.Semantics.Expressions

/-!
# Bodies without effects at work

A declaration or an assignment changes one variable and no other, because no two locals share a
register. A body is a sequence of such statements; the statement that ends it returns the value that
its expression has by then.
-/

namespace LuaLower

open OpenFunction Machine

variable {V : Type} {m : Meaning V} {outer : String → V} {frame : Frame V} {ρ ρ' : Nat → V}
  {name : String} {l : Local} {s t u : Session} {v : Value} {x : V} {names : List String}
  {value : Scope V → V} {effect : Scope V → Scope V}

/-! ## Registers as variables -/

theorem Registers.Tidy.name_eq {rs : Registers} (h : rs.Tidy) {x y : String} {l l' : Local}
    (hl : rs.find? x = some l) (hl' : rs.find? y = some l') (hregister : l.register = l'.register) :
    x = y := by
  have hsame : l = l' := h.local_eq (List.mem_of_find?_eq_some hl)
    (List.mem_of_find?_eq_some hl') hregister
  have hx : l.name = x := by simpa using List.find?_some hl
  have hy : l'.name = y := by simpa using List.find?_some hl'
  rw [← hx, ← hy, hsame]

theorem Session.scope_write (hs : s.current.registers.Tidy) (hl : s.current.local? name = some l) :
    s.scope outer (Function.update ρ l.register x) = (s.scope outer ρ).bind name x := by
  have hlocals : (s.scope outer (Function.update ρ l.register x)).locals =
      Function.update (s.scope outer ρ).locals name (some x) := by
    funext y
    by_cases hy : y = name
    · subst hy
      simp [hl]
    · rw [Function.update_of_ne hy]
      cases hl' : s.current.local? y with
      | none => simp [hl']
      | some l' =>
        have hne : l'.register ≠ l.register := fun h ↦ hy (hs.name_eq hl' hl h)
        simp [hl', Function.update_of_ne hne]
  exact Scope.ext hlocals rfl rfl

theorem local?_binding (f : OpenFunction) (isConst : Bool) (y : String) :
    (f.binding name isConst).local? y =
      if name = y then some ⟨name, f.registers.numLocals, isConst⟩ else f.local? y := by
  by_cases hy : name = y <;> simp [local?, Registers.find?, binding, hy]

theorem Session.scope_binding (isConst : Bool) :
    ({ s with current := s.current.binding name isConst } : Session).scope outer ρ =
      (s.scope outer ρ).bind name (ρ s.current.registers.numLocals) :=
  Scope.ofLocals_cons ⟨name, _, isConst⟩ _ _

/-! ## Statements that go on -/

/-- How a session changes when declarations and assignments are lowered, and what their code does to
the variables. -/
structure Session.Performed (m : Meaning V) (s : Session) (names : List String) (t : Session)
    (effect : Scope V → Scope V) : Prop where
  ready : t.Ready
  settled : t.Settled
  kept : OpenFunction.Kept s.current.proto.code.size s.current t.current
  declared : ∀ x, (s.current.local? x).isSome ∨ x ∈ names → (t.current.local? x).isSome
  runs : ∀ (outer : String → V) (frame : Frame V) (ρ : Nat → V),
    frame.Provides m outer t.current → frame.Follows s.current.proto.code.size t.current →
    ∃ ρ', Steps m frame ⟨s.current.proto.code.size, ρ⟩ ⟨t.current.proto.code.size, ρ'⟩ ∧
      t.scope outer ρ' = effect (s.scope outer ρ)

namespace Session.Performed

theorem refl (hs : s.Ready) (hsettled : s.Settled) : s.Performed m [] s id where
  ready := hs
  settled := hsettled
  kept := .refl _ _
  declared x hx := by simpa using hx
  runs _ _ ρ _ _ := ⟨ρ, Steps.refl _, rfl⟩

theorem trans {names' : List String} {effect' : Scope V → Scope V}
    (hst : s.Performed m names t effect) (htu : t.Performed m names' u effect') :
    s.Performed m (names ++ names') u (effect' ∘ effect) where
  ready := htu.ready
  settled := htu.settled
  kept := hst.kept.trans (htu.kept.mono hst.kept.size_le)
  declared x hx := by
    apply htu.declared
    rcases hx with hx | hx
    · exact .inl (hst.declared x (.inl hx))
    · rcases List.mem_append.mp hx with hx | hx
      · exact .inl (hst.declared x (.inr hx))
      · exact .inr hx
  runs outer frame ρ hprovides hcode := by
    obtain ⟨ρ₁, hsteps₁, hscope₁⟩ :=
      hst.runs outer frame ρ (hprovides.of_kept htu.kept) (hcode.of_kept htu.kept)
    obtain ⟨ρ₂, hsteps₂, hscope₂⟩ :=
      htu.runs outer frame ρ₁ hprovides (hcode.mono hst.kept.size_le)
    exact ⟨ρ₂, hsteps₁.trans hsteps₂, by rw [hscope₂, hscope₁, Function.comp_apply]⟩

end Session.Performed

/-- Code that writes to the register of a local, and to no other below the temporaries, changes that
variable alone. -/
theorem performed_write (hs : s.Ready) (hsettled : s.Settled) (hl : s.current.local? name = some l)
    {ts : List ParamTree} (hextends : s.Extends (fun _ _ ↦ True) s.current.proto.code.size ts t)
    (hcaptures : t.captures = s.captures)
    (hnext : t.current.registers.next = s.current.registers.next)
    (hruns : ∀ (outer : String → V) (frame : Frame V) (ρ : Nat → V),
      frame.Provides m outer t.current → frame.Follows s.current.proto.code.size t.current →
      ∃ ρ', Steps m frame ⟨s.current.proto.code.size, ρ⟩ ⟨t.current.proto.code.size,
        Function.update ρ' l.register (value (s.scope outer ρ))⟩ ∧
        ∀ r < s.current.registers.next, ρ' r = ρ r) :
    s.Performed m [name] t fun scope ↦ scope.bind name (value scope) where
  ready := hextends.ready hs
  settled := hnext.trans (hsettled.trans hextends.numLocals.symm)
  kept := hextends.current.kept (le_refl _)
  declared y hy := by
    rw [local?, Registers.find?, hextends.locals]
    rcases hy with hy | hy
    · exact hy
    · rw [List.mem_singleton.mp hy]
      exact Option.isSome_of_eq_some hl
  runs outer frame ρ hprovides hcode := by
    obtain ⟨ρ', hsteps, hkeep⟩ := hruns outer frame ρ hprovides hcode
    refine ⟨_, hsteps, ?_⟩
    rw [← Session.scope_write hs.tidy hl]
    apply Session.scope_congr hs.tidy hextends.locals hcaptures
    intro r hr
    simp only [Function.update_apply, hkeep r (hr.trans_le hs.tidy.numLocals_le)]

theorem performed_setLocal (hs : s.Ready) (hsettled : s.Settled)
    (hl : s.current.local? name = some l) (hvalue : s.Computed m v t value)
    (h : Lower.onCurrent (Build.setLocal l.register v) t = .ok () u) :
    s.Performed m [name] u fun scope ↦ scope.bind name (value scope) := by
  have ht := hvalue.ready hs
  have hlo := hvalue.numLocals_le hs
  have hsize := hvalue.kept.size_le
  have hhigh : t.current.registers.Tidy → l.register < t.current.registers.high := fun htidy ↦
    ((hs.tidy.find?_lt hl).trans_eq hvalue.numLocals.symm).trans_le
      (htidy.numLocals_le.trans htidy.next_le)
  obtain ⟨hextends, hcurrent, hu⟩ :=
    onCurrent_result (builds_setLocal hlo hvalue.holds hhigh) ht (le_refl _) h
  have hkept := hextends.current.kept (le_refl _)
  obtain ⟨ts, hst⟩ := hvalue.growth
  refine performed_write hs hsettled hl (hst.trans (hextends.mono hsize)) ?_ ?_ ?_
  · have hupvalues : u.current.proto.upvalues = t.current.proto.upvalues := by
      rw [hcurrent]
      rfl
    exact (Session.captures_congr hupvalues hu).trans hvalue.captures
  · rw [hcurrent]
    rfl
  · intro outer frame ρ hprovides hcode
    obtain ⟨ρ₁, hsteps, hρ₁, hx⟩ :=
      hvalue.leads outer frame ρ (hprovides.of_kept hkept) (hcode.of_kept hkept)
    refine ⟨ρ₁, hsteps.trans ?_, hρ₁⟩
    rw [hcurrent] at hcode ⊢
    have hat := Frame.Follows.codeAt (f := t.current.downTo s.current.registers.next) hcode hsize
    have hload := steps_load hvalue.holds hlo (next_le_256 ht.tidy) hat hx
    simpa [OpenFunction.emit, downTo] using hload

theorem performed_loadNil (hs : s.Ready) (hsettled : s.Settled)
    (hl : s.current.local? name = some l)
    (h : Lower.onCurrent (Build.loadNil l.register) s = .ok () t) :
    s.Performed m [name] t fun scope ↦ scope.bind name m.nil := by
  have hregister : l.register < s.current.registers.high :=
    (hs.tidy.find?_lt hl).trans_le (hs.tidy.numLocals_le.trans hs.tidy.next_le)
  have hbuilds : Builds (fun _ _ ↦ True) s.current.proto.code.size (Build.loadNil l.register)
      s.current fun _ g ↦ g = s.current.emit [.abc .loadNil l.register 0 0] := by
    refine .push (fun _ ↦ .of_registers ?_ rfl rfl rfl) rfl
    exact List.forall_mem_singleton.mpr hregister
  obtain ⟨hextends, hcurrent, ht⟩ := onCurrent_result hbuilds hs (le_refl _) h
  refine performed_write hs hsettled hl hextends ?_ ?_ ?_
  · apply Session.captures_congr _ ht
    rw [hcurrent]
    rfl
  · rw [hcurrent]
    rfl
  · intro outer frame ρ _ hcode
    refine ⟨ρ, ?_, fun _ _ ↦ rfl⟩
    rw [hcurrent] at hcode ⊢
    have hat := (hcode.codeAt (le_refl _)).head
    simpa [OpenFunction.emit] using Steps.of_exec hat exec_loadNil

/-! ## Declarations -/

/-- What is known of an initial value, which is nil if it is missing. -/
def InitSimulates (m : Meaning V) (init : Option (Lower Value)) (value : Scope V → V) : Prop :=
  match init with
  | some init => Simulates m init value
  | none => value = fun _ ↦ m.nil

/-- The first value of a local is left in the register that becomes its home. -/
theorem computed_initialValue {init : Option (Lower Value)} (hinit : InitSimulates m init value)
    {r : Nat} (hs : s.Ready) (h : Lower.initialValue init s = .ok r t) :
    r = s.current.registers.next ∧ t.current.registers.next = s.current.registers.next + 1 ∧
      s.Computed m (.register r) t value := by
  cases init with
  | none =>
    obtain rfl : value = fun _ ↦ m.nil := hinit
    obtain ⟨_, ⟨rfl, hcurrent⟩, _⟩ := onCurrent_result builds_newNil hs (le_refl _) h
    -- The literal for nil is lowered by the same step.
    have hliteral : Lower.onCurrent (Build.literal .null) s =
        .ok (.register s.current.registers.next) t := by
      have hbind : Build.literal .null = Build.newNil >>= fun r ↦ pure (.register r) := rfl
      rw [hbind, Lower.onCurrent_bind]
      exact bind_of_ok h
    refine ⟨rfl, ?_, simulates_literal rfl s _ t hs hliteral⟩
    rw [hcurrent]
    rfl
  | some init =>
    obtain ⟨v, t₁, h₁, h₂⟩ := bind_eq_ok h
    have hvalue := hinit s v t₁ hs h₁
    obtain ⟨hextends, ⟨rfl, hcurrent⟩, ht⟩ := onCurrent_result
      (builds_inNewRegister (hvalue.numLocals_le hs) hvalue.holds) (hvalue.ready hs) (le_refl _) h₂
    refine ⟨rfl, ?_, hvalue.placed hs (.inr ⟨rfl, hcurrent⟩) hextends ht⟩
    rw [hcurrent]
    rfl

theorem performed_bindNew {init : Option (Lower Value)} (hinit : InitSimulates m init value)
    (isConst : Bool) (hs : s.Ready) (hsettled : s.Settled)
    (h : (do
      let r ← Lower.initialValue init
      Build.bindLocal name r isConst : Lower Unit) s = .ok () u) :
    s.Performed m [name] u fun scope ↦ scope.bind name (value scope) := by
  obtain ⟨r, t, h₁, h₂⟩ := bind_eq_ok h
  obtain ⟨rfl, hnext, hvalue⟩ := computed_initialValue hinit hs h₁
  have ht := hvalue.ready hs
  have hhome : s.current.registers.next = t.current.registers.numLocals :=
    hsettled.trans hvalue.numLocals.symm
  rw [hhome] at hnext
  have hbind := Build.bindLocal_apply ht.tidy name isConst hnext
  rw [hhome] at h₂
  obtain rfl : u = { t with current := t.current.binding name isConst } :=
    (EStateM.Result.ok.inj (h₂.symm.trans (Lower.onCurrent_of_ok hbind))).2
  refine {
    ready := ⟨ht.owners, ht.tidy.bound name isConst hnext⟩
    settled := hnext
    kept := { hvalue.kept with }
    declared := ?_
    runs := ?_ }
  · intro y hy
    rw [local?_binding]
    by_cases hname : name = y
    · simp [hname]
    · have hsome : (s.current.local? y).isSome := by simpa [Ne.symm hname] using hy
      rw [if_neg hname, local?, Registers.find?, hvalue.locals]
      exact hsome
  · intro outer frame ρ hprovides hcode
    obtain ⟨ρ₁, hsteps, hρ₁, hx⟩ :=
      hvalue.leads outer frame ρ { hprovides with } hcode
    refine ⟨ρ₁, hsteps, ?_⟩
    have hvalue₁ : ρ₁ t.current.registers.numLocals = value (s.scope outer ρ) := by
      rw [← hhome]
      exact Option.some.inj hx
    rw [Session.scope_binding, hvalue₁, hvalue.scope_eq hs hρ₁]

theorem performed_declare {init : Option (Lower Value)} (hinit : InitSimulates m init value)
    {kind : DeclKind} (hkind : kind.bindsLocal = true) (hs : s.Ready) (hsettled : s.Settled)
    (h : Lower.declare kind name init s = .ok () t) :
    s.Performed m [name] t fun scope ↦ scope.bind name (value scope) := by
  rw [Lower.declare, get_bind] at h
  cases hlocal : s.current.local? name with
  | some l =>
    cases init with
    | some init =>
      simp only [hlocal] at h
      obtain ⟨v, t₁, h₁, h₂⟩ := bind_eq_ok h
      exact performed_setLocal hs hsettled hlocal (hinit s v t₁ hs h₁) h₂
    | none =>
      simp only [hlocal, hkind, if_true] at h
      obtain rfl : value = fun _ ↦ m.nil := hinit
      exact performed_loadNil hs hsettled hlocal h
  | none =>
    simp only [hlocal, hkind, if_true] at h
    exact performed_bindNew hinit _ hs hsettled h

theorem initSimulates_init (types : TypeOracle) {d : Declarator} (hd : d.isPure = true) :
    InitSimulates m (d.init.map (Lower.expr types))
      fun scope ↦ d.init.elim m.nil (m.eval types scope) := by
  obtain ⟨name, init⟩ := d
  cases init with
  | none => rfl
  | some init => exact simulates_expr types init (by simpa [Declarator.isPure] using hd)

theorem declarators_cons {types : TypeOracle} {kind : DeclKind} {d : Declarator}
    {ds : List Declarator} (h : Lower.declarators types kind (d :: ds) s = .ok () u) :
    ∃ t, Lower.declare kind d.name (d.init.map (Lower.expr types)) s = .ok () t ∧
      Lower.declarators types kind ds t = .ok () u := by
  obtain ⟨name, init⟩ := d
  cases init with
  | none =>
    obtain ⟨_, t, hdeclare, hrest⟩ := bind_eq_ok h
    exact ⟨t, hdeclare, hrest⟩
  | some init =>
    obtain ⟨_, t, hdeclare, hrest⟩ := bind_eq_ok h
    exact ⟨t, hdeclare, hrest⟩

theorem performed_declarators (types : TypeOracle) {kind : DeclKind}
    (hkind : kind.bindsLocal = true) {ds : List Declarator} (hds : ds.all Declarator.isPure = true)
    (hs : s.Ready) (hsettled : s.Settled) (h : Lower.declarators types kind ds s = .ok () u) :
    s.Performed m (ds.map Declarator.name) u fun scope ↦ ds.foldl (m.declare types) scope := by
  induction ds generalizing s with
  | nil =>
    cases h
    exact .refl hs hsettled
  | cons d ds ih =>
    rw [List.all_cons, Bool.and_eq_true] at hds
    obtain ⟨t, hdeclare, hrest⟩ := declarators_cons h
    have hinit := initSimulates_init (m := m) types hds.1
    have hfirst := performed_declare hinit hkind hs hsettled hdeclare
    exact hfirst.trans (ih hds.2 hfirst.ready hfirst.settled hrest)

/-! ## Assignments -/

/-- The present value of a local is read where it is. -/
theorem computed_register (hs : s.Ready) (hl : s.current.local? name = some l) :
    s.Computed m (.register l.register) s fun scope ↦ (scope.locals name).getD m.nil where
  growth := ⟨[], .refl s⟩
  holds := .inl ⟨hs.tidy.find?_lt hl, rfl⟩
  captures := rfl
  leads outer frame ρ _ _ := by
    apply leads_of_value rfl
    simp [Frame.value?, hl]

theorem computed_assignedValue (types : TypeOracle) {op : AssignOp} {e : Expr}
    {compound : Option (BinaryOp × Bool)} (he : e.isPure = true)
    (hcompound : op.compound types (.identifier name) e = .ok compound) (hs : s.Ready)
    (hl : s.current.local? name = some l)
    (h : Lower.assignedValue (.register l.register) compound (Lower.expr types e) s = .ok v t) :
    s.Computed m v t fun scope ↦ m.assigned types scope op name e := by
  have hright := simulates_expr (m := m) types e he
  cases hop : op.binary? with
  | none =>
    simp only [AssignOp.compound, hop] at hcompound
    cases hcompound
    simp only [Meaning.assigned, hop]
    exact hright s v t hs h
  | some op' =>
    simp only [AssignOp.compound, hop] at hcompound
    split at hcompound
    · cases hcompound
    · cases hcompound
      have hread : ∀ v t, Lower.onCurrent (Target.read (.register l.register)) s = .ok v t →
          s.Computed m v t fun scope ↦ (scope.locals name).getD m.nil := by
        intro v t hread
        cases hread
        exact computed_register hs hl
      have hcomputed := computed_binary eq_add_of_joins hs hread hright h
      simp only [binary_joins] at hcomputed
      simp only [Meaning.assigned, hop]
      exact hcomputed

theorem performed_assignment (types : TypeOracle) {op : AssignOp} {e : Expr} (he : e.isPure = true)
    (hs : s.Ready) (hsettled : s.Settled) (hl : s.current.local? name = some l)
    (h : Lower.statement types (.expression (.assign op (.identifier name) e)) s = .ok () u) :
    s.Performed m [name] u fun scope ↦ scope.bind name (m.assigned types scope op name e) := by
  obtain ⟨compound, s', hoperation, hrest⟩ := bind_eq_ok h
  obtain ⟨hcompound, rfl⟩ := ofExcept_eq_ok hoperation
  obtain ⟨⟨target, v⟩, t, hassignment, hassign⟩ := bind_eq_ok hrest
  obtain ⟨target', s'', htarget, hpair⟩ := bind_eq_ok hassignment
  obtain ⟨_, _, hregister⟩ := lowers_result (lowers_nameTarget name) hs htarget
  obtain ⟨rfl, rfl⟩ := hregister l hl
  obtain ⟨v', t', hvalue, hreturn⟩ := bind_eq_ok hpair
  cases hreturn
  have hcomputed := computed_assignedValue (m := m) types he hcompound hs hl hvalue
  have hset : (Target.register l.register).assign v = Build.setLocal l.register v := by
    simp [Target.assign, Target.write, Target.release]
  exact performed_setLocal hs hsettled hl hcomputed (hset ▸ hassign)

/-! ## Returning -/

theorem returns_return (types : TypeOracle) {e : Expr} (he : e.isPure = true) (hs : s.Ready)
    (h : Lower.statement types (.ret (some e)) s = .ok () t)
    (hprovides : frame.Provides m outer t.current)
    (hcode : frame.Follows s.current.proto.code.size t.current) :
    Returns m frame ⟨s.current.proto.code.size, ρ⟩ [m.eval types (s.scope outer ρ) e] := by
  obtain ⟨v, t₁, h₁, h₂⟩ := bind_eq_ok h
  have hvalue := simulates_expr (m := m) types e he s v t₁ hs h₁
  have ht₁ := hvalue.ready hs
  have hlo := hvalue.numLocals_le hs
  have hsize := hvalue.kept.size_le
  obtain ⟨hextends, ⟨r, f, hplaced, hcurrent⟩, _⟩ :=
    onCurrent_result (builds_returnValue hlo hvalue.holds) ht₁ (le_refl _) h₂
  have hkept := hextends.current.kept (le_refl _)
  have hcode' : frame.Follows s.current.proto.code.size (f.emit [.abc .ret r 2 0]) := by
    rw [hcurrent] at hcode
    exact hcode
  have hfollows := hcode'.of_emit
  have hleads := hvalue.leads outer frame ρ (hprovides.of_kept hkept)
    (hfollows.of_kept hplaced.kept)
  obtain ⟨ρ₁, hsteps, _, hx⟩ := hleads.placed hplaced hvalue.holds ht₁.tidy hlo hfollows hsize
  have hret : frame.code[f.proto.code.size]? = some (.abc .ret r 2 0) :=
    (hcode'.codeAt (hsize.trans hplaced.kept.size_le)).head
  have hr : ρ₁ r = m.eval types (s.scope outer ρ) e := Option.some.inj hx
  refine ⟨_, hsteps, ?_⟩
  rw [step_eq hret, ← hr]
  rfl

/-! ## Whole bodies -/

theorem DeclKind.bindsLocal_of_ne {kind : DeclKind} (h : (kind != .var) = true) :
    kind.bindsLocal = true := by
  cases kind <;> first | rfl | cases h

/-- Between two statements nothing happens. -/
theorem statements_cons {types : TypeOracle} {stmt : Stmt} {rest : List Stmt} (hs : s.Ready)
    (hsettled : s.Settled) (h : Lower.statements types (stmt :: rest) s = .ok () u) :
    ∃ t, Lower.statement types stmt s = .ok () t ∧ Lower.statements types rest t = .ok () u := by
  obtain ⟨_, t, hstmt, h⟩ := bind_eq_ok h
  obtain ⟨_, t', hsettle, hrest⟩ := bind_eq_ok h
  obtain ⟨hst, ht⟩ := (advances_statement types closesTo_trivial stmt 0 s hs hsettled
    (Nat.zero_le _)).result hstmt
  have hsame := Lower.onCurrent_of_ok (Build.settle_apply (hst.ready hs).tidy ht)
  obtain rfl : t' = t := (EStateM.Result.ok.inj (hsettle.symm.trans hsame)).2
  exact ⟨t', hstmt, hrest⟩

theorem statements_kept {types : TypeOracle} {body : List Stmt} (hs : s.Ready)
    (hsettled : s.Settled) (h : Lower.statements types body s = .ok () t) :
    OpenFunction.Kept s.current.proto.code.size s.current t.current := by
  have hadvances := advances_statements types closesTo_trivial body s.current.proto.code.size s hs
    hsettled (le_refl _)
  exact (hadvances.result h).1.current.kept (le_refl _)

/-- The statements that go on are performed before the rest runs. -/
theorem Session.Performed.returns {types : TypeOracle} {rest : List Stmt}
    (hst : s.Performed m names t effect) (h : Lower.statements types rest t = .ok () u)
    (hprovides : frame.Provides m outer u.current)
    (hcode : frame.Follows s.current.proto.code.size u.current)
    (hrest : frame.Follows t.current.proto.code.size u.current → ∀ ρ₁ : Nat → V,
      Returns m frame ⟨t.current.proto.code.size, ρ₁⟩
        [m.evalBody types (t.scope outer ρ₁) rest]) :
    Returns m frame ⟨s.current.proto.code.size, ρ⟩
      [m.evalBody types (effect (s.scope outer ρ)) rest] := by
  have hkept := statements_kept hst.ready hst.settled h
  obtain ⟨ρ₁, hsteps, hscope⟩ :=
    hst.runs outer frame ρ (hprovides.of_kept hkept) (hcode.of_kept hkept)
  rw [← hscope]
  exact .of_steps hsteps (hrest (hcode.mono hst.kept.size_le) ρ₁)

theorem returns_statements (types : TypeOracle) {declared : List String} {body : List Stmt}
    (hbody : isPureBody declared body = true) (hs : s.Ready) (hsettled : s.Settled)
    (hdeclared : ∀ x ∈ declared, (s.current.local? x).isSome)
    (h : Lower.statements types body s = .ok () u) (hprovides : frame.Provides m outer u.current)
    (hcode : frame.Follows s.current.proto.code.size u.current) :
    Returns m frame ⟨s.current.proto.code.size, ρ⟩ [m.evalBody types (s.scope outer ρ) body] := by
  fun_induction isPureBody declared body generalizing s ρ with
  | case1 declared e =>
    obtain ⟨t, hreturn, hend⟩ := statements_cons hs hsettled h
    cases hend
    exact returns_return types hbody hs hreturn hprovides hcode
  | case2 declared kind ds rest ih =>
    rw [Bool.and_eq_true, Bool.and_eq_true] at hbody
    obtain ⟨⟨hkind, hds⟩, hrest⟩ := hbody
    obtain ⟨t, hdeclaration, hstatements⟩ := statements_cons hs hsettled h
    have hperformed := performed_declarators (m := m) types (DeclKind.bindsLocal_of_ne hkind) hds hs
      hsettled hdeclaration
    apply hperformed.returns hstatements hprovides hcode
    intro hcode ρ₁
    apply ih hrest hperformed.ready hperformed.settled _ hstatements hcode
    intro x hx
    apply hperformed.declared
    rcases List.mem_append.mp hx with hx | hx
    · exact .inr hx
    · exact .inl (hdeclared x hx)
  | case3 declared op x e rest ih =>
    rw [Bool.and_eq_true, Bool.and_eq_true] at hbody
    obtain ⟨⟨hx, he⟩, hrest⟩ := hbody
    obtain ⟨t, hassign, hstatements⟩ := statements_cons hs hsettled h
    obtain ⟨l, hl⟩ := Option.isSome_iff_exists.mp (hdeclared x (by simpa using hx))
    have hperformed := performed_assignment (m := m) types he hs hsettled hl hassign
    apply hperformed.returns hstatements hprovides hcode
    intro hcode ρ₁
    apply ih hrest hperformed.ready hperformed.settled _ hstatements hcode
    intro y hy
    exact hperformed.declared y (.inl (hdeclared y hy))
  | case4 => cases hbody

end LuaLower
