import LuaLower.Proofs.Supply.Body

/-!
# Constant locals keep their values

Code that is lowered after a constant was declared may write any register but that of the constant,
and functions nested there may set any captured variable but the constant. A function that was
nested before cannot have captured it, since the register was not yet that of a local.
-/

namespace LuaLower

open OpenFunction Build

variable {types : TypeOracle} {options : Options} {program body before after : List Stmt}
  {params names : List String} {kind : DeclKind} {left right : List Declarator} {d : Declarator}
  {name : String} {W : Nat → Prop} {U : String → Prop} {f g : OpenFunction} {l : Local} {r : Nat}
  {s t entry start stop last : Session}

/-! ## Names without a local -/

namespace Task

theorem local?_eq_none_of_declarator (h : (declarator kind d).lower types s = .ok () t)
    (hname : d.name ≠ name) (hs : s.current.local? name = none) : t.current.local? name = none := by
  by_cases hold : kind.bindsLocal = true → (s.current.local? d.name).isSome
  · rw [(Lower.stays_of_declare (still_init types d.init) hold h).local?_eq, hs]
  · obtain ⟨hkind, hnew⟩ := Classical.not_imp.mp hold
    rw [Option.not_isSome_iff_eq_none] at hnew
    obtain ⟨u, r, hsu, -, rfl⟩ := Lower.binds_of_declare (still_init types d.init) hkind hnew h
    rw [OpenFunction.local?, Registers.find?_bind, if_neg hname, ← OpenFunction.local?,
      hsu.local?_eq, hs]

theorem local?_eq_none_of_declarators {ds : List Declarator}
    (h : (declarators kind ds).lower types s = .ok () t) (hname : name ∉ ds.map Declarator.name)
    (hs : s.current.local? name = none) : t.current.local? name = none := by
  induction ds generalizing s with
  | nil =>
    cases (lower_declarators_nil types kind s).symm.trans h
    exact hs
  | cons d ds ih =>
    obtain ⟨u, hd, hds⟩ := declarators_cons_eq_ok h
    rw [List.map_cons, List.mem_cons, not_or] at hname
    exact ih hds hname.2 (local?_eq_none_of_declarator hd (Ne.symm hname.1) hs)

theorem local?_eq_none_of_statements (h : (statements body).lower types s = .ok () t)
    (hname : name ∉ body.flatMap Stmt.declaredNames) (hs : s.current.local? name = none) :
    t.current.local? name = none := by
  induction body generalizing s with
  | nil =>
    cases (lower_statements_nil types s).symm.trans h
    exact hs
  | cons stmt body ih =>
    obtain ⟨u, w, hstmt, hsettle, hbody⟩ := statements_cons_eq_ok h
    rw [List.flatMap_cons, List.mem_append, not_or] at hname
    have hu : u.current.local? name = none := by
      cases stmt with
      | declaration kind ds =>
        rw [lower_declaration] at hstmt
        exact local?_eq_none_of_declarators hstmt hname.1 hs
      | _ => rw [((still types _ rfl s).result hstmt).local?_eq, hs]
    refine ih hbody hname.2 ?_
    rw [((Lower.still_build neutral_settle u).result hsettle).local?_eq, hu]

end Task

theorem map_name_paramLocals (first : Nat) (names : List String) :
    (paramLocals first names).map Local.name = names.reverse := by
  induction names generalizing first with
  | nil => rfl
  | cons name names ih => simp [paramLocals, ih]

/-! ## The beginning of a body -/

namespace LowersBody

theorem fresh (h : LowersBody types options program params body s) :
    Fresh params.length s.current := by
  cases h with
  | main => exact fresh_main options.source
  | nested _ hopen => exact (opened_of_openBody hopen).fresh

/-- The locals at the beginning of a body are its parameters. -/
theorem locals (h : LowersBody types options program params body s) :
    s.current.registers.locals = paramLocals 0 params := by
  cases h with
  | main => rfl
  | nested _ hopen => exact (opened_of_openBody hopen).locals

theorem local?_eq_none (h : LowersBody types options program params body s)
    (hname : name ∉ params) : s.current.local? name = none := by
  rw [OpenFunction.local?, Registers.find?, List.find?_eq_none, h.locals]
  rintro l hl
  have hl := List.mem_map_of_mem (f := Local.name) hl
  rw [map_name_paramLocals, List.mem_reverse] at hl
  intro heq
  rw [beq_iff_eq] at heq
  exact hname (heq ▸ hl)

end LowersBody

/-! ## What may happen to a constant -/

namespace Session

theorem register_ne (hs : s.Ready) (hl : s.current.local? name = some l) {other : String}
    {l' : Local} (hl' : s.current.local? other = some l') (hne : l' ≠ l) :
    l'.register ≠ l.register := fun hregister ↦
  hne (hs.tidy.local_eq (List.mem_of_find?_eq_some hl') (List.mem_of_find?_eq_some hl) hregister)

theorem allows_except (hlinked : Linked s.functions) (hs : s.Ready)
    (hl : s.current.local? name = some l) (hconst : l.isConst = true) :
    s.Allows (· ≠ l.register) (fun _ ↦ True) where
  linked := hlinked
  free r hr := ((hs.tidy.find?_lt hl).trans_le hr).ne'
  assigned other l' hl' hassigned := register_ne hs hl hl' fun heq ↦ by
    rw [heq, hconst] at hassigned
    cases hassigned
  upvalue _ _ := trivial

theorem mayDeclare_except (hs : s.Ready) (hl : s.current.local? name = some l)
    (hname : name ∉ names) : s.MayDeclare (· ≠ l.register) names := fun other hother l' hl' ↦
  register_ne hs hl hl' fun heq ↦ by
    have hl := List.find?_some hl
    have hl' := List.find?_some hl'
    rw [beq_iff_eq] at hl hl'
    exact hname (by rwa [← hl, ← heq, hl'])

end Session

namespace OpenFunction.Supplied

theorem close_code (h : f.Supplied W U 0 false g) :
    ∃ rest : List Instruction, g.close.code = f.proto.code ++ rest.toArray ∧
      ∀ i ∈ rest, ∀ r, i.writes r = true → W r := by
  obtain ⟨is, his, hobeys, -⟩ := h.code
  refine ⟨is ++ [.abc .ret 0 1 0], by simp [close, his, emit], fun i hi ↦ ?_⟩
  rcases List.mem_append.mp hi with hi | hi
  · exact (hobeys i hi).writes
  · rw [List.mem_singleton.mp hi]
    exact fun _ hr ↦ absurd hr Bool.false_ne_true

/-- A register that no function captured before is set by none through an upvalue if it may not be
written. -/
theorem not_setsCaptured (h : f.Supplied W U 0 false g) (hr : ¬ W r)
    (hbefore : ∀ c ∈ f.proto.children, ∀ upvalue ∈ c.upvalues, upvalue.inStack = true →
      upvalue.index.toNat ≠ r) : ¬ g.close.SetsCaptured r := by
  rintro ⟨c, hc, v, upvalue, hsets, hv, hstack, rfl⟩
  rcases h.nested c hc with hc | hc
  · exact hbefore c hc upvalue (List.mem_of_getElem? hv) hstack rfl
  · have hset := hc.sets v upvalue hsets hv
    rw [if_pos hstack] at hset
    exact hr hset

end OpenFunction.Supplied

/-! ## Declarations of constants -/

/-- A body is lowered from `entry` to `last`, and one of its declarations from `start` to `stop`. -/
structure DeclarationRun (types : TypeOracle) (before : List Stmt) (kind : DeclKind)
    (left : List Declarator) (d : Declarator) (right : List Declarator) (after : List Stmt)
    (entry start stop last : Session) : Prop where
  lower_before : (do
    Lower.statements types before
    Lower.declarators types kind left : Lower Unit) entry = .ok () start
  lower_here : (Task.declarator kind d).lower types start = .ok () stop
  lower_after : (do
    Lower.declarators types kind right
    Lower.onCurrent settle
    Lower.statements types after : Lower Unit) stop = .ok () last

theorem exists_declarationRun (h : Lower.statements types
    (before ++ .declaration kind (left ++ d :: right) :: after) entry = .ok () last) :
    ∃ start stop, DeclarationRun types before kind left d right after entry start stop last := by
  obtain ⟨middle, hbefore, h⟩ := Task.statements_append_eq_ok h
  obtain ⟨u, w, hdeclaration, hsettle, hafter⟩ := Task.statements_cons_eq_ok h
  rw [Task.lower_declaration] at hdeclaration
  obtain ⟨start, hleft, h⟩ := Task.declarators_append_eq_ok hdeclaration
  obtain ⟨stop, hd, hright⟩ := Task.declarators_cons_eq_ok h
  exact ⟨start, stop, (bind_of_ok hbefore).trans hleft, hd,
    (bind_of_ok hright).trans ((bind_of_ok hsettle).trans hafter)⟩

namespace DeclarationRun

variable {init : Option Expr}

/-- A name that has not been declared is new. -/
theorem isNew (h : DeclarationRun types before kind left d right after entry start stop last)
    (hbody : LowersBody types options program params body entry) (hparams : name ∉ params)
    (hbefore : name ∉ before.flatMap Stmt.declaredNames) (hleft : name ∉ left.map Declarator.name) :
    start.current.local? name = none := by
  obtain ⟨_, middle, hmiddle, hstart⟩ := bind_eq_ok h.lower_before
  refine Task.local?_eq_none_of_declarators hstart hleft ?_
  exact Task.local?_eq_none_of_statements hmiddle hbefore (hbody.local?_eq_none hparams)

/-- The local that a declaration binds. No function that was nested so far has captured it. -/
theorem binds
    (h : DeclarationRun types before .const left ⟨name, init⟩ right after entry start stop last)
    (hbody : LowersBody types options program params body entry)
    (hnew : start.current.local? name = none) :
    (Linked stop.functions ∧ stop.Ready ∧ stop.Settled) ∧
      ∃ l, stop.current.local? name = some l ∧ l.isConst = true ∧
        ∀ c ∈ stop.current.proto.children, ∀ upvalue ∈ c.upvalues, upvalue.inStack = true →
          upvalue.index.toNat < l.register := by
  have hlinked := hbody.encounters.linked
  have hentry := hbody.encounters.settled rfl
  obtain ⟨⟨hbefore, hready, hsettled⟩, hcode⟩ :=
    ((supplies_statements types before).bind (supplies_declarators types .const left) _ _ entry
      (Session.allows_all hlinked) (fun _ _ _ _ ↦ trivial) hentry.1 hentry.2).result h.lower_before
  have hallows := Session.allows_all (hbefore.linked hlinked)
  have hinit : ∀ value ∈ init.map (Lower.expr types), SuppliesValue value := by
    cases init with
    | none => rintro _ ⟨⟩
    | some e =>
      rintro _ ⟨⟩
      exact supplies_expr types e
  obtain ⟨⟨hstop, hstopped⟩, -⟩ := (suppliesStatement_declare .const name hinit _ _ start hallows
    (fun _ _ _ _ ↦ trivial) hready hsettled).result h.lower_here
  refine ⟨⟨hstop.linked (hbefore.linked hlinked), hstopped⟩, ?_⟩
  obtain ⟨u, r, hu, hvalue, rfl⟩ :=
    Lower.binds_of_declare (Task.still_init types init) rfl hnew h.lower_here
  refine ⟨⟨name, r, true⟩, ?_, rfl, fun c hc upvalue hupvalue hstack ↦ ?_⟩
  · rw [OpenFunction.local?, Registers.find?_bind, if_pos rfl]
    rfl
  · -- When the value has been computed, the register is the first one above the locals.
    obtain ⟨-, hcode', rfl, -⟩ := (supplies_initialValue hinit hallows hready).result hvalue
    have hwhole := hcode.trans (hcode'.lower (Nat.zero_le _) (le_refl _))
    rcases hwhole.nested c hc with hc | hc
    · simp [hbody.fresh.children] at hc
    · exact (hc.captured upvalue hupvalue hstack).trans_eq (hu.numLocals_eq.trans hsettled.symm)

theorem retained (h : DeclarationRun types before kind left d right after entry start stop last) :
    stop.current.Retained last.current := by
  obtain ⟨_, u, hright, hrest⟩ := bind_eq_ok h.lower_after
  obtain ⟨_, w, hsettle, hafter⟩ := bind_eq_ok hrest
  have hsettle := (Lower.still_build neutral_settle u).result hsettle
  exact ((Task.retained_of_declarators hright).trans hsettle.retained).trans
    (Task.retained_of_statements hafter)

end DeclarationRun

theorem not_mem_of_declaredOnce (h : (params ++ (before ++
    .declaration kind (left ++ d :: right) :: after).flatMap Stmt.declaredNames).count d.name = 1) :
    d.name ∉ params ∧ d.name ∉ before.flatMap Stmt.declaredNames ∧
      d.name ∉ left.map Declarator.name ∧
      d.name ∉ right.map Declarator.name ++ ([] ++ after.flatMap Stmt.declaredNames) := by
  simp only [List.flatMap_append, List.flatMap_cons, Stmt.declaredNames, List.map_append,
    List.map_cons, List.count_append, List.count_cons_self] at h
  simp only [← List.count_eq_zero, List.count_append, List.count_nil]
  omega

/-- A constant that is declared once in its function keeps its register. Behind the declaration no
instruction writes it, and no nested function sets an upvalue that leads to it. -/
theorem constant_never_written {p : Prototype} {init : Option Expr}
    (hp : compileBody types options program = .ok p)
    (hbody : LowersBody types options program params body entry)
    (hsplit : body = before ++ .declaration .const (left ++ ⟨name, init⟩ :: right) :: after)
    (honce : (params ++ body.flatMap Stmt.declaredNames).count name = 1) :
    ∃ start stop last l rest,
      DeclarationRun types before .const left ⟨name, init⟩ right after entry start stop last ∧
      p.Contains last.current.close ∧ start.current.local? name = none ∧
      stop.current.local? name = some l ∧ last.current.local? name = some l ∧ l.isConst = true ∧
      last.current.close.code = stop.current.proto.code ++ List.toArray rest ∧
      (∀ i ∈ rest, i.writes l.register = false) ∧
      ¬ last.current.close.SetsCaptured l.register := by
  obtain ⟨⟨⟩, last, hlast⟩ := hbody.encounters.succeeds hp
  have hcontains := hbody.contains hp hlast
  subst hsplit
  obtain ⟨start, stop, hrun⟩ := exists_declarationRun hlast
  obtain ⟨hparams, hbefore, hleft, hlater⟩ :=
    not_mem_of_declaredOnce (d := ⟨name, init⟩) honce
  have hnew := hrun.isNew hbody hparams hbefore hleft
  obtain ⟨⟨hlinked, hready, hsettled⟩, l, hl, hconst, hcaptured⟩ := hrun.binds hbody hnew
  obtain ⟨-, hsupplied⟩ :=
    ((supplies_declarators types .const right).bind
      (.bind .settle (supplies_statements types after)) _ _ stop
      (Session.allows_except hlinked hready hl hconst)
      (Session.mayDeclare_except hready hl hlater) hready hsettled).result hrun.lower_after
  obtain ⟨rest, hcode, hwrites⟩ := hsupplied.close_code
  refine ⟨start, stop, last, l, rest, hrun, hcontains, hnew, hl, hrun.retained.local? hl, hconst,
    hcode, fun i hi ↦ ?_, hsupplied.not_setsCaptured (fun hne ↦ hne rfl)
      fun c hc upvalue hu hstack ↦ (hcaptured c hc upvalue hu hstack).ne⟩
  exact Bool.eq_false_iff.mpr fun hwrite ↦ hwrites i hi _ hwrite rfl

/-- `function f() { let y = x; y = false; return x; } let z = x; z = false;` -/
def constantUses : List Stmt :=
  [.function "f" []
    [.declaration .let [⟨"y", some (.identifier "x")⟩],
     .expression (.assign .plain (.identifier "y") (.literal (.boolean false))),
     .ret (some (.identifier "x"))],
   .declaration .let [⟨"z", some (.identifier "x")⟩],
   .expression (.assign .plain (.identifier "z") (.literal (.boolean false)))]

/-- The same with `const x = true;` in front. -/
def capturedConstant : List Stmt :=
  .declaration .const [⟨"x", some (.literal (.boolean true))⟩] :: constantUses

/-- The constant is captured, and other variables are assigned, both in the function that captures
it and in its own. -/
theorem constant_never_written_capturedConstant :
    ∃ p start stop last l rest,
      compileBody (SyntaxOracle.oracle {}) {} capturedConstant = .ok p ∧
      DeclarationRun (SyntaxOracle.oracle {}) [] .const [] ⟨"x", some (.literal (.boolean true))⟩ []
        constantUses ((Session.main none).hoisted capturedConstant) start stop last ∧
      p.Contains last.current.close ∧ start.current.local? "x" = none ∧
      stop.current.local? "x" = some l ∧ last.current.local? "x" = some l ∧ l.isConst = true ∧
      last.current.close.code = stop.current.proto.code ++ List.toArray rest ∧
      (∀ i ∈ rest, i.writes l.register = false) ∧
      ¬ last.current.close.SetsCaptured l.register := by
  have hok : (match compileBody (SyntaxOracle.oracle {}) {} capturedConstant with
      | .ok _ => true
      | .error _ => false) = true := by decide +kernel
  cases hp : compileBody (SyntaxOracle.oracle {}) {} capturedConstant with
  | error e =>
    rw [hp] at hok
    cases hok
  | ok p =>
    have hsplit : capturedConstant = [] ++ .declaration .const
      ([] ++ ⟨"x", some (.literal (.boolean true))⟩ :: []) :: constantUses := rfl
    obtain ⟨start, stop, last, l, rest, h⟩ :=
      constant_never_written hp .main hsplit (by decide)
    exact ⟨p, start, stop, last, l, rest, rfl, h⟩

end LuaLower
