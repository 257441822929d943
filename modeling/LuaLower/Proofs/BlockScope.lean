import LuaLower.Proofs.DeclaredVariables

/-!
# The scope of block-scoped names

A `let` or `const` that binds a new local does so from that point of its function on. Every
reference that is lowered later, in the function itself or in one nested in it, is to that local or
to one of a function in between, and never to a global. A reference that is lowered earlier does not
see the local.
-/

namespace LuaLower

open OpenFunction Build

variable {types : TypeOracle} {options : Options} {program : List Stmt}

/-! ## The functions around a visited task -/

/-- The functions that are open in `s` are open in `u` and after that in `t`. -/
def Session.Between (s u t : Session) : Prop :=
  ∃ inner base, u.functions = inner ++ base ∧ List.Forall₂ Retained s.functions base ∧
    List.Forall₂ Developed base t.functions

/-- The functions around a part of a plan, when the part begins and when it ends. -/
theorem Plan.Meets.surrounded {α : Type} {plan : Plan α} {part : Task} {s t u w : Session} {a : α}
    {b : part.Result} (h : plan.Meets types s part u) (hrun : plan.run types s = .ok a t)
    (hpart : part.lower types u = .ok b w) :
    ∃ inner base inner' base', u.functions = inner ++ base ∧
      List.Forall₂ Retained s.functions base ∧ w.functions = inner' ++ base' ∧
      inner'.length = inner.length ∧ List.Forall₂ Developed base' t.functions := by
  have hsame (f : Session) : List.Forall₂ Retained f.functions f.functions :=
    List.forall₂_same.mpr fun f _ ↦ .refl f
  induction h with
  | part task rest s =>
    rw [Plan.run, bind_of_ok hpart] at hrun
    have hrest := ((rest b).run_steady types w).result hrun
    exact ⟨[], _, [], _, rfl, hsame s, rfl, rfl, hrest.functions⟩
  | @afterPart _ _ _ _ v _ _ hfirst _ ih =>
    rw [Plan.run, bind_of_ok hfirst] at hrun
    obtain ⟨inner, base, inner', base', hu, hbase, hw, hlength, hbase'⟩ := ih hrun hpart
    have hv := ((Task.steady types _ _).result hfirst)
    refine ⟨inner, base, inner', base', hu, forall₂_trans .trans ?_ hbase, hw, hlength, hbase'⟩
    exact .cons (Task.retained hfirst) (hv.enclosing.imp fun _ _ h ↦ h.retained)
  | @afterStep _ _ still _ _ _ _ _ _ hfirst _ ih =>
    rw [Plan.run, bind_of_ok hfirst] at hrun
    obtain ⟨inner, base, inner', base', hu, hbase, hw, hlength, hbase'⟩ := ih hrun hpart
    have hv := (still _).result hfirst
    refine ⟨inner, base, inner', base', hu, forall₂_trans .trans ?_ hbase, hw, hlength, hbase'⟩
    exact .cons hv.retained (hv.enclosing.imp fun _ _ h ↦ h.retained)
  | @body params body rest s u hopen =>
    obtain ⟨v, x, hfunction, hrest⟩ := bind_eq_ok hrun
    obtain ⟨parent, outer, hw, hclosure⟩ := inFunction_eq_ok hopen hpart hfunction
    have hafter : parent.Developed (parent.afterNested w.current) :=
      SameVariables.developed ⟨rfl, rfl, rfl⟩
    have hparent : List.Forall₂ Developed w.enclosing (parent.afterNested w.current :: outer) := by
      rw [hw]
      exact .cons hafter (List.forall₂_same.mpr fun f _ ↦ .refl f)
    refine ⟨[u.current], u.enclosing, [w.current], w.enclosing, rfl, ?_, rfl, rfl, ?_⟩
    · rw [(opened_of_openBody hopen).enclosing]
      exact hsame s
    · have hx := ((Lower.still_closure w.current.close _).result hclosure).functions
      exact forall₂_trans .trans (forall₂_trans .trans hparent hx)
        (((rest v).run_steady types x).result hrest).functions

theorem Session.Between.follows {s u t t' : Session} (h : s.Between u t) (ht : t.Follows t') :
    s.Between u t' := by
  obtain ⟨inner, base, hu, hbegin, hend⟩ := h
  exact ⟨inner, base, hu, hbegin, forall₂_trans .trans hend ht.functions⟩

/-- A function has no local that it lacks later. -/
theorem Session.Between.local?_eq_none {s u t : Session} {name : String} (h : s.Between u t)
    (hname : t.current.local? name = none) :
    ∃ inner f outer, u.functions = inner ++ f :: outer ∧ outer.length = s.enclosing.length ∧
      f.local? name = none := by
  obtain ⟨inner, base, hu, hbegin, hend⟩ := h
  cases hbegin with
  | @cons _ f _ outer hf houter =>
    cases hend with
    | cons hdeveloped =>
      refine ⟨inner, f, outer, hu, houter.length_eq.symm, ?_⟩
      rw [← Option.not_isSome_iff_eq_none] at hname ⊢
      exact fun hsome ↦ hname (hdeveloped.isSome_local? hsome)

theorem Visits.between {task visited : Task} {s t u : Session} {a : task.Result}
    (h : Visits types task s visited u) (hrun : task.lower types s = .ok a t) :
    s.Between u t := by
  induction h generalizing t with
  | self task s =>
    exact ⟨[], _, rfl, List.forall₂_same.mpr fun f _ ↦ .refl f,
      ((task.steady types s).result hrun).functions⟩
  | inside hmeets _ ih =>
    rw [← Task.run_plan] at hrun
    obtain ⟨b, w, hpart⟩ := hmeets.succeeds hrun
    obtain ⟨inner, base, inner', base', hm, hbase, hw, hlength, hbase'⟩ :=
      hmeets.surrounded hrun hpart
    obtain ⟨inside, whole, hu, hbegin, hend⟩ := ih hpart
    have hbegin := List.forall₂_drop inner.length hbegin
    have hend := List.forall₂_drop inner.length hend
    rw [hm, List.drop_left] at hbegin
    rw [hw, ← hlength, List.drop_left] at hend
    rw [hlength] at hend
    refine ⟨inside ++ whole.take inner.length, whole.drop inner.length, ?_,
      forall₂_trans .trans hbase hbegin, forall₂_trans .trans hend hbase'⟩
    rw [hu, List.append_assoc, List.take_append_drop]

/-! ## Rows of statements -/

section Rows

variable {task : Task} {s u : Session}

theorem Visits.of_statements_cons {stmt : Stmt} {body : List Stmt}
    (htask : task.isStatement = false) (h : Visits types (.statements (stmt :: body)) s task u) :
    Visits types (.statement stmt) s task u ∨
      ∃ t w, Lower.statement types stmt s = .ok () t ∧ Lower.onCurrent settle t = .ok () w ∧
        Visits types (.statements body) w task u := by
  cases h with
  | self => cases htask
  | inside hmeets h =>
    cases hmeets with
    | part => exact .inl h
    | afterPart hstmt hmeets =>
      cases hmeets with
      | afterStep hsettle hmeets =>
        cases hmeets with
        | part => exact .inr ⟨_, _, hstmt, hsettle, h⟩
        | afterPart _ hmeets => cases hmeets

theorem Visits.of_statements_append {before after : List Stmt} (htask : task.isStatement = false)
    (h : Visits types (.statements (before ++ after)) s task u) :
    Visits types (.statements before) s task u ∨
      ∃ t, Lower.statements types before s = .ok () t ∧
        Visits types (.statements after) t task u := by
  induction before generalizing s with
  | nil => exact .inr ⟨s, Task.lower_statements_nil types s, h⟩
  | cons stmt before ih =>
    obtain h | ⟨t, w, hstmt, hsettle, h⟩ := h.of_statements_cons htask
    · exact .inl (.inside (.part _ _ _) h)
    · obtain h | ⟨x, hbefore, h⟩ := ih h
      · exact .inl (.inside (.afterPart hstmt (.afterStep hsettle (.part _ _ _))) h)
      · exact .inr ⟨x, Task.lower_statements_cons hstmt hsettle hbefore, h⟩

theorem Visits.of_declarators_cons {kind : DeclKind} {d : Declarator} {ds : List Declarator}
    (htask : task.isStatement = false) (h : Visits types (.declarators kind (d :: ds)) s task u) :
    Visits types (.declarator kind d) s task u ∨
      ∃ t, (Task.declarator kind d).lower types s = .ok () t ∧
        Visits types (.declarators kind ds) t task u := by
  cases h with
  | self => cases htask
  | inside hmeets h =>
    cases hmeets with
    | part => exact .inl h
    | afterPart hd hmeets =>
      cases hmeets with
      | part => exact .inr ⟨_, hd, h⟩
      | afterPart _ hmeets => cases hmeets

theorem Visits.of_declarators_append {kind : DeclKind} {left right : List Declarator}
    (htask : task.isStatement = false)
    (h : Visits types (.declarators kind (left ++ right)) s task u) :
    Visits types (.declarators kind left) s task u ∨
      ∃ t, Lower.declarators types kind left s = .ok () t ∧
        Visits types (.declarators kind right) t task u := by
  induction left generalizing s with
  | nil => exact .inr ⟨s, Task.lower_declarators_nil types kind s, h⟩
  | cons d left ih =>
    obtain h | ⟨t, hd, h⟩ := h.of_declarators_cons htask
    · exact .inl (.inside (.part _ _ _) h)
    · obtain h | ⟨x, hleft, h⟩ := ih h
      · exact .inl (.inside (.afterPart hd (.part _ _ _)) h)
      · exact .inr ⟨x, Task.lower_declarators_cons hd hleft, h⟩

theorem Visits.of_declaration {kind : DeclKind} {ds : List Declarator}
    (htask : task.isStatement = false)
    (h : Visits types (.statement (.declaration kind ds)) s task u) :
    Visits types (.declarators kind ds) s task u := by
  cases h with
  | self => cases htask
  | inside hmeets h =>
    cases hmeets with
    | part => exact h
    | afterPart _ hmeets => cases hmeets

/-- All that is lowered for a declaration is the value that a new local starts with. -/
theorem Visits.of_declarator {kind : DeclKind} {name : String} {init : Option Expr}
    (hkind : kind.bindsLocal = true) (hnew : s.current.local? name = none)
    (htask : task.isStatement = false)
    (h : Visits types (.declarator kind ⟨name, init⟩) s task u) :
    ∃ e, init = some e ∧ Visits types (.expr e) s task u := by
  cases h with
  | self => cases htask
  | inside hmeets hvisits =>
    cases init with
    | none =>
      cases hmeets with
      | afterStep hfind hmeets =>
        obtain ⟨rfl, rfl⟩ := EStateM.Result.ok.inj hfind
        simp only [hnew, hkind, if_true] at hmeets
        cases hmeets
    | some e =>
      cases hmeets with
      | afterStep hfind hmeets =>
        obtain ⟨rfl, rfl⟩ := EStateM.Result.ok.inj hfind
        simp only [hnew, hkind, Option.isNone_none, and_self, if_true] at hmeets
        cases hmeets with
        | part => exact ⟨e, rfl, hvisits⟩
        | afterPart _ hmeets => cases hmeets

end Rows

/-! ## Declarations of new locals -/

/-- A declaration in the body of a function that binds a new local, and the sessions on the way: at
the start of the body, of the statement and of the declaration, and right behind it. -/
structure LocalDeclaration (types : TypeOracle) (options : Options) (program : List Stmt) where
  params : List String
  before : List Stmt
  kind : DeclKind
  left : List Declarator
  name : String
  init : Option Expr
  right : List Declarator
  after : List Stmt
  entry : Session
  middle : Session
  start : Session
  stop : Session
  lowersBody : LowersBody types options program params
    (before ++ .declaration kind (left ++ ⟨name, init⟩ :: right) :: after) entry
  lower_before : Lower.statements types before entry = .ok () middle
  lower_left : Lower.declarators types kind left middle = .ok () start
  bindsLocal : kind.bindsLocal = true
  isNew : start.current.local? name = none
  lower_name : (Task.declarator kind ⟨name, init⟩).lower types start = .ok () stop

namespace LocalDeclaration

variable (D : LocalDeclaration types options program)

def body : List Stmt :=
  D.before ++ .declaration D.kind (D.left ++ ⟨D.name, D.init⟩ :: D.right) :: D.after

/-- The body lowers a task before it binds the local. -/
inductive Earlier (task : Task) (u : Session) : Prop
  | statement : Visits types (.statements D.before) D.entry task u → Earlier task u
  | sibling : Visits types (.declarators D.kind D.left) D.middle task u → Earlier task u
  | initial {e : Expr} : D.init = some e → Visits types (.expr e) D.start task u → Earlier task u

/-- The body lowers a task after it has bound the local. -/
inductive Later (task : Task) (u : Session) : Prop
  | sibling : Visits types (.declarators D.kind D.right) D.stop task u → Later task u
  | statement {t w : Session} : Lower.declarators types D.kind D.right D.stop = .ok () t →
    Lower.onCurrent settle t = .ok () w → Visits types (.statements D.after) w task u →
    Later task u

variable {D}

theorem earlier_or_later {task : Task} {u : Session} (htask : task.isStatement = false)
    (h : Visits types (.statements D.body) D.entry task u) : D.Earlier task u ∨ D.Later task u := by
  obtain h | ⟨m, hm, h⟩ := h.of_statements_append htask
  · exact .inl (.statement h)
  cases D.lower_before.symm.trans hm
  obtain h | ⟨t, w, hdeclaration, hsettle, h⟩ := h.of_statements_cons htask
  · obtain h | ⟨m, hm, h⟩ := (h.of_declaration htask).of_declarators_append htask
    · exact .inl (.sibling h)
    cases D.lower_left.symm.trans hm
    obtain h | ⟨m, hm, h⟩ := h.of_declarators_cons htask
    · obtain ⟨e, he, h⟩ := h.of_declarator D.bindsLocal D.isNew htask
      exact .inl (.initial he h)
    · cases D.lower_name.symm.trans hm
      exact .inr (.sibling h)
  · rw [← Task.lower, Task.lower_declaration] at hdeclaration
    obtain ⟨m, hm, hrest⟩ := Task.declarators_append_eq_ok hdeclaration
    cases D.lower_left.symm.trans hm
    obtain ⟨m, hm, hright⟩ := Task.declarators_cons_eq_ok hrest
    cases D.lower_name.symm.trans hm
    exact .inr (.statement hright hsettle h)

theorem exists_local (D : LocalDeclaration types options program) :
    ∃ l, D.stop.current.local? D.name = some l := by
  obtain ⟨u, r, -, -, hstop⟩ :=
    Lower.binds_of_declare (Task.still_init types D.init) D.bindsLocal D.isNew D.lower_name
  refine ⟨⟨D.name, r, D.kind == .const⟩, ?_⟩
  rw [hstop, OpenFunction.local?, Registers.find?_bind, if_pos rfl]

theorem follows_middle (D : LocalDeclaration types options program) : D.entry.Follows D.middle :=
  (Task.steady types (.statements D.before) _).result D.lower_before

theorem follows_start (D : LocalDeclaration types options program) : D.middle.Follows D.start :=
  (Task.steady types (.declarators D.kind D.left) _).result D.lower_left

theorem follows_stop (D : LocalDeclaration types options program) : D.start.Follows D.stop :=
  (Task.steady types _ _).result D.lower_name

/-- Before the declaration, the function does not have the local. -/
theorem Earlier.local?_eq_none {task : Task} {u : Session} (h : D.Earlier task u) :
    ∃ inner f outer, u.functions = inner ++ f :: outer ∧
      outer.length = D.entry.enclosing.length ∧ f.local? D.name = none := by
  have hmiddle := D.follows_middle.enclosing.length_eq
  have hstart := D.follows_start.enclosing.length_eq
  cases h with
  | statement h =>
    exact ((h.between D.lower_before).follows D.follows_start).local?_eq_none D.isNew
  | sibling h =>
    obtain ⟨inner, f, outer, hu, houter, hf⟩ := (h.between D.lower_left).local?_eq_none D.isNew
    exact ⟨inner, f, outer, hu, by omega, hf⟩
  | @initial e he h =>
    have hdeclare := D.lower_name
    rw [Task.lower, he] at hdeclare
    obtain ⟨_, r, -, hvalue, -⟩ := Lower.binds_of_declare (Task.still_init types (some e))
      D.bindsLocal D.isNew hdeclare
    obtain ⟨v, t, hv, -⟩ := bind_eq_ok hvalue
    have hstays := ((Task.expr e).still types rfl D.start).result hv
    obtain ⟨inner, f, outer, hu, houter, hf⟩ :=
      (h.between hv).local?_eq_none ((hstays.local?_eq _).trans D.isNew)
    exact ⟨inner, f, outer, hu, by omega, hf⟩

/-- After the declaration, the function has the local that was bound. -/
theorem Later.local?_eq {task : Task} {u : Session} (h : D.Later task u) :
    ∃ inner f outer, u.functions = inner ++ f :: outer ∧
      outer.length = D.entry.enclosing.length ∧
      f.local? D.name = D.stop.current.local? D.name := by
  have haround : D.stop.Around u := by
    cases h with
    | sibling h => exact h.around
    | statement hright hsettle h =>
      have hright : (Task.declarators D.kind D.right).lower types D.stop = .ok () _ := hright
      have hsettle := (Lower.still_build neutral_settle _).result hsettle
      exact (Session.Around.of_task hright).trans ((Session.Around.of_stays hsettle).trans h.around)
  obtain ⟨l, hl⟩ := D.exists_local
  obtain ⟨inner, base, hu, hbase⟩ := haround.functions
  cases hbase with
  | @cons _ f _ outer hf houter =>
    have hfollows := (D.follows_middle.trans D.follows_start).trans D.follows_stop
    have hlength := hfollows.enclosing.length_eq
    refine ⟨inner, f, outer, hu, houter.length_eq.symm.trans hlength.symm, ?_⟩
    rw [hl, hf.local? hl]

end LocalDeclaration

/-! ## References -/

def Place.toTarget : Place → Target
  | .register r => .register r
  | .upvalue u => .upvalue u

/-- A reference to a name, read or assigned to, is compiled to the place of a variable. -/
inductive RefersTo (types : TypeOracle) (name : String) (s t : Session) : Task → Place → Prop
  | read {place : Place} : Lower.expr types (.identifier name) s = .ok place.toValue t →
    RefersTo types name s t (.expr (.identifier name)) place
  | assigned {place : Place} : Lower.target types (.identifier name) s = .ok place.toTarget t →
    RefersTo types name s t (.target (.identifier name)) place

section References

variable {name : String} {s t : Session}

theorem place?_isSome (hlinked : Linked s.functions) {f : OpenFunction} (hf : f ∈ s.functions)
    (hname : (f.local? name).isSome) {place : Option Place}
    (h : Lower.place? name s = .ok place t) :
    ∃ found, place = some found ∧
      (name ≠ envName → Designates name s.functions t.functions (some found)) := by
  by_cases henv : name = envName
  · subst henv
    cases hlocal : s.current.local? envName with
    | some l =>
      cases (place?_of_local hlocal).symm.trans h
      exact ⟨_, rfl, fun hne ↦ absurd rfl hne⟩
    | none =>
      have hcapture := capture_of_index s.enclosing hlinked.1.upvalueIndex?_env
      cases (place?_of_capture hlocal hcapture).symm.trans h
      exact ⟨_, rfl, fun hne ↦ absurd rfl hne⟩
  · obtain ⟨-, hdesignates, -⟩ := (yields_place?_linked henv hlinked).result h
    cases place with
    | some found => exact ⟨found, rfl, fun _ ↦ hdesignates⟩
    | none =>
      -- Without a place there would be no variable of the name.
      have hnearest : nearest? name s.functions = none := by
        rw [Designates] at hdesignates
        split at hdesignates
        · assumption
        · cases hdesignates
        · obtain ⟨u, hu, -⟩ := hdesignates
          cases hu
      rw [nearest?_eq_none_iff] at hnearest
      simp [hnearest f hf] at hname

theorem refersTo_of_variable (howners : s.names.owners = []) (hlinked : Linked s.functions)
    {f : OpenFunction} (hf : f ∈ s.functions) (hname : (f.local? name).isSome) {task : Task}
    (htask : task = .expr (.identifier name) ∨ task = .target (.identifier name)) {b : task.Result}
    (h : task.lower types s = .ok b t) :
    ∃ place, RefersTo types name s t task place ∧
      (name ≠ envName → Designates name s.functions t.functions (some place)) := by
  obtain rfl | rfl := htask
  · have hread := h
    rw [Task.lower, Lower.expr, Lower.lookup, get_bind] at h
    simp only [howners] at h
    obtain ⟨place, u, hplace, h⟩ := bind_eq_ok h
    obtain ⟨found, rfl, hfound⟩ := place?_isSome hlinked hf hname hplace
    cases h
    exact ⟨found, .read hread, hfound⟩
  · have hassigned := h
    rw [Task.lower, Lower.target, Lower.nameTarget, get_bind] at h
    split at h
    · cases h
    · obtain ⟨place, u, hplace, h⟩ := bind_eq_ok h
      obtain ⟨found, rfl, hfound⟩ := place?_isSome hlinked hf hname hplace
      cases found with
      | register r =>
        cases h
        exact ⟨.register r, .assigned hassigned, hfound⟩
      | upvalue v =>
        cases h
        exact ⟨.upvalue v, .assigned hassigned, hfound⟩

theorem nearest?_append {inner outer : List OpenFunction} {f : OpenFunction} {l : Local}
    (hinner : ∀ g ∈ inner, g.local? name = none) (hf : f.local? name = some l) :
    nearest? name (inner ++ f :: outer) = some (inner.length, l.register) := by
  induction inner with
  | nil => exact nearest?_of_local outer hf
  | cons g inner ih =>
    rw [List.forall_mem_cons] at hinner
    rw [List.cons_append, nearest?_of_none _ hinner.1, ih hinner.2]
    rfl

/-- A name that nothing stands for cannot be read. -/
theorem lookup_of_nothing (howners : s.names.owners = []) (hlinked : Linked s.functions)
    (hname : name ≠ envName) (hvariable : ∀ f ∈ s.functions, f.local? name = none)
    (hconstant : namedConstant? name = none)
    (hglobal : (s.names.knowsGlobal name || types.isAmbient name) = false) :
    Lower.lookup types name s = .error (.unresolved name) s := by
  have hplace := place?_of_missing hlinked hname (nearest?_eq_none_iff.mpr hvariable)
  rw [Lower.lookup, get_bind]
  simp only [howners, hconstant, hglobal, Bool.false_eq_true, if_false]
  exact bind_of_ok hplace

end References

/-- A reference that comes later than the declaration of a local is to a variable, and to that local
if nothing in between hides it. An earlier one does not see the local. -/
theorem reference_to_blockScoped (D : LocalDeclaration types options program) {task : Task}
    {u : Session} (hvisit : Visits types (.statements D.body) D.entry task u)
    (htask : task = .expr (.identifier D.name) ∨ task = .target (.identifier D.name)) :
    ∃ inner f outer, u.functions = inner ++ f :: outer ∧
      outer.length = D.entry.enclosing.length ∧
      ((D.Later task u ∧ ∃ l, D.stop.current.local? D.name = some l ∧ f.local? D.name = some l ∧
          ∀ b t, task.lower types u = .ok b t → ∃ place, RefersTo types D.name u t task place ∧
            (D.name ≠ envName → (∀ g ∈ inner, g.local? D.name = none) →
              nearest? D.name u.functions = some (inner.length, l.register) ∧
              Designates D.name u.functions t.functions (some place))) ∨
        (D.Earlier task u ∧ f.local? D.name = none ∧
          (task = .expr (.identifier D.name) → D.name ≠ envName →
            (∀ g ∈ inner ++ outer, g.local? D.name = none) → namedConstant? D.name = none →
            (u.names.knowsGlobal D.name || types.isAmbient D.name) = false →
            compileBody types options program = .error (.unresolved D.name)))) := by
  have hencounters : Encounters types options program task u :=
    D.lowersBody.encounters.trans hvisit
  have hstatement : task.isStatement = false := by
    obtain rfl | rfl := htask <;> rfl
  obtain hearlier | hlater := D.earlier_or_later hstatement hvisit
  · obtain ⟨inner, f, outer, hu, houter, hf⟩ := hearlier.local?_eq_none
    refine ⟨inner, f, outer, hu, houter, .inr ⟨hearlier, hf, ?_⟩⟩
    rintro rfl hname hothers hconstant hglobal
    refine Encounters.compileBody_eq hencounters (w := u) ?_
    refine lookup_of_nothing hencounters.owners hencounters.linked hname ?_ hconstant hglobal
    rw [hu]
    simp only [List.mem_append, List.mem_cons] at hothers ⊢
    rintro g (hg | rfl | hg)
    · exact hothers g (.inl hg)
    · exact hf
    · exact hothers g (.inr hg)
  · obtain ⟨inner, f, outer, hu, houter, hf⟩ := hlater.local?_eq
    obtain ⟨l, hl⟩ := D.exists_local
    refine ⟨inner, f, outer, hu, houter, .inl ⟨hlater, l, hl, hf.trans hl, fun b t hrun ↦ ?_⟩⟩
    obtain ⟨place, hplace, hdesignates⟩ :=
      refersTo_of_variable hencounters.owners hencounters.linked (f := f) (by simp [hu])
        (by simp [hf, hl]) htask hrun
    refine ⟨place, hplace, fun hname hinner ↦ ⟨?_, hdesignates hname⟩⟩
    rw [hu]
    exact nearest?_append hinner (hf.trans hl)

/-- `let x = true; return function () { return x; };` -/
def capturedLet : List Stmt :=
  [.declaration .let [⟨"x", some (.literal (.boolean true))⟩],
    .ret (some (.function none [] [.ret (some (.identifier "x"))]))]

/-- The session behind the first statement of `capturedLet`. -/
def Session.afterCapturedLet : Session where
  current :=
    { proto :=
        { isVararg := true, upvalues := [⟨envName, true, 0⟩], code := #[.abc .loadBool 0 1 0] }
      registers := { locals := [⟨"x", 0, false⟩], next := 1, high := 1 } }

/-- The session at the start of the function in `capturedLet`. -/
def Session.inCapturedLet : Session where
  current := { proto := { upvalues := [⟨envName, false, 0⟩] } }
  enclosing := [Session.afterCapturedLet.current]

def LocalDeclaration.capturedLet :
    LocalDeclaration (SyntaxOracle.oracle {}) {} LuaLower.capturedLet where
  params := []
  before := []
  kind := .let
  left := []
  name := "x"
  init := some (.literal (.boolean true))
  right := []
  after := [.ret (some (.function none [] [.ret (some (.identifier "x"))]))]
  entry := Session.main none
  middle := Session.main none
  start := Session.main none
  stop := .afterCapturedLet
  lowersBody := .main
  lower_before := rfl
  lower_left := rfl
  bindsLocal := rfl
  isNew := rfl
  lower_name := rfl

/-- The function in `capturedLet` reads the local of the main function. -/
theorem reference_to_blockScoped_capturedLet :
    Visits (SyntaxOracle.oracle {}) (.statements LocalDeclaration.capturedLet.body)
        LocalDeclaration.capturedLet.entry (.expr (.identifier "x")) .inCapturedLet ∧
      LocalDeclaration.capturedLet.Later (.expr (.identifier "x")) .inCapturedLet ∧
      ∃ place t,
        RefersTo (SyntaxOracle.oracle {}) "x" .inCapturedLet t (.expr (.identifier "x")) place ∧
        nearest? "x" Session.inCapturedLet.functions = some (1, 0) ∧
        Designates "x" Session.inCapturedLet.functions t.functions (some place) := by
  let D := LocalDeclaration.capturedLet
  have hvisit : Visits (SyntaxOracle.oracle {}) (.statements D.body) D.entry
      (.expr (.identifier "x")) .inCapturedLet := by
    have hlet : (Task.statement (.declaration .let [⟨"x", some (.literal (.boolean true))⟩])).lower
        (SyntaxOracle.oracle {}) (Session.main none) = .ok () .afterCapturedLet := rfl
    have hsettle : Lower.onCurrent settle .afterCapturedLet = .ok () .afterCapturedLet := rfl
    refine .inside (.afterPart hlet (.afterStep hsettle (.part _ _ _))) ?_
    refine .inside (.part _ _ _) (.inside (.part _ _ _) (.inside (.part _ _ _) ?_))
    refine .inside (.body (t := .inCapturedLet) rfl) ?_
    exact .inside (.part _ _ _) (.inside (.part _ _ _) (.self _ _))
  refine ⟨hvisit, ?_⟩
  obtain ⟨inner, f, outer, hfunctions, houter, hcases⟩ :=
    reference_to_blockScoped D hvisit (.inl rfl)
  obtain rfl : outer = [] := List.eq_nil_of_length_eq_zero houter
  obtain ⟨rfl, rfl⟩ : inner = [Session.inCapturedLet.current] ∧
      f = Session.afterCapturedLet.current := by
    have hlist : inner ++ [f] = [Session.inCapturedLet.current] ++
      [Session.afterCapturedLet.current] := hfunctions.symm
    exact List.append_singleton_inj.mp hlist
  obtain ⟨hlater, l, -, hl, hrefers⟩ | ⟨-, hnone, -⟩ := hcases
  · obtain ⟨place, hplace, hmeans⟩ := hrefers (.upvalue 1) _ rfl
    cases hl
    obtain ⟨hnearest, hdesignates⟩ := hmeans (by decide) (by decide)
    exact ⟨hlater, place, _, hplace, hnearest, hdesignates⟩
  · cases hnone

/-- `x = true; let x = false;` -/
def assignedEarly : List Stmt :=
  [.expression (.assign .plain (.identifier "x") (.literal (.boolean true))),
    .declaration .let [⟨"x", some (.literal (.boolean false))⟩]]

/-- The declaration in `assignedEarly` binds a new local. -/
theorem exists_localDeclaration_assignedEarly :
    ∃ D : LocalDeclaration (SyntaxOracle.oracle {}) {} assignedEarly,
      D.body = assignedEarly ∧ D.name = "x" ∧ D.entry = Session.main none := by
  have hok : EStateM.run' (do
      Lower.statements (SyntaxOracle.oracle {}) (assignedEarly.take 1)
      let before ← get
      Lower.declare .let "x"
        (some (Lower.expr (SyntaxOracle.oracle {}) (.literal (.boolean false))))
      return (before.current.local? "x").isNone) (Session.main none) = some true := by
    decide +kernel
  obtain ⟨u, hrun⟩ := exists_ok_of_run hok
  obtain ⟨_, m, hbefore, hrun⟩ := bind_eq_ok hrun
  obtain ⟨before, _, hget, hrun⟩ := bind_eq_ok hrun
  cases hget
  obtain ⟨_, t, hname, hreturn⟩ := bind_eq_ok hrun
  obtain ⟨hnone, -⟩ := EStateM.Result.ok.inj hreturn
  have hleft := Task.lower_declarators_nil (SyntaxOracle.oracle {}) .let m
  exact ⟨⟨[], assignedEarly.take 1, .let, [], "x", some (.literal (.boolean false)), [], [],
    Session.main none, m, m, t, .main, hbefore, hleft, rfl, Option.isNone_iff_eq_none.mp hnone,
    hname⟩, rfl, rfl, rfl⟩

/-- An assignment before the declaration is compiled, and writes a global. -/
theorem assignment_before_declaration_assignedEarly :
    ∃ p, compileBody (SyntaxOracle.oracle {}) {} assignedEarly = .ok p ∧
    ∃ D : LocalDeclaration (SyntaxOracle.oracle {}) {} assignedEarly, ∃ u target t,
      Visits (SyntaxOracle.oracle {}) (.statements D.body) D.entry
        (.target (.identifier D.name)) u ∧
      Lower.target (SyntaxOracle.oracle {}) (.identifier D.name) u = .ok target t ∧
      u.WritesTo (.global D.name) target t := by
  have hok : (match compileBody (SyntaxOracle.oracle {}) {} assignedEarly with
      | .ok _ => true
      | .error _ => false) = true := by decide +kernel
  cases hp : compileBody (SyntaxOracle.oracle {}) {} assignedEarly with
  | error e => simp only [hp, Bool.false_eq_true] at hok
  | ok p =>
    obtain ⟨D, hbody, hname, hentry⟩ := exists_localDeclaration_assignedEarly
    have hvisit : Visits (SyntaxOracle.oracle {}) (.statements assignedEarly) (Session.main none)
        (.target (.identifier "x")) (Session.main none) :=
      .inside (.part _ _ _) (.inside (.part _ _ _) (.self _ _))
    have hencounters : Encounters (SyntaxOracle.oracle {}) {} assignedEarly
      (.target (.identifier "x")) (Session.main none) := hvisit
    obtain ⟨target, t, htarget⟩ := hencounters.succeeds hp
    refine ⟨p, rfl, D, Session.main none, target, t, ?_, ?_, ?_⟩
    · rw [hbody, hentry, hname]
      exact hvisit
    · rw [hname]
      exact htarget
    · have hglobal : Lower.target (SyntaxOracle.oracle {}) (.identifier "x") (Session.main none) =
        Lower.onCurrent (globalTarget "x")
          { Session.main none with names := (Session.main none).names.addGlobal "x" } := rfl
      obtain ⟨hrun, ht⟩ := Lower.onCurrent_eq_ok (hglobal.symm.trans htarget)
      obtain ⟨env, key, rfl, henv, hkey, -⟩ := globalTarget_eq_ok Registers.tidy_empty hrun
      rw [hname, ht]
      exact .global henv hkey

end LuaLower
