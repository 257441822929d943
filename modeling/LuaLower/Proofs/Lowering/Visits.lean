import LuaLower.Compile
import LuaLower.Proofs.Lowering.Body
import LuaLower.Proofs.Lowering.TaskParts
import LuaLower.Proofs.Prototype.Nesting

/-!
# The sessions that a compilation passes through

Lowering a task visits the tasks that are lowered in its course, each from a session of its own. A
failure in any of them is a failure of the whole, the functions that are open stay open around the
visited task, and the prototype of every function that is visited ends up nested in the result.
-/

namespace LuaLower

open OpenFunction Build

/-! ## Visits -/

/-- Running a plan from a session lowers a task from another one, as a part of the plan. -/
inductive Plan.Meets (types : TypeOracle) {α : Type} : Plan α → Session → Task → Session → Prop
  | part (task : Task) (rest : task.Result → Plan α) (s : Session) :
    Meets types (.part task rest) s task s
  | afterPart {task part : Task} {rest : task.Result → Plan α} {s t u : Session}
    {b : task.Result} : task.lower types s = .ok b t → Meets types (rest b) t part u →
    Meets types (.part task rest) s part u
  | afterStep {β : Type} {x : Lower β} {still : x.Still} {rest : β → Plan α} {part : Task}
    {s t u : Session} {b : β} : x s = .ok b t → Meets types (rest b) t part u →
    Meets types (.step x still rest) s part u
  /-- The body of a nested function, once the function is open. -/
  | body {params : List String} {body : List Stmt} {rest : Value → Plan α} {s t : Session} :
    Lower.openBody params body s.entered = .ok () t →
    Meets types (.enter params body rest) s (.statements body) t

/-- Lowering a task from a session lowers another one from another session, at any depth. -/
inductive Visits (types : TypeOracle) : Task → Session → Task → Session → Prop
  | self (task : Task) (s : Session) : Visits types task s task s
  | inside {task part visited : Task} {s t u : Session} : (task.plan types).Meets types s part t →
    Visits types part t visited u → Visits types task s visited u

/-- The compilation of a program lowers a task from a session. -/
def Encounters (types : TypeOracle) (options : Options) (program : List Stmt) (task : Task)
    (s : Session) : Prop :=
  Visits types (.statements program) ((Session.main options.source).hoisted program) task s

variable {types : TypeOracle} {options : Options} {program : List Stmt}

theorem Visits.trans {task part visited : Task} {s t u : Session} (hst : Visits types task s part t)
    (htu : Visits types part t visited u) : Visits types task s visited u := by
  induction hst with
  | self => exact htu
  | inside hmeets _ ih => exact .inside hmeets (ih htu)

/-! ## Failures -/

/-- A failure inside a nested function closes it, and is passed on. -/
theorem Lower.inFunction_of_error {step : Lower Unit} {s t : Session} {e : Failure}
    (hsteady : step.Steady) (h : step s.entered = .error e t) :
    ∃ u, Lower.inFunction step s = .error e u := by
  have hlength := ((hsteady s.entered).failure h).enclosing.length_eq
  cases ht : t.enclosing with
  | nil => simp [Session.entered, Session.functions, ht] at hlength
  | cons parent outer =>
    rw [Session.entered] at h
    refine ⟨{ t with current := parent.afterNested t.current, enclosing := outer }, ?_⟩
    simp only [Lower.inFunction, h, ht]

theorem Plan.Meets.failure {α : Type} {plan : Plan α} {part : Task} {s u w : Session} {e : Failure}
    (h : plan.Meets types s part u) (he : part.lower types u = .error e w) :
    ∃ t, plan.run types s = .error e t := by
  induction h with
  | part task rest s => exact ⟨w, bind_of_error he⟩
  | afterPart hpart _ ih =>
    obtain ⟨t, ht⟩ := ih he
    exact ⟨t, (bind_of_ok hpart).trans ht⟩
  | afterStep hstep _ ih =>
    obtain ⟨t, ht⟩ := ih he
    exact ⟨t, (bind_of_ok hstep).trans ht⟩
  | @body params body rest s t hopen =>
    obtain ⟨v, hv⟩ := Lower.inFunction_of_error (Lower.steady_nestedBody types params body)
      ((bind_of_ok hopen).trans he)
    refine ⟨v, bind_of_error ?_⟩
    rw [Lower.function_eq]
    exact bind_of_error hv

theorem Visits.failure {task visited : Task} {s u w : Session} {e : Failure}
    (h : Visits types task s visited u) (he : visited.lower types u = .error e w) :
    ∃ t, task.lower types s = .error e t := by
  induction h with
  | self => exact ⟨w, he⟩
  | inside hmeets _ ih =>
    obtain ⟨v, hv⟩ := ih he
    rw [← Task.run_plan]
    exact hmeets.failure hv

/-- A program of which a part cannot be lowered is not compiled. -/
theorem Encounters.compileBody_eq {task : Task} {s w : Session} {e : Failure}
    (h : Encounters types options program task s) (he : task.lower types s = .error e w) :
    compileBody types options program = .error e := by
  obtain ⟨t, ht⟩ := Visits.failure h he
  have hblock : Lower.block types program (Session.main options.source) = .error e t := ht
  rw [compileBody, hblock]

theorem Encounters.succeeds {task : Task} {s : Session} {p : Prototype}
    (h : Encounters types options program task s) (hp : compileBody types options program = .ok p) :
    ∃ b t, task.lower types s = .ok b t := by
  cases hrun : task.lower types s with
  | ok b t => exact ⟨b, t, rfl⟩
  | error e t => cases (h.compileBody_eq hrun).symm.trans hp

theorem Plan.Meets.succeeds {α : Type} {plan : Plan α} {part : Task} {s t u : Session} {a : α}
    (h : plan.Meets types s part u) (hrun : plan.run types s = .ok a t) :
    ∃ b w, part.lower types u = .ok b w := by
  cases hpart : part.lower types u with
  | ok b w => exact ⟨b, w, rfl⟩
  | error e w =>
    obtain ⟨t', ht'⟩ := h.failure hpart
    cases ht'.symm.trans hrun

/-! ## Open functions -/

/-- The functions that are open in one session are open in another one, in which more may be. -/
structure Session.Around (s u : Session) : Prop where
  functions : ∃ inner base, u.functions = inner ++ base ∧
    List.Forall₂ Retained s.functions base
  owners : u.names.owners = s.names.owners
  globals : ∀ x, s.names.knowsGlobal x = true → u.names.knowsGlobal x = true
  linked : Linked s.functions → Linked u.functions

namespace Session.Around

variable {s t u : Session}

theorem of_retained (hst : s.Follows t) (hcurrent : s.current.Retained t.current) : s.Around t where
  functions := ⟨[], t.functions, rfl,
    .cons hcurrent (hst.enclosing.imp fun _ _ hfg ↦ hfg.retained)⟩
  owners := hst.owners
  globals := hst.globals
  linked := hst.linked

theorem of_stays (h : s.Stays t) : s.Around t := of_retained h.toFollows h.retained

theorem of_task {task : Task} {b : task.Result} (h : task.lower types s = .ok b t) : s.Around t :=
  of_retained ((task.steady types s).result h) (Task.retained h)

theorem trans (hst : s.Around t) (htu : t.Around u) : s.Around u := by
  obtain ⟨inner, base, ht, hbase⟩ := hst.functions
  obtain ⟨inner', base', hu, hbase'⟩ := htu.functions
  have hdrop := List.forall₂_drop inner.length hbase'
  rw [ht, List.drop_left] at hdrop
  refine ⟨⟨inner' ++ base'.take inner.length, base'.drop inner.length, ?_,
    forall₂_trans .trans hbase hdrop⟩, htu.owners.trans hst.owners,
    fun x hx ↦ htu.globals x (hst.globals x hx), fun hs ↦ htu.linked (hst.linked hs)⟩
  rw [hu, List.append_assoc, List.take_append_drop]

theorem entered (s : Session) : s.Around s.entered where
  functions := ⟨[s.current.inside], s.functions, rfl, List.forall₂_same.mpr fun f _ ↦ .refl f⟩
  owners := rfl
  globals _ h := h
  linked := ChainStep.linked (.enter s.current s.enclosing)

end Session.Around

theorem Session.around_of_openBody {params : List String} {body : List Stmt} {s t : Session}
    (h : Lower.openBody params body s.entered = .ok () t) : s.Around t := by
  have hfollows := (Lower.steady_openBody params body _).result h
  refine .trans (.entered s) (.of_retained hfollows ⟨hfollows.current, nofun⟩)

theorem Plan.Meets.around {α : Type} {plan : Plan α} {part : Task} {s u : Session}
    (h : plan.Meets types s part u) : s.Around u := by
  induction h with
  | part => exact .of_stays (.refl _)
  | afterPart hpart _ ih => exact .trans (.of_task hpart) ih
  | @afterStep _ _ still _ _ _ _ _ _ hstep _ ih =>
    exact .trans (.of_stays ((still _).result hstep)) ih
  | body hopen => exact Session.around_of_openBody hopen

theorem Visits.around {task visited : Task} {s u : Session} (h : Visits types task s visited u) :
    s.Around u := by
  induction h with
  | self => exact .of_stays (.refl _)
  | inside hmeets _ ih => exact hmeets.around.trans ih

/-! ## Statements start from settled sessions -/

/-- A function whose parameters have just become its locals. -/
structure Session.Opened (s : Session) (params : List String) (t : Session) : Prop where
  fresh : Fresh params.length t.current
  locals : t.current.registers.locals = paramLocals 0 params
  upvalues : t.current.proto.upvalues = [⟨envName, false, 0⟩]
  enclosing : t.enclosing = s.functions
  owners : t.names.owners = s.names.owners

theorem opened_of_openBody {params : List String} {body : List Stmt} {s t : Session}
    (h : Lower.openBody params body s.entered = .ok () t) : s.Opened params t := by
  have hparams := Lower.yields_onCurrent (s := s.entered)
    (yields_openParams (b := 0) params (fresh_inside s.current))
  rw [Lower.openBody] at h
  simp only [Lower.liftM_eq_onCurrent, ← bind_assoc] at h
  obtain ⟨_, u, hopen, hhoist⟩ := bind_eq_ok h
  rw [Lower.onCurrent_bind] at hparams
  obtain ⟨⟨hfresh, hlocals, hproto⟩, hu⟩ := hparams.result hopen
  cases hhoist
  refine ⟨hfresh, hlocals, ?_, ?_, ?_⟩
  · rw [hproto]
    rfl
  · rw [hu]
    rfl
  · rw [hu]
    exact Names.owners_addGlobals _ _

theorem Session.Opened.settled {s t : Session} {params : List String} (h : s.Opened params t)
    (hs : s.names.owners = []) : t.Ready ∧ t.Settled :=
  ⟨⟨h.owners.trans hs, h.fresh.tidy⟩, h.fresh.next.trans h.fresh.numLocals.symm⟩

theorem Plan.Meets.of_allParts {α : Type} {plan : Plan α} {part : Task} {s u : Session}
    {P : Task → Prop} {binds : Prop} (h : plan.Meets types s part u)
    (hplan : plan.AllParts P binds) : P part := by
  induction h with
  | part => exact hplan.1
  | afterPart _ _ ih => exact ih (hplan.2 _)
  | afterStep _ _ ih => exact ih (hplan _)
  | body => exact hplan.1

theorem settled_of_declarator {kind : DeclKind} {d : Declarator} {s t : Session}
    (hs : s.Ready ∧ s.Settled) (h : (Task.declarator kind d).lower types s = .ok () t) :
    t.Ready ∧ t.Settled := by
  have hdeclare :
      ∃ ts, Proceeds (fun _ _ ↦ True) 0 ((Task.declarator kind d).lower types) s ts := by
    obtain ⟨name, init⟩ := d
    cases init with
    | none => exact ⟨_, proceeds_declare kind name rfl⟩
    | some init =>
      exact ⟨_, proceeds_declare kind name
        ⟨init.assignedNames, translates_expr types closesTo_trivial.block init⟩⟩
  obtain ⟨ts, hdeclare⟩ := hdeclare
  obtain ⟨hst, ht, _⟩ := (hdeclare hs.1 hs.2 (Nat.zero_le _)).result h
  exact ⟨hst.ready hs.1, ht⟩

theorem settled_of_statement {stmt : Stmt} {s t u : Session} (hs : s.Ready ∧ s.Settled)
    (h : Lower.statement types stmt s = .ok () t) (hsettle : Lower.onCurrent settle t = .ok () u) :
    u.Ready ∧ u.Settled := by
  have hstmt := proceeds_statement types closesTo_trivial.block stmt 0 s hs.1 hs.2 (Nat.zero_le _)
  obtain ⟨hst, ht, _⟩ := hstmt.result h
  have hend : Proceeds (fun _ _ ↦ True) 0 (Lower.onCurrent settle) t [] := proceeds_settle
  obtain ⟨htu, hu, _⟩ := (hend (hst.ready hs.1) ht (Nat.zero_le _)).result hsettle
  exact ⟨htu.ready (hst.ready hs.1), hu⟩

theorem Plan.Meets.settled {task part : Task} {s u : Session}
    (h : (task.plan types).Meets types s part u) (howners : s.names.owners = [])
    (hs : task.isStatement = true → s.Ready ∧ s.Settled) (hpart : part.isStatement = true) :
    u.Ready ∧ u.Settled := by
  have hrow := (h.of_allParts (Task.partOf_plan types task)).isRow hpart
  cases task with
  | declarators kind ds =>
    cases ds with
    | nil => cases h
    | cons d ds =>
      cases h with
      | part => exact hs rfl
      | afterPart hd h =>
        cases h with
        | part => exact settled_of_declarator (hs rfl) hd
        | afterPart _ h => cases h
  | function params body =>
    cases h with
    | body hopen => exact (opened_of_openBody hopen).settled howners
  | statement stmt =>
    cases stmt with
    | declaration kind ds =>
      cases h with
      | part => exact hs rfl
      | afterPart _ h => cases h
    | _ => cases hrow
  | statements body =>
    cases body with
    | nil => cases h
    | cons stmt rest =>
      cases h with
      | part => exact hs rfl
      | afterPart hstmt h =>
        cases h with
        | afterStep hsettle h =>
          cases h with
          | part => exact settled_of_statement (hs rfl) hstmt hsettle
          | afterPart _ h => cases h
  | _ => cases hrow

theorem Visits.settled {task visited : Task} {s u : Session} (h : Visits types task s visited u)
    (howners : s.names.owners = []) (hs : task.isStatement = true → s.Ready ∧ s.Settled) :
    visited.isStatement = true → u.Ready ∧ u.Settled := by
  induction h with
  | self => exact hs
  | inside hmeets _ ih =>
    exact ih (hmeets.around.owners.trans howners) (hmeets.settled howners hs)

namespace Encounters

variable {task : Task} {s : Session}

theorem around (h : Encounters types options program task s) :
    ((Session.main options.source).hoisted program).Around s := Visits.around h

theorem owners (h : Encounters types options program task s) : s.names.owners = [] :=
  h.around.owners.trans (Names.owners_addGlobals _ _)

theorem linked (h : Encounters types options program task s) : Linked s.functions :=
  h.around.linked ⟨linkedTo_of_env rfl rfl, trivial⟩

theorem settled (h : Encounters types options program task s) (htask : task.isStatement = true) :
    s.Ready ∧ s.Settled := by
  have hmain : ((Session.main options.source).hoisted program).names.owners = [] :=
    Names.owners_addGlobals _ _
  exact Visits.settled h hmain (fun _ ↦ ⟨⟨hmain, Registers.tidy_empty⟩, rfl⟩) htask

end Encounters

/-! ## Functions and their prototypes -/

/-- A prototype is nested in the innermost function of a session. -/
def Session.Nests (s : Session) (q : Prototype) : Prop :=
  ∃ c ∈ s.current.proto.children, c.Contains q

theorem Session.Nests.follows {s t : Session} {q : Prototype} (h : s.Nests q) (hst : s.Follows t) :
    t.Nests q := by
  obtain ⟨c, hc, hq⟩ := h
  exact ⟨c, hst.current.children.subset hc, hq⟩

theorem function_eq_ok {params : List String} {body : List Stmt} {s w : Session} {v : Value}
    (h : (Task.function params body).lower types s = .ok v w) :
    ∃ t u, Lower.openBody params body s.entered = .ok () t ∧
      Lower.statements types body t = .ok () u := by
  rw [Lower.function_eq] at h
  obtain ⟨p, x, hp, -⟩ := bind_eq_ok h
  cases hrun : (do
      Lower.openBody params body
      Lower.statements types body : Lower Unit) s.entered with
  | ok _ u =>
    obtain ⟨_, t, hopen, hbody⟩ := bind_eq_ok hrun
    exact ⟨t, u, hopen, hbody⟩
  | error e u =>
    rw [Session.entered] at hrun
    rw [Lower.inFunction, hrun] at hp
    cases hu : u.enclosing <;> simp [hu] at hp

/-- The session in which a nested function is closed. -/
theorem inFunction_eq_ok {params : List String} {body : List Stmt} {s t u w : Session} {v : Value}
    (hopen : Lower.openBody params body s.entered = .ok () t)
    (hbody : Lower.statements types body t = .ok () u)
    (h : (Task.function params body).lower types s = .ok v w) :
    ∃ parent outer, u.enclosing = parent :: outer ∧
      Lower.onCurrent (closure u.current.close)
        { u with current := parent.afterNested u.current, enclosing := outer } = .ok v w := by
  rw [Lower.function_eq] at h
  obtain ⟨p, x, hp, hclosure⟩ := bind_eq_ok h
  have hinside : (do
      Lower.openBody params body
      Lower.statements types body) s.entered = .ok () u := (bind_of_ok hopen).trans hbody
  rw [Session.entered] at hinside
  rw [Lower.inFunction, hinside] at hp
  cases hu : u.enclosing with
  | nil => simp [hu] at hp
  | cons parent outer =>
    simp only [hu] at hp
    cases hp
    exact ⟨parent, outer, rfl, hclosure⟩

/-- A function that was lowered is nested in the one around it. -/
theorem close_mem_children {params : List String} {body : List Stmt} {s t u w : Session} {v : Value}
    (hopen : Lower.openBody params body s.entered = .ok () t)
    (hbody : Lower.statements types body t = .ok () u)
    (h : (Task.function params body).lower types s = .ok v w) :
    u.current.close ∈ w.current.proto.children := by
  obtain ⟨parent, outer, -, hclosure⟩ := inFunction_eq_ok hopen hbody h
  generalize { u with current := parent.afterNested u.current, enclosing := outer } = x at hclosure
  have hattach : attach u.current.close x.current =
    .ok x.current.proto.children.length (x.current.adopting u.current.close) := rfl
  rw [Build.closure, Lower.onCurrent_bind, bind_of_ok (Lower.onCurrent_of_ok hattach)] at hclosure
  have hneutral : Neutral (do
      let dst ← takeRegister
      push (.abx .closure dst x.current.proto.children.length)
      return Value.register dst) := by simp
  have hfollows := (Lower.still_build hneutral _).result hclosure
  exact hfollows.current.children.subset (List.mem_append_right _ (List.mem_singleton_self _))

theorem Plan.Meets.nests {α : Type} {plan : Plan α} {part : Task} {s t u w : Session} {a : α}
    {b : part.Result} {q : Prototype} (h : plan.Meets types s part u)
    (hrun : plan.run types s = .ok a t) (hpart : part.lower types u = .ok b w) (hw : w.Nests q) :
    t.Nests q := by
  induction h with
  | part task rest s =>
    rw [Plan.run, bind_of_ok hpart] at hrun
    exact hw.follows (((rest b).run_steady types w).result hrun)
  | afterPart hfirst _ ih =>
    rw [Plan.run, bind_of_ok hfirst] at hrun
    exact ih hrun hpart
  | afterStep hfirst _ ih =>
    rw [Plan.run, bind_of_ok hfirst] at hrun
    exact ih hrun hpart
  | @body params body rest s t' hopen =>
    obtain ⟨v, x, hfunction, hrest⟩ := bind_eq_ok hrun
    have hx : x.Nests q := by
      obtain ⟨c, hc, hq⟩ := hw
      exact ⟨w.current.close, close_mem_children hopen hpart hfunction, .nested hc hq⟩
    exact hx.follows (((rest v).run_steady types x).result hrest)

theorem Visits.nests {task visited : Task} {s t u w : Session} {a : task.Result}
    {b : visited.Result} {q : Prototype} (h : Visits types task s visited u)
    (hrun : task.lower types s = .ok a t) (hvisited : visited.lower types u = .ok b w)
    (hw : w.Nests q) : t.Nests q := by
  induction h generalizing t with
  | self =>
    obtain ⟨rfl, rfl⟩ := EStateM.Result.ok.inj (hrun.symm.trans hvisited)
    exact hw
  | inside hmeets _ ih =>
    rw [← Task.run_plan] at hrun
    obtain ⟨c, x, hpart⟩ := hmeets.succeeds hrun
    exact hmeets.nests hrun hpart (ih hpart hvisited)

/-- The body of a function of a program, or of the program itself, is lowered from a session. -/
inductive LowersBody (types : TypeOracle) (options : Options) (program : List Stmt) :
    List String → List Stmt → Session → Prop
  | main : LowersBody types options program [] program
      ((Session.main options.source).hoisted program)
  | nested {params : List String} {body : List Stmt} {s t : Session} :
    Encounters types options program (.function params body) s →
    Lower.openBody params body s.entered = .ok () t →
    LowersBody types options program params body t

theorem compileBody_eq_ok {p : Prototype} (hp : compileBody types options program = .ok p) :
    ∃ t, Lower.statements types program ((Session.main options.source).hoisted program) = .ok () t ∧
      p = t.current.close := by
  obtain ⟨t, hrun, hclose⟩ := compileBody_eq_ok_iff.mp hp
  obtain ⟨-, rfl⟩ := Session.close_eq_ok_iff.mp hclose
  exact ⟨t, hrun, rfl⟩

namespace LowersBody

variable {params : List String} {body : List Stmt} {s t : Session}

theorem encounters (h : LowersBody types options program params body s) :
    Encounters types options program (.statements body) s := by
  cases h with
  | main => exact .self _ _
  | nested hs hopen => exact hs.trans (.inside (.body hopen) (.self _ _))

/-- The prototype of every function of a program is found in the compiled program. -/
theorem contains {p : Prototype} (h : LowersBody types options program params body s)
    (hp : compileBody types options program = .ok p)
    (hbody : Lower.statements types body s = .ok () t) : p.Contains t.current.close := by
  obtain ⟨last, hlast, rfl⟩ := compileBody_eq_ok hp
  cases h with
  | main =>
    cases hlast.symm.trans hbody
    exact .self _
  | nested hs hopen =>
    obtain ⟨v, w, hfunction⟩ := hs.succeeds hp
    have hw : w.Nests t.current.close := ⟨_, close_mem_children hopen hbody hfunction, .self _⟩
    obtain ⟨c, hc, hq⟩ := Visits.nests hs hlast hfunction hw
    exact .nested hc hq

end LowersBody

end LuaLower
