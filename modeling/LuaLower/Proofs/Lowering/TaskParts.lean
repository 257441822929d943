import LuaLower.Proofs.Lowering.Plan

/-!
# The parts of a task

The parts of a task are smaller than the task, so what follows for a task from its parts holds of
all tasks. In particular every task is steady; only declarations add locals, and a name that has a
local keeps it.
-/

namespace LuaLower

open OpenFunction Build

namespace Plan

variable {α : Type} {P : Task → Prop} {binds : Prop}

/-- Every part of a plan has a property, whatever the results of the steps are, and a new local is
bound only if that is allowed. -/
def AllParts (P : Task → Prop) (binds : Prop) : Plan α → Prop
  | done _ | fail _ => True
  | step _ _ rest => ∀ b, (rest b).AllParts P binds
  | bind .. => binds
  | part task rest => P task ∧ ∀ b, (rest b).AllParts P binds
  | enter _ body rest => P (.statements body) ∧ ∀ v, (rest v).AllParts P binds

theorem AllParts.mono {P' : Task → Prop} {binds' : Prop} {plan : Plan α} (h : plan.AllParts P binds)
    (hP : ∀ task, P task → P' task) (hbinds : binds → binds') : plan.AllParts P' binds' := by
  induction plan with
  | done | fail => trivial
  | step x still rest ih => exact fun b ↦ ih b (h b)
  | bind => exact hbinds h
  | part task rest ih => exact ⟨hP task h.1, fun b ↦ ih b (h.2 b)⟩
  | enter params body rest ih => exact ⟨hP _ h.1, fun v ↦ ih v (h.2 v)⟩

theorem allParts_of_forall (hP : ∀ task, P task) (hbinds : binds) (plan : Plan α) :
    plan.AllParts P binds := by
  induction plan with
  | done | fail => trivial
  | step x still rest ih => exact ih
  | bind => exact hbinds
  | part task rest ih => exact ⟨hP task, ih⟩
  | enter params body rest ih => exact ⟨hP _, ih⟩

theorem allParts_callWith {callee : Expr} {args : List Expr} {use : ResultUse} {rest : Nat → Plan α}
    (hcallee : P (.expr callee)) (hargs : P (.arguments args))
    (hrest : ∀ base, (rest base).AllParts P binds) :
    (callWith callee args use rest).AllParts P binds :=
  ⟨hcallee, fun _ base ↦ ⟨hargs, fun _ _ ↦ hrest base⟩⟩

theorem allParts_assignment {left : Expr} {compound : Except Failure (Option (BinaryOp × Bool))}
    {right : (Value → Plan α) → Plan α} {rest : Target → Value → Plan α} (hleft : P (.target left))
    (hright : ∀ rest, (∀ v, (rest v).AllParts P binds) → (right rest).AllParts P binds)
    (hrest : ∀ target v, (rest target v).AllParts P binds) :
    (assignment left compound right rest).AllParts P binds := by
  cases compound with
  | error e => trivial
  | ok compound =>
    refine ⟨hleft, fun target ↦ ?_⟩
    cases compound with
    | none => exact hright _ (hrest target)
    | some compound => exact fun _ _ ↦ hright _ fun _ _ ↦ hrest target _

theorem allParts_store (value : (Value → Plan Unit) → Plan Unit) (name : String)
    (hvalue : ∀ rest, (∀ v, (rest v).AllParts P binds) → (value rest).AllParts P binds)
    (found : Option Local) :
    (store name value found).AllParts P binds := by
  cases found with
  | some l => exact hvalue _ fun _ _ ↦ trivial
  | none => exact fun _ _ ↦ hvalue _ fun _ _ ↦ trivial

end Plan

namespace Task

open Plan

/-- A task that is run from one settled session to another. -/
def isStatement : Task → Bool
  | declarator .. | declarators .. | statement _ | statements _ => true
  | _ => false

def isDeclarator : Task → Bool
  | declarator .. => true
  | _ => false

/-- A task that is nothing but a row of statements. -/
def isRow : Task → Bool
  | declarators .. | function .. | statement (.declaration ..) | statements _ => true
  | _ => false

/-- What is true of a part of a task: it is smaller, and it is a statement only in a row of them. -/
structure PartOf (task part : Task) : Prop where
  size_lt : part.size < task.size
  isRow : part.isStatement = true → task.isRow = true

theorem PartOf.of_size_lt {task part : Task} (hsize : part.size < task.size)
    (hpart : part.isStatement = false) : task.PartOf part :=
  ⟨hsize, by simp [hpart]⟩

theorem partOf_expr {binds : Prop} (types : TypeOracle) (e : Expr) :
    ((expr e).plan types).AllParts (expr e).PartOf binds := by
  cases e with
  | array elements =>
    rw [plan]
    split
    · trivial
    · intro table
      rcases elements with - | ⟨- | first, rest⟩
      · trivial
      · exact ⟨.of_size_lt (by simp +arith [size]) rfl, fun _ ↦ trivial⟩
      · exact ⟨.of_size_lt (by simp +arith [size]) rfl, fun _ ↦
          ⟨.of_size_lt (by simp +arith [size]) rfl, fun _ _ ↦ trivial⟩⟩
  | unary op operand =>
    rw [plan]
    split
    · exact ⟨.of_size_lt (by simp +arith [size]) rfl, fun _ _ ↦ trivial⟩
    · trivial
  | call callee args =>
    exact allParts_callWith (.of_size_lt (by simp +arith [size]) rfl)
      (.of_size_lt (by simp +arith [size]) rfl) fun _ ↦ trivial
  | assign op left right =>
    exact allParts_assignment (.of_size_lt (by simp +arith [size]) rfl)
      (fun rest hrest ↦ ⟨.of_size_lt (by simp +arith [size]) rfl, hrest⟩) fun _ _ _ ↦ trivial
  | update op form operand =>
    exact allParts_assignment (.of_size_lt (by simp +arith [size]) rfl) (fun rest hrest ↦ hrest)
      fun _ _ _ ↦ trivial
  | function name params body =>
    exact ⟨.of_size_lt (by cases params <;> simp +arith [size]) rfl, fun _ ↦ trivial⟩
  | arrow params body =>
    cases body with
    | expression value => trivial
    | block body => exact ⟨.of_size_lt (by simp +arith [size]) rfl, fun _ ↦ trivial⟩
  | object properties => exact fun _ ↦ ⟨.of_size_lt (by simp [size]) rfl, fun _ ↦ trivial⟩
  | member object name => exact ⟨.of_size_lt (by simp +arith [size]) rfl, fun _ _ _ ↦ trivial⟩
  | index object key =>
    exact ⟨.of_size_lt (by simp +arith [size]) rfl, fun _ _ ↦
      ⟨.of_size_lt (by simp +arith [size]) rfl, fun _ _ ↦ trivial⟩⟩
  | binary op left right =>
    exact ⟨.of_size_lt (by simp +arith [size]) rfl, fun _ _ ↦
      ⟨.of_size_lt (by simp +arith [size]) rfl, fun _ _ ↦ trivial⟩⟩
  | literal | identifier | this => exact fun _ ↦ trivial
  | conditional | new | sequence => trivial

theorem partOf_statement {binds : Prop} (types : TypeOracle) (s : Stmt) :
    ((statement s).plan types).AllParts (statement s).PartOf binds := by
  cases s with
  | declaration kind ds => exact ⟨⟨by simp +arith [size], fun _ ↦ rfl⟩, fun _ ↦ trivial⟩
  | function name params body =>
    intro found
    refine allParts_store (part (.function params body)) name (fun rest hrest ↦ ⟨?_, hrest⟩) found
    exact .of_size_lt (by cases params <;> simp +arith [size]) rfl
  | expression e =>
    cases e with
    | call callee args =>
      exact allParts_callWith (.of_size_lt (by simp +arith [size]) rfl)
        (.of_size_lt (by simp +arith [size]) rfl) fun _ ↦ trivial
    | assign op left right =>
      exact allParts_assignment (.of_size_lt (by simp +arith [size]) rfl)
        (fun rest hrest ↦ ⟨.of_size_lt (by simp +arith [size]) rfl, hrest⟩) fun _ _ _ ↦ trivial
    | update op form operand =>
      exact allParts_assignment (.of_size_lt (by simp +arith [size]) rfl) (fun rest hrest ↦ hrest)
        fun _ _ _ ↦ trivial
    | _ => exact ⟨.of_size_lt (by simp [size]) rfl, fun _ _ ↦ trivial⟩
  | ret value =>
    cases value with
    | some value => exact ⟨.of_size_lt (by simp +arith [size]) rfl, fun _ _ ↦ trivial⟩
    | none => exact fun _ ↦ trivial
  | _ => trivial

theorem partOf_arguments {binds : Prop} (types : TypeOracle) (args : List Expr) :
    ((arguments args).plan types).AllParts (arguments args).PartOf binds := by
  cases args with
  | nil => trivial
  | cons arg args =>
    have harg : (arguments (arg :: args)).PartOf (.expr arg) :=
      .of_size_lt (by simp +arith [size]) rfl
    have hargs : (arguments (arg :: args)).PartOf (.arguments args) :=
      .of_size_lt (by simp +arith [size]) rfl
    cases args with
    | nil =>
      cases arg with
      | call callee args =>
        exact allParts_callWith (.of_size_lt (by simp +arith [size]) rfl)
          (.of_size_lt (by simp +arith [size]) rfl) fun _ ↦ trivial
      | _ => exact ⟨harg, fun _ _ ↦ ⟨hargs, fun _ ↦ trivial⟩⟩
    | cons next args =>
      simp only [plan]
      exact ⟨harg, fun _ _ ↦ ⟨hargs, fun _ ↦ trivial⟩⟩

theorem partOf_declarator (types : TypeOracle) (kind : DeclKind) (d : Declarator) :
    ((declarator kind d).plan types).AllParts (declarator kind d).PartOf True := by
  obtain ⟨name, init⟩ := d
  cases init with
  | none =>
    intro found
    cases found <;> cases kind.bindsLocal <;> simp [AllParts, build, last]
  | some init =>
    have hinit : (declarator kind ⟨name, some init⟩).PartOf (.expr init) :=
      .of_size_lt (by simp +arith [size]) rfl
    intro found
    simp only
    split
    · exact ⟨hinit, fun _ ↦ trivial⟩
    · exact allParts_store (part (.expr init)) name (fun rest hrest ↦ ⟨hinit, hrest⟩) found

theorem partOf_plan (types : TypeOracle) (task : Task) :
    (task.plan types).AllParts task.PartOf (task.isDeclarator = true) := by
  cases task with
  | expr e => exact partOf_expr types e
  | arguments args => exact partOf_arguments types args
  | propertyKey key =>
    cases key with
    | identifier name => exact fun _ ↦ trivial
    | literal l => cases h : l.constant? <;> simp [plan, h, AllParts, build]
    | computed key => exact ⟨.of_size_lt (by simp [size]) rfl, fun _ ↦ trivial⟩
  | objectProperties table properties =>
    rcases properties with - | ⟨⟨key, value⟩, properties⟩
    · trivial
    · exact ⟨.of_size_lt (by simp +arith [size]) rfl, fun _ _ ↦
        ⟨.of_size_lt (by simp +arith [size]) rfl, fun _ _ _ ↦
          ⟨.of_size_lt (by simp +arith [size]) rfl, fun _ ↦ trivial⟩⟩⟩
  | arrayItem element =>
    cases element with
    | some e => exact ⟨.of_size_lt (by simp [size]) rfl, fun _ _ ↦ trivial⟩
    | none => exact fun _ ↦ trivial
  | arrayItems table pending batch elements =>
    cases elements with
    | nil =>
      rw [plan]
      split <;> simp [AllParts, build]
    | cons element elements =>
      refine ⟨.of_size_lt (by simp +arith [size]) rfl, fun _ ↦ ?_⟩
      split
      · exact fun _ ↦ ⟨.of_size_lt (by simp +arith [size]) rfl, fun _ ↦ trivial⟩
      · exact ⟨.of_size_lt (by simp +arith [size]) rfl, fun _ ↦ trivial⟩
  | target e =>
    cases e with
    | identifier name => exact fun _ ↦ trivial
    | member object name => exact ⟨.of_size_lt (by simp +arith [size]) rfl, fun _ _ _ _ ↦ trivial⟩
    | index object key =>
      exact ⟨.of_size_lt (by simp +arith [size]) rfl, fun _ _ ↦
        ⟨.of_size_lt (by simp +arith [size]) rfl, fun _ _ ↦ trivial⟩⟩
    | _ => trivial
  | declarator kind d =>
    exact (partOf_declarator types kind d).mono (fun _ h ↦ h) fun _ ↦ rfl
  | declarators kind ds =>
    cases ds with
    | nil => trivial
    | cons d ds =>
      exact ⟨⟨by simp +arith [size], fun _ ↦ rfl⟩, fun _ ↦
        ⟨⟨by simp +arith [size], fun _ ↦ rfl⟩, fun _ ↦ trivial⟩⟩
  | function params body => exact ⟨⟨by simp [size], fun _ ↦ rfl⟩, fun _ ↦ trivial⟩
  | statement s => exact partOf_statement types s
  | statements body =>
    cases body with
    | nil => trivial
    | cons s rest =>
      exact ⟨⟨by simp +arith [size], fun _ ↦ rfl⟩, fun _ _ ↦
        ⟨⟨by simp +arith [size], fun _ ↦ rfl⟩, fun _ ↦ trivial⟩⟩

/-- A property holds of every task if it holds of a task whenever it holds of all its parts. -/
theorem induction_on_parts (types : TypeOracle) {P : Task → Prop}
    (h : ∀ task : Task,
      (task.plan types).AllParts (fun part ↦ task.PartOf part ∧ P part) (task.isDeclarator = true) →
      P task) (task : Task) : P task := by
  induction hsize : task.size using Nat.strongRecOn generalizing task with
  | ind n ih =>
    subst hsize
    refine h task ((partOf_plan types task).mono (fun part hpart ↦ ⟨hpart, ?_⟩) fun h ↦ h)
    exact ih part.size hpart.size_lt part rfl

end Task

/-! ## Every task is steady -/

namespace Session

/-- The session at the start of a nested function. -/
def entered (s : Session) : Session :=
  { s with current := s.current.inside, enclosing := s.functions }

/-- The session in which the globals of a body are known. -/
def hoisted (s : Session) (body : List Stmt) : Session :=
  { s with names := (body.flatMap Stmt.hoistedNames).foldl Names.addGlobal s.names }

end Session

theorem Lower.function_eq (types : TypeOracle) (params : List String) (body : List Stmt) :
    (Task.function params body).lower types = (do
      let p ← Lower.inFunction do
        Lower.openBody params body
        Lower.statements types body
      Lower.onCurrent (closure p)) := by
  simp [Task.lower, Lower.function, Lower.openBody]

theorem Plan.steady {α : Type} {types : TypeOracle} (plan : Plan α)
    (h : plan.AllParts (fun task ↦ (task.lower types).Steady) True) : (plan.run types).Steady := by
  induction plan with
  | done a => exact (Lower.still_pure a).steady
  | fail e => exact (Lower.still_throw e).steady
  | step x still rest ih => exact Lower.steady_bind still.steady fun b ↦ ih b (h b)
  | bind name isConst x gives a =>
    exact Lower.steady_bind (Lower.steady_bindNew name isConst gives)
      fun _ ↦ (Lower.still_pure a).steady
  | part task rest ih => exact Lower.steady_bind h.1 fun b ↦ ih b (h.2 b)
  | enter params body rest ih =>
    refine Lower.steady_bind ?_ fun v ↦ ih v (h.2 v)
    rw [Lower.function_eq]
    refine Lower.steady_bind (Lower.still_inFunction ?_).steady
      fun p ↦ (Lower.still_closure p).steady
    exact Lower.steady_bind (Lower.steady_openBody params body) fun _ ↦ h.1

theorem Task.steady (types : TypeOracle) (task : Task) : (task.lower types).Steady := by
  refine Task.induction_on_parts types (P := fun task ↦ (task.lower types).Steady) ?_ task
  intro task hparts
  rw [← Task.run_plan]
  exact Plan.steady _ (hparts.mono (fun _ h ↦ h.2) fun _ ↦ trivial)

theorem Plan.run_steady {α : Type} (types : TypeOracle) (plan : Plan α) :
    (plan.run types).Steady :=
  plan.steady (allParts_of_forall (fun task ↦ task.steady types) trivial plan)

theorem Lower.steady_nestedBody (types : TypeOracle) (params : List String) (body : List Stmt) :
    Steady (do openBody params body; statements types body) :=
  steady_bind (steady_openBody params body) fun _ ↦ Task.steady types (.statements body)

/-! ## Locals -/

theorem Lower.still_function (types : TypeOracle) (params : List String) (body : List Stmt) :
    ((Task.function params body).lower types).Still := by
  rw [Lower.function_eq]
  exact Lower.still_bind (Lower.still_inFunction (Lower.steady_nestedBody types params body))
    fun p ↦ Lower.still_closure p

theorem Plan.still {α : Type} {types : TypeOracle} (plan : Plan α)
    (h : plan.AllParts (fun task ↦ (task.lower types).Still) False) : (plan.run types).Still := by
  induction plan with
  | done a => exact Lower.still_pure a
  | fail e => exact Lower.still_throw e
  | step x still rest ih => exact Lower.still_bind still fun b ↦ ih b (h b)
  | bind => exact h.elim
  | part task rest ih => exact Lower.still_bind h.1 fun b ↦ ih b (h.2 b)
  | enter params body rest ih =>
    exact Lower.still_bind (Lower.still_function types params body) fun v ↦ ih v (h.2 v)

namespace Task

/-- A task that may add locals to the innermost function. -/
def addsLocals : Task → Bool
  | declarator .. | declarators .. | statement (.declaration ..) | statements _ => true
  | _ => false

/-- The locals of a function are added by its declarations and by nothing else. -/
theorem still (types : TypeOracle) (task : Task) (htask : task.addsLocals = false) :
    (task.lower types).Still := by
  refine Task.induction_on_parts types
    (P := fun task ↦ task.addsLocals = false → (task.lower types).Still) ?_ task htask
  clear htask task
  intro task hparts htask
  by_cases hrow : task.isRow = true
  · cases task with
    | function params body => exact Lower.still_function types params body
    | statement s => cases s <;> simp_all [isRow, addsLocals]
    | _ => simp_all [isRow, addsLocals]
  · rw [← Task.run_plan]
    refine Plan.still _ (hparts.mono (fun part hpart ↦ hpart.2 ?_) fun hdeclarator ↦ ?_)
    · have hstatement : part.isStatement ≠ true := fun h ↦ hrow (hpart.1.isRow h)
      cases part with
      | declarator | declarators | statement | statements => cases hstatement rfl
      | _ => rfl
    · cases task with
      | declarator => cases htask
      | _ => cases hdeclarator

end Task

namespace Lower

variable {kind : DeclKind} {name : String} {init : Option (Lower Value)} {s t : Session}

/-- A declaration that binds no new local. -/
theorem stays_of_declare (hinit : ∀ x ∈ init, x.Still)
    (hold : kind.bindsLocal = true → (s.current.local? name).isSome)
    (h : declare kind name init s = .ok () t) : s.Stays t := by
  rw [declare, get_bind] at h
  cases hlocal : s.current.local? name with
  | some l =>
    cases init with
    | some x =>
      simp only [hlocal] at h
      have hstill : Still (do onCurrent (setLocal l.register (← x))) :=
        still_bind (hinit x rfl) fun v ↦ still_build (by simp)
      exact (hstill s).result h
    | none =>
      simp only [hlocal] at h
      split at h
      · exact (still_build (neutral_loadNil l.register) s).result h
      · exact (still_pure () s).result h
  | none =>
    have hkind : kind.bindsLocal = false := by simpa [hlocal] using hold
    cases init with
    | some x =>
      simp only [hlocal, hkind, Bool.false_eq_true, if_false] at h
      have hstill : Still (do
          addGlobal name
          setGlobal name x) :=
        still_bind (still_addGlobal name) fun _ ↦ still_bind (still_build (by simp)) fun target ↦
          still_bind (hinit x rfl) fun v ↦ still_build (by simp)
      exact (hstill s).result h
    | none =>
      simp only [hlocal, hkind, Bool.false_eq_true, if_false] at h
      exact (still_bind (still_addGlobal name) (fun _ ↦ still_pure ()) s).result h

/-- A declaration that binds a new local. -/
theorem binds_of_declare (hinit : ∀ x ∈ init, x.Still) (hkind : kind.bindsLocal = true)
    (hnew : s.current.local? name = none) (h : declare kind name init s = .ok () t) :
    ∃ u r, s.Stays u ∧ initialValue init s = .ok r u ∧
      t = { u with current.registers := u.current.registers.bind name r (kind == .const) } := by
  rw [declare, get_bind] at h
  simp only [hnew, hkind, if_true] at h
  obtain ⟨r, u, hr, hbind⟩ := bind_eq_ok h
  have hstill : Still (initialValue init) := by
    cases init with
    | some x => exact still_bind (hinit x rfl) fun v ↦ still_build (by simp)
    | none => exact still_build (by simp)
  cases hbind
  exact ⟨u, r, (hstill s).result hr, hr, rfl⟩

end Lower

namespace OpenFunction

/-- A function in which every name that had a local still has it. -/
structure Retained (f g : OpenFunction) : Prop extends f.Developed g where
  local? : ∀ {x l}, f.local? x = some l → g.local? x = some l

variable {f g h : OpenFunction}

theorem Retained.refl (f : OpenFunction) : f.Retained f := ⟨.refl f, id⟩

theorem Retained.trans (hfg : f.Retained g) (hgh : g.Retained h) : f.Retained h :=
  ⟨hfg.toDeveloped.trans hgh.toDeveloped, fun hx ↦ hgh.local? (hfg.local? hx)⟩

theorem Gained.retained (hfg : f.Gained g) : f.Retained g :=
  ⟨hfg.developed, fun hx ↦ by rwa [OpenFunction.local?, hfg.registers]⟩

end OpenFunction

theorem Session.Stays.retained {s t : Session} (h : s.Stays t) : s.current.Retained t.current :=
  ⟨h.current, fun hx ↦ (h.local?_eq _).trans hx⟩

namespace Task

variable {types : TypeOracle} {s t : Session}

theorem still_init (types : TypeOracle) (init : Option Expr) :
    ∀ x ∈ init.map (Lower.expr types), x.Still := by
  cases init with
  | none => nofun
  | some e =>
    rintro _ ⟨⟩
    exact (Task.expr e).still types rfl

theorem retained_of_declarator {kind : DeclKind} {d : Declarator}
    (h : (declarator kind d).lower types s = .ok () t) : s.current.Retained t.current := by
  by_cases hold : kind.bindsLocal = true → (s.current.local? d.name).isSome
  · exact (Lower.stays_of_declare (still_init types d.init) hold h).retained
  · obtain ⟨hkind, hnew⟩ := Classical.not_imp.mp hold
    rw [Option.not_isSome_iff_eq_none] at hnew
    refine ⟨((declarator kind d).steady types s |>.result h).current, fun {x l} hx ↦ ?_⟩
    obtain ⟨u, r, hsu, -, rfl⟩ := Lower.binds_of_declare (still_init types d.init) hkind hnew h
    rw [OpenFunction.local?, Registers.find?_bind, ← OpenFunction.local?, hsu.local?_eq]
    split
    · simp_all
    · exact hx

theorem declarators_cons_eq_ok {kind : DeclKind} {d : Declarator} {ds : List Declarator}
    (h : (declarators kind (d :: ds)).lower types s = .ok () t) :
    ∃ u, (declarator kind d).lower types s = .ok () u ∧
      (declarators kind ds).lower types u = .ok () t := by
  rw [← run_plan] at h
  obtain ⟨_, u, hd, h⟩ := bind_eq_ok h
  obtain ⟨_, _, hds, ⟨⟩⟩ := bind_eq_ok h
  exact ⟨u, hd, hds⟩

theorem statements_cons_eq_ok {stmt : Stmt} {body : List Stmt}
    (h : (statements (stmt :: body)).lower types s = .ok () t) :
    ∃ u w, (statement stmt).lower types s = .ok () u ∧ Lower.onCurrent settle u = .ok () w ∧
      (statements body).lower types w = .ok () t := by
  rw [← run_plan] at h
  obtain ⟨_, u, hstmt, h⟩ := bind_eq_ok h
  obtain ⟨_, w, hsettle, h⟩ := bind_eq_ok h
  obtain ⟨_, _, hbody, ⟨⟩⟩ := bind_eq_ok h
  exact ⟨u, w, hstmt, hsettle, hbody⟩

theorem lower_declarators_cons {kind : DeclKind} {d : Declarator} {ds : List Declarator}
    {u : Session} (hd : (declarator kind d).lower types s = .ok () u)
    (hds : (declarators kind ds).lower types u = .ok () t) :
    (declarators kind (d :: ds)).lower types s = .ok () t := by
  rw [← run_plan]
  exact (bind_of_ok hd).trans (bind_of_ok hds)

theorem lower_statements_cons {stmt : Stmt} {body : List Stmt} {u w : Session}
    (hstmt : (statement stmt).lower types s = .ok () u)
    (hsettle : Lower.onCurrent settle u = .ok () w)
    (hbody : (statements body).lower types w = .ok () t) :
    (statements (stmt :: body)).lower types s = .ok () t := by
  rw [← run_plan]
  exact (bind_of_ok hstmt).trans ((bind_of_ok hsettle).trans (bind_of_ok hbody))

theorem lower_declarators_nil (types : TypeOracle) (kind : DeclKind) (s : Session) :
    (declarators kind []).lower types s = .ok () s := by
  rw [← run_plan]
  rfl

theorem lower_statements_nil (types : TypeOracle) (s : Session) :
    (statements []).lower types s = .ok () s := by
  rw [← run_plan]
  rfl

theorem declarators_append_eq_ok {kind : DeclKind} {left right : List Declarator}
    (h : (declarators kind (left ++ right)).lower types s = .ok () t) :
    ∃ u, (declarators kind left).lower types s = .ok () u ∧
      (declarators kind right).lower types u = .ok () t := by
  induction left generalizing s with
  | nil => exact ⟨s, lower_declarators_nil types kind s, h⟩
  | cons d left ih =>
    obtain ⟨u, hd, h⟩ := declarators_cons_eq_ok h
    obtain ⟨w, hleft, hright⟩ := ih h
    exact ⟨w, lower_declarators_cons hd hleft, hright⟩

theorem statements_append_eq_ok {before after : List Stmt}
    (h : (statements (before ++ after)).lower types s = .ok () t) :
    ∃ u, (statements before).lower types s = .ok () u ∧
      (statements after).lower types u = .ok () t := by
  induction before generalizing s with
  | nil => exact ⟨s, lower_statements_nil types s, h⟩
  | cons stmt before ih =>
    obtain ⟨u, w, hstmt, hsettle, h⟩ := statements_cons_eq_ok h
    obtain ⟨x, hbefore, hafter⟩ := ih h
    exact ⟨x, lower_statements_cons hstmt hsettle hbefore, hafter⟩

theorem lower_statements_append {before after : List Stmt} {u : Session}
    (hbefore : (statements before).lower types s = .ok () u)
    (hafter : (statements after).lower types u = .ok () t) :
    (statements (before ++ after)).lower types s = .ok () t := by
  induction before generalizing s with
  | nil =>
    cases (lower_statements_nil types s).symm.trans hbefore
    exact hafter
  | cons stmt before ih =>
    obtain ⟨v, w, hstmt, hsettle, hbefore⟩ := statements_cons_eq_ok hbefore
    exact lower_statements_cons hstmt hsettle (ih hbefore)

theorem lower_declaration (types : TypeOracle) (kind : DeclKind) (ds : List Declarator) :
    (statement (.declaration kind ds)).lower types = (declarators kind ds).lower types := by
  rw [← run_plan]
  exact bind_pure _

theorem retained_of_declarators {kind : DeclKind} {ds : List Declarator}
    (h : (declarators kind ds).lower types s = .ok () t) : s.current.Retained t.current := by
  induction ds generalizing s with
  | nil =>
    cases (lower_declarators_nil types kind s).symm.trans h
    exact .refl _
  | cons d ds ih =>
    obtain ⟨u, hd, hds⟩ := declarators_cons_eq_ok h
    exact (retained_of_declarator hd).trans (ih hds)

theorem retained_of_statement {stmt : Stmt} (h : (statement stmt).lower types s = .ok () t) :
    s.current.Retained t.current := by
  cases stmt with
  | declaration kind ds =>
    rw [lower_declaration] at h
    exact retained_of_declarators h
  | _ => exact ((still types _ rfl s).result h).retained

theorem retained_of_statements {body : List Stmt}
    (h : (statements body).lower types s = .ok () t) : s.current.Retained t.current := by
  induction body generalizing s with
  | nil =>
    cases (lower_statements_nil types s).symm.trans h
    exact .refl _
  | cons stmt body ih =>
    obtain ⟨u, w, hstmt, hsettle, hbody⟩ := statements_cons_eq_ok h
    have hsettle := (Lower.still_build neutral_settle u).result hsettle
    exact ((retained_of_statement hstmt).trans hsettle.retained).trans (ih hbody)

/-- Whatever is lowered, a name that has a local in the innermost function keeps it. -/
theorem retained {task : Task} {b : task.Result} (h : task.lower types s = .ok b t) :
    s.current.Retained t.current := by
  cases task with
  | declarator => exact retained_of_declarator h
  | declarators => exact retained_of_declarators h
  | statement => exact retained_of_statement h
  | statements => exact retained_of_statements h
  | _ => exact ((still types _ rfl s).result h).retained

end Task

end LuaLower
