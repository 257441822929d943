import LuaLower.Proofs.Lowering.Visits
import LuaLower.Proofs.OpenFunction.Continuation
import LuaLower.Proofs.RegisterDiscipline

/-!
# Parts leave their traces in the code

The steps of a plan leave alone what was there before the plan was run and what its parts have
emitted; they may only complete a jump of their own. So the code of everything that is lowered in
the course of a compilation stays where it was emitted, and the registers in which it was emitted
were in order.
-/

namespace LuaLower

open OpenFunction Build

variable {types : TypeOracle} {options : Options} {program : List Stmt} {α β : Type}
  {F : Nat → Prop} {origin : Prop} {f g : OpenFunction} {s t u w : Session}

/-- The number of instructions that have been emitted for the innermost function. -/
abbrev Session.size (s : Session) : Nat := s.current.proto.code.size

/-! ## Steps of a session -/

theorem OpenFunction.Gained.callFree (h : f.Gained g) : f.CallFree g := by
  obtain ⟨us, rfl⟩ := h
  exact ⟨.of_registers rfl id id, rfl, fun _ _ _ hpc _ ↦ hpc⟩

namespace Lower

def CallFree (step : Lower α) : Prop := ∀ ⦃s a t⦄, step s = .ok a t → s.current.CallFree t.current

theorem callFree_pure (a : α) : CallFree (pure a) := by
  rintro s _ _ ⟨⟩
  exact .refl s.current

theorem callFree_throw (e : Failure) : CallFree (throw e : Lower α) := nofun

theorem callFree_bind {x : Lower α} {k : α → Lower β} (hx : CallFree x) (hk : ∀ a, CallFree (k a)) :
    CallFree (x >>= k) := by
  intro s b u hrun
  obtain ⟨a, t, ha, hb⟩ := bind_eq_ok hrun
  exact (hx ha).trans (hk a hb)

theorem callFree_get : CallFree get := by
  rintro s _ _ ⟨⟩
  exact .refl s.current

@[simp] theorem callFree_onCurrent {x : Build α} (h : x.CallFree) : CallFree (onCurrent x) := by
  intro s a t hrun
  exact h (onCurrent_eq_ok hrun).1

@[simp] theorem callFree_addGlobal (name : String) : CallFree (addGlobal name) := by
  rintro s _ _ ⟨⟩
  exact .refl s.current

theorem callFree_place? (name : String) : CallFree (place? name) := by
  intro s place t hrun
  have hgained := (yields_place?_gained name s).result hrun
  rw [Session.functions, Session.functions, List.forall₂_cons] at hgained
  exact hgained.1.callFree

@[simp] theorem callFree_lookup (types : TypeOracle) (name : String) :
    CallFree (lookup types name) := by
  apply callFree_bind callFree_get
  intro s
  simp only
  split
  · apply callFree_bind (callFree_onCurrent (callFree_stringIndex name))
    intro k
    exact callFree_bind (callFree_onCurrent (callFree_toKey _)) fun _ ↦ callFree_pure _
  · apply callFree_bind (callFree_place? name)
    intro place
    split
    · exact callFree_pure _
    · split
      · exact callFree_bind (callFree_onCurrent (callFree_constantIndex _)) fun _ ↦ callFree_pure _
      · split
        · exact callFree_onCurrent (callFree_globalValue name)
        · exact callFree_throw _

@[simp] theorem callFree_lookupThis : CallFree lookupThis := by
  apply callFree_bind (callFree_place? "this")
  intro place
  split
  · exact callFree_pure _
  · apply callFree_bind callFree_get
    intro s
    split
    · exact callFree_pure _
    · exact callFree_throw _

@[simp] theorem callFree_field (types : TypeOracle) (owner : Place) (name : String) :
    CallFree (withOwner owner.toValue (lookup types name)) := by
  rw [withOwner_lookup]
  exact callFree_onCurrent (Build.callFree_bind (callFree_stringIndex name) fun _ ↦ by simp)

@[simp] theorem callFree_nameTarget (name : String) : CallFree (nameTarget name) := by
  apply callFree_bind callFree_get
  intro s
  split
  · exact callFree_throw _
  · apply callFree_bind (callFree_place? name)
    intro place
    split
    · exact callFree_pure _
    · exact callFree_pure _
    · split
      · exact callFree_throw _
      · exact callFree_bind (callFree_addGlobal name) fun _ ↦
          callFree_onCurrent (callFree_globalTarget name)

@[simp] theorem callFree_findLocal (name : String) :
    CallFree (do return (← get).current.local? name : Lower (Option Local)) :=
  callFree_bind callFree_get fun _ ↦ callFree_pure _

end Lower

/-! ## Nested functions -/

/-- The function around a nested one goes on with the closure of it, and its registers are in order
only if those of the nested one are. -/
structure Session.Encloses (s : Session) (nested : OpenFunction) (t : Session) : Prop where
  continues : s.current.Continues (fun _ ↦ True) t.current
  calls : ∀ {pc : Nat} {i : Instruction}, t.current.proto.code[pc]? = some i → i.isCall = true →
    s.current.proto.code[pc]? = some i
  children : t.current.proto.children = s.current.proto.children ++ [nested.close]
  inOrder : t.inOrder = true → nested.registers.inOrder = true

theorem encloses_of_function {params : List String} {body : List Stmt} {v : Value}
    (hopen : Lower.openBody params body s.entered = .ok () u)
    (hbody : Lower.statements types body u = .ok () w)
    (h : (Task.function params body).lower types s = .ok v t) : s.Encloses w.current t := by
  obtain ⟨parent, outer, houter, hclosure⟩ := inFunction_eq_ok hopen hbody h
  -- The function around has gained upvalues at most while the nested one was open.
  have hgained : s.current.Gained parent := by
    have hfollows := ((Lower.steady_openBody params body _).result hopen).trans
      ((Task.steady types (.statements body) u).result hbody)
    have hall := hfollows.enclosing
    rw [houter, Session.entered, Session.functions, List.forall₂_cons] at hall
    exact hall.1
  have hnested : parent.CallFree (parent.afterNested w.current) := .of_note rfl rfl
  obtain ⟨hrun, -⟩ := Lower.onCurrent_eq_ok hclosure
  have hattach : attach w.current.close (parent.afterNested w.current) =
    .ok parent.proto.children.length ((parent.afterNested w.current).adopting w.current.close) :=
  rfl
  rw [Build.closure, bind_of_ok hattach] at hrun
  have hload : Build.CallFree (do
      let dst ← takeRegister
      push (.abx .closure dst parent.proto.children.length)
      return Value.register dst) := by simp
  have hend := hload hrun
  have hadopt : (parent.afterNested w.current).Continues (fun _ ↦ True)
      ((parent.afterNested w.current).adopting w.current.close) := .of_registers rfl id id
  constructor
  · exact ((hgained.callFree.trans hnested).toContinues.trans hadopt).trans hend.toContinues
  · intro pc i hpc hi
    exact (hgained.callFree.trans hnested).calls not_false (hend.calls not_false hpc hi) hi
  · rw [hend.children, ← hgained.callFree.children]
    rfl
  · intro ht
    exact (Registers.note_inOrder_iff.mp (hend.inOrder ht)).2.1

/-! ## Plans -/

/-- Lowering a task goes on with the innermost function. -/
def Task.Continues (types : TypeOracle) (task : Task) : Prop :=
  ∀ s b t, task.lower types s = .ok b t → s.current.Continues (fun _ ↦ True) t.current

namespace Plan

/-- Every step of a plan does without a call, and no nested function is entered. -/
def AllCallFree : Plan α → Prop
  | done _ | fail _ => True
  | step x _ rest => x.CallFree ∧ ∀ b, (rest b).AllCallFree
  | bind _ _ x _ _ => x.CallFree
  | part _ rest => ∀ b, (rest b).AllCallFree
  | enter .. => False

/-- The steps of a plan leave alone the code at the positions `F` and that of the parts of the plan.
Only an origin of calls or nested functions adds one itself. -/
def Works (types : TypeOracle) (origin : Prop) : (Nat → Prop) → Plan α → Session → Prop
  | _, done _, _ | _, fail _, _ => True
  | F, step x _ rest, s => ∀ b t, x s = .ok b t →
    s.current.Works origin F t.current ∧ (rest b).Works types origin F t
  | F, bind name isConst x _ _, s => ∀ t,
    Lower.onCurrent (do bindLocal name (← x) isConst) s = .ok () t →
      s.current.Works origin F t.current
  | F, part task rest, s => ∀ b t, task.lower types s = .ok b t →
    (rest b).Works types origin (fun i ↦ F i ∨ s.size ≤ i ∧ i < t.size) t
  | F, enter params body rest, s => origin ∧ ∀ v t,
    (Task.function params body).lower types s = .ok v t →
    (rest v).Works types origin (fun i ↦ F i ∨ s.size ≤ i ∧ i < t.size) t

theorem AllCallFree.works {plan : Plan α} (h : plan.AllCallFree) (types : TypeOracle)
    (origin : Prop) (F : Nat → Prop) (s : Session) : plan.Works types origin F s := by
  induction plan generalizing F s with
  | done | fail => trivial
  | step x still rest ih =>
    intro b t hrun
    exact ⟨.of_callFree (h.1 hrun), ih b (h.2 b) F t⟩
  | bind name isConst x gives a =>
    intro t hrun
    have hbind : Build.CallFree (do bindLocal name (← x) isConst) :=
      callFree_bind h fun r ↦ callFree_bindLocal name r isConst
    exact .of_callFree (hbind (Lower.onCurrent_eq_ok hrun).1)
  | part task rest ih => exact fun b t _ ↦ ih b (h b) _ t
  | enter params body rest ih => exact h.elim

theorem works_build {x : Build β} {neutral : x.Neutral} {rest : β → Plan α} (hx : x.CallFree)
    (hrest : ∀ b t, x s.current = .ok b t.current → (rest b).Works types origin F t) :
    (build x neutral rest).Works types origin F s := by
  intro b t hrun
  obtain ⟨hrun, -⟩ := Lower.onCurrent_eq_ok hrun
  exact ⟨.of_callFree (hx hrun), hrest b t hrun⟩

theorem works_assignment {left : Expr} {compound : Except Failure (Option (BinaryOp × Bool))}
    {right : (Value → Plan α) → Plan α} {rest : Target → Value → Plan α}
    (hcompound : ∀ op isString, compound = .ok (some (op, isString)) → op.logical? = none)
    (hright : ∀ rest, (∀ v, (rest v).AllCallFree) → (right rest).AllCallFree)
    (hrest : ∀ target v, (rest target v).AllCallFree) :
    (assignment left compound right rest).Works types origin F s := by
  match compound with
  | .error e => trivial
  | .ok none =>
    intro target t _
    exact (hright _ (hrest target)).works types origin _ t
  | .ok (some (op, isString)) =>
    simp only [assignment, assignedValue]
    intro target t _
    apply works_build (callFree_read target)
    intro v t _
    apply works_build (callFree_beginBinary op isString v)
    intro pending t hbegin
    have hplain := (beginBinary_eq_ok (hcompound op isString rfl) hbegin).1
    apply AllCallFree.works
    apply hright
    intro w
    exact ⟨Lower.callFree_onCurrent (callFree_finishBinary hplain w), hrest target⟩

/-- The jump of a logical operator lies between the code of its operands. -/
theorem works_binary {op : BinaryOp} {isString : Bool} {left right : Expr}
    (hF : ∀ i, F i → i < s.size)
    (hleft : ∀ v t, (Task.expr left).lower types s = .ok v t → s.size ≤ t.size) :
    (part (.expr left) fun v ↦ build (beginBinary op isString v) (by simp) fun pending ↦
      part (.expr right) fun w ↦ build (finishBinary pending w) (by simp) done : Plan Value).Works
        types origin F s := by
  intro v t hv
  have hsize := hleft v t hv
  apply works_build (callFree_beginBinary op isString v)
  intro pending u hbegin
  cases hop : op.logical? with
  | none =>
    have hplain := (beginBinary_eq_ok hop hbegin).1
    intro w x _
    exact works_build (callFree_finishBinary hplain w) fun _ _ _ ↦ trivial
  | some decides =>
    obtain ⟨dst, jump, rfl, hlow, hhigh⟩ := jump_of_beginBinary hop hbegin
    have hlow : t.size ≤ jump := hlow
    have hhigh : jump < u.size := hhigh
    intro w x _ v y hfinish
    obtain ⟨hfinish, -⟩ := Lower.onCurrent_eq_ok hfinish
    obtain ⟨g, hfree, hy⟩ := landing_of_finishBinary hfinish
    have hjump : ¬((F jump ∨ s.size ≤ jump ∧ jump < t.size) ∨ u.size ≤ jump ∧ jump < x.size) := by
      rintro ((hjump | hjump) | hjump)
      · have := hF jump hjump
        omega
      · omega
      · omega
    refine ⟨?_, trivial⟩
    rw [hy]
    exact .trans (.of_callFree hfree) (.land hjump)

theorem works_callWith {callee : Expr} {args : List Expr} {use : ResultUse} {rest : Nat → Plan α}
    (horigin : origin) (hrest : ∀ base, (rest base).AllCallFree) :
    (callWith callee args use rest).Works types origin F s := by
  intro v t _
  apply works_build (callFree_inNewRegister v)
  intro base t _ isOpen x _ _ y hcall
  obtain ⟨hcall, -⟩ := Lower.onCurrent_eq_ok hcall
  exact ⟨works_call horigin hcall, (hrest base).works types origin _ y⟩

/-- What the parts of a plan are known to do, the plan as a whole does. -/
theorem Works.run {plan : Plan α} {a : α} (h : plan.Works types origin F s)
    (hparts : plan.AllParts (Task.Continues types) True)
    (hrun : plan.run types s = .ok a t) : s.current.Continues F t.current := by
  induction plan generalizing F s with
  | done =>
    cases hrun
    exact .refl _
  | fail => cases hrun
  | step x still rest ih =>
    obtain ⟨b, u, hstep, hrest⟩ := bind_eq_ok hrun
    obtain ⟨hworks, hnext⟩ := h b u hstep
    exact hworks.toContinues.trans (ih b hnext (hparts b) hrest)
  | bind name isConst x gives a =>
    obtain ⟨_, _, hstep, ⟨⟩⟩ := bind_eq_ok hrun
    exact (h _ hstep).toContinues
  | part task rest ih =>
    obtain ⟨b, u, htask, hrest⟩ := bind_eq_ok hrun
    have hcontinues := ih b (h b u htask) (hparts.2 b) hrest
    exact ((hparts.1 s b u htask).mono fun _ _ _ ↦ trivial).trans
      (hcontinues.mono fun i hi _ ↦ .inl hi)
  | enter params body rest ih =>
    obtain ⟨v, u, hfunction, hrest⟩ := bind_eq_ok hrun
    have hcontinues := ih v (h.2 v u hfunction) (hparts.2 v) hrest
    obtain ⟨_, _, hopen, hbody⟩ := function_eq_ok hfunction
    have hencloses := encloses_of_function hopen hbody hfunction
    exact (hencloses.continues.mono fun _ _ _ ↦ trivial).trans
      (hcontinues.mono fun i hi _ ↦ .inl hi)

end Plan

/-! ## Tasks -/

theorem AssignOp.logical?_of_compound {op : AssignOp} {left right : Expr} {o : BinaryOp}
    {isString : Bool} (h : op.compound types left right = .ok (some (o, isString))) :
    o.logical? = none := by
  rw [compound] at h
  split at h
  · cases h
  · split at h
    · cases h
    · cases h
      cases o <;> simp_all [BinaryOp.logical?]

theorem UpdateOp.logical?_of_compound {op : UpdateOp} {form : UpdateForm} {o : BinaryOp}
    {isString : Bool} (h : op.compound form = .ok (some (o, isString))) : o.logical? = none := by
  cases form <;> cases h
  cases op <;> rfl

namespace Task

open Plan

/-- The callee and the arguments of the call that a task is, and what becomes of its results. -/
def call? : Task → Option (Expr × List Expr × ResultUse)
  | expr (.call callee args) => some (callee, args, .single)
  | arguments [.call callee args] => some (callee, args, .forward)
  | statement (.expression (.call callee args)) => some (callee, args, .discard)
  | _ => none

/-- A task that is a call or a nested function. -/
def isOrigin : Task → Bool
  | function .. => true
  | task => task.call?.isSome

theorem works_plan_expr {e : Expr} {s : Session}
    (hparts : ((expr e).plan types).AllParts (Task.Continues types) True) :
    ((expr e).plan types).Works types ((expr e).isOrigin = true) (· < s.size) s := by
  cases e with
  | binary op left right =>
    apply works_binary fun _ hi ↦ hi
    intro v t hv
    exact (hparts.1 s v t hv).size_le
  | call callee args =>
    rw [plan]
    exact works_callWith rfl fun _ ↦ trivial
  | assign op left right =>
    rw [plan]
    apply works_assignment (fun _ _ h ↦ AssignOp.logical?_of_compound h)
    · exact fun rest hrest ↦ hrest
    · exact fun target v ↦ ⟨by simp, fun _ ↦ trivial⟩
  | update op form operand =>
    rw [plan]
    apply works_assignment (fun _ _ h ↦ UpdateOp.logical?_of_compound h)
    · exact fun rest hrest ↦ ⟨by simp, hrest⟩
    · exact fun target v ↦ ⟨by simp, fun _ ↦ trivial⟩
  | array elements =>
    apply AllCallFree.works
    rw [plan]
    split
    · trivial
    · rcases elements with - | ⟨- | first, rest⟩ <;> simp [build, AllCallFree]
  | unary op operand =>
    apply AllCallFree.works
    rw [plan]
    split
    case h_1 opcode hopcode =>
      simp [build, AllCallFree, callFree_unary hopcode]
    case h_2 => trivial
  | arrow params body =>
    apply AllCallFree.works
    cases body <;> simp [plan, AllCallFree]
  | _ =>
    apply AllCallFree.works
    simp [plan, build, last, AllCallFree]

theorem works_plan_arguments (types : TypeOracle) (args : List Expr) (F : Nat → Prop)
    (s : Session) :
    ((arguments args).plan types).Works types ((arguments args).isOrigin = true) F s := by
  match args with
  | [] => trivial
  | [arg] =>
    cases arg with
    | call callee args =>
      rw [plan]
      exact works_callWith rfl fun _ ↦ trivial
    | _ =>
      apply AllCallFree.works
      simp [plan, build, AllCallFree]
  | arg :: next :: args =>
    apply AllCallFree.works
    simp [plan, build, AllCallFree]

theorem works_plan_statement (types : TypeOracle) (stmt : Stmt) (F : Nat → Prop) (s : Session) :
    ((statement stmt).plan types).Works types ((statement stmt).isOrigin = true) F s := by
  cases stmt with
  | expression e =>
    cases e with
    | call callee args =>
      rw [plan]
      exact works_callWith rfl fun _ ↦ trivial
    | assign op left right =>
      rw [plan]
      apply works_assignment (fun _ _ h ↦ AssignOp.logical?_of_compound h)
      · exact fun rest hrest ↦ hrest
      · exact fun target v ↦ ⟨by simp, fun _ ↦ trivial⟩
    | update op form operand =>
      rw [plan]
      apply works_assignment (fun _ _ h ↦ UpdateOp.logical?_of_compound h)
      · exact fun rest hrest ↦ ⟨by simp, hrest⟩
      · exact fun target v ↦ ⟨by simp, fun _ ↦ trivial⟩
    | _ =>
      apply AllCallFree.works
      simp [plan, build, AllCallFree]
  | function name params body =>
    apply AllCallFree.works
    refine ⟨Lower.callFree_findLocal name, fun found ↦ ?_⟩
    cases found <;> simp [store, build, AllCallFree]
  | ret value =>
    apply AllCallFree.works
    cases value <;> simp [plan, build, AllCallFree]
  | _ =>
    apply AllCallFree.works
    simp [plan, AllCallFree]

theorem allCallFree_declarator (types : TypeOracle) (kind : DeclKind) (d : Declarator) :
    ((declarator kind d).plan types).AllCallFree := by
  obtain ⟨name, - | init⟩ := d
  · refine ⟨Lower.callFree_findLocal name, fun found ↦ ?_⟩
    cases found <;> cases kind.bindsLocal <;> simp [build, last, AllCallFree]
  · refine ⟨Lower.callFree_findLocal name, fun found ↦ ?_⟩
    simp only
    split
    · simp [AllCallFree]
    · cases found <;> simp [store, build, AllCallFree]

theorem works_plan {task : Task} {s : Session}
    (hparts : (task.plan types).AllParts (Task.Continues types) True) :
    (task.plan types).Works types (task.isOrigin = true) (· < s.size) s := by
  cases task with
  | expr e => exact works_plan_expr hparts
  | arguments args => exact works_plan_arguments types args _ s
  | propertyKey key =>
    apply AllCallFree.works
    cases key with
    | literal l => cases h : l.constant? <;> simp [plan, h, build, AllCallFree]
    | _ => simp [plan, build, AllCallFree]
  | objectProperties table properties =>
    apply AllCallFree.works
    rcases properties with - | ⟨⟨key, value⟩, properties⟩ <;> simp [plan, build, AllCallFree]
  | arrayItem element =>
    apply AllCallFree.works
    cases element <;> simp [plan, build, AllCallFree]
  | arrayItems table pending batch elements =>
    apply AllCallFree.works
    cases elements with
    | nil =>
      rw [plan]
      split <;> simp [build, AllCallFree]
    | cons element elements =>
      intro _
      split <;> simp [build, AllCallFree]
  | target e =>
    apply AllCallFree.works
    cases e <;> simp [plan, build, last, AllCallFree]
  | declarator kind d => exact (allCallFree_declarator types kind d).works types _ _ s
  | declarators kind ds =>
    apply AllCallFree.works
    cases ds <;> simp [plan, AllCallFree]
  | function params body => exact ⟨rfl, fun _ _ _ ↦ trivial⟩
  | statement stmt => exact works_plan_statement types stmt _ s
  | statements body =>
    apply AllCallFree.works
    cases body <;> simp [plan, build, AllCallFree]

/-- Whatever is lowered goes on with the innermost function. -/
theorem continues (types : TypeOracle) (task : Task) : task.Continues types := by
  induction task using induction_on_parts types with
  | h task hparts =>
    have hall : (task.plan types).AllParts (Task.Continues types) True :=
      hparts.mono (fun _ hpart ↦ hpart.2) fun _ ↦ trivial
    intro s b t h
    rw [← run_plan] at h
    exact ((works_plan hall).run hall h).mono fun i _ hi ↦ hi

theorem works (types : TypeOracle) (task : Task) (s : Session) :
    (task.plan types).Works types (task.isOrigin = true) (· < s.size) s :=
  works_plan ((partOf_plan types task).mono (fun part _ ↦ part.continues types) fun _ ↦ trivial)

end Task

theorem Plan.continues_of_works {plan : Plan α} {a : α} (h : plan.Works types origin F s)
    (hrun : plan.run types s = .ok a t) : s.current.Continues F t.current :=
  h.run (allParts_of_forall (fun task ↦ task.continues types) trivial plan) hrun

/-! ## What is lowered in the course of something else -/

theorem Session.Around.depth_le (h : s.Around u) : s.enclosing.length ≤ u.enclosing.length := by
  obtain ⟨inner, base, hu, hbase⟩ := h.functions
  have hlength := congrArg List.length hu
  have hbase := hbase.length_eq
  simp only [Session.functions, List.length_cons, List.length_append] at hlength hbase
  omega

theorem Task.depth_eq {task : Task} {b : task.Result} (h : task.lower types s = .ok b t) :
    s.enclosing.length = t.enclosing.length :=
  ((task.steady types s).result h).enclosing.length_eq

theorem Session.depth_of_openBody {params : List String} {body : List Stmt}
    (h : Lower.openBody params body s.entered = .ok () t) :
    t.enclosing.length = s.enclosing.length + 1 := by
  rw [(opened_of_openBody h).enclosing]
  rfl

/-- A plan goes on from where it was to a part in the same function, and from the part to its end,
which leaves the code of the part alone. -/
theorem Plan.Meets.continues {plan : Plan α} {part : Task} {a : α} {b : part.Result}
    (h : plan.Meets types s part u) (hworks : plan.Works types origin F s)
    (hdepth : u.enclosing.length = s.enclosing.length) (hrun : plan.run types s = .ok a t)
    (hpart : part.lower types u = .ok b w) :
    s.current.Continues F u.current ∧ w.current.Continues (u.size ≤ ·) t.current := by
  induction h generalizing F with
  | part task rest s =>
    rw [Plan.run, bind_of_ok hpart] at hrun
    have hrest := Plan.continues_of_works (hworks b w hpart) hrun
    exact ⟨.refl _, hrest.mono fun i hi hw ↦ .inr ⟨hi, hw⟩⟩
  | @afterPart task part rest s t' u c hfirst hmeets ih =>
    rw [Plan.run, bind_of_ok hfirst] at hrun
    have hfirst' := task.continues types _ _ _ hfirst
    obtain ⟨hbefore, hafter⟩ := ih (hworks c t' hfirst)
      (hdepth.trans (Task.depth_eq hfirst)) hrun hpart
    refine ⟨.trans (hfirst'.mono fun _ _ _ ↦ trivial) (hbefore.mono fun i hi _ ↦ .inl hi), hafter⟩
  | @afterStep _ x still rest part s t' u c hfirst hmeets ih =>
    rw [Plan.run, bind_of_ok hfirst] at hrun
    obtain ⟨hstep, hrest⟩ := hworks c t' hfirst
    have hlength := ((still s).result hfirst).enclosing.length_eq
    obtain ⟨hbefore, hafter⟩ := ih hrest (hdepth.trans hlength) hrun hpart
    exact ⟨hstep.toContinues.trans hbefore, hafter⟩
  | body hopen =>
    have hlength := Session.depth_of_openBody hopen
    omega

/-- What is lowered in the same function in the course of a task stays in the code of the task. -/
theorem Visits.continues {task visited : Task} {a : task.Result} {b : visited.Result}
    (h : Visits types task s visited u) (hdepth : u.enclosing.length = s.enclosing.length)
    (hrun : task.lower types s = .ok a t) (hvisited : visited.lower types u = .ok b w) :
    s.current.Continues (fun _ ↦ True) u.current ∧ w.current.Continues (u.size ≤ ·) t.current := by
  induction h generalizing t with
  | self =>
    obtain ⟨rfl, rfl⟩ := EStateM.Result.ok.inj (hrun.symm.trans hvisited)
    exact ⟨.refl _, .refl _⟩
  | @inside task part visited s t' u hmeets hvisits ih =>
    rw [← Task.run_plan] at hrun
    obtain ⟨c, x, hpart⟩ := hmeets.succeeds hrun
    have houter := hmeets.around.depth_le
    have hinner := hvisits.around.depth_le
    obtain ⟨hbefore, hafter⟩ := hmeets.continues (task.works types s) (by omega) hrun hpart
    obtain ⟨hbefore', hafter'⟩ := ih (by omega) hpart hvisited
    constructor
    · exact (hbefore.mono fun i _ hi ↦ hi).trans hbefore'
    · exact hafter'.trans (hafter.mono fun i hi _ ↦ hbefore'.size_le.trans hi)

/-! ## The registers are in order all along -/

theorem Plan.Meets.orderly {plan : Plan α} {part : Task} {a : α} {b : part.Result}
    (h : plan.Meets types s part u) (hworks : plan.Works types origin F s)
    (hrun : plan.run types s = .ok a t) (hpart : part.lower types u = .ok b w)
    (hs : s.current.registers.Orderly) (ht : t.inOrder = true) :
    u.current.registers.Orderly ∧ w.inOrder = true := by
  induction h generalizing F with
  | part task rest s =>
    rw [Plan.run, bind_of_ok hpart] at hrun
    exact ⟨hs, (Plan.continues_of_works (hworks b w hpart) hrun).inOrder ht⟩
  | @afterPart task part rest s t' u c hfirst hmeets ih =>
    rw [Plan.run, bind_of_ok hfirst] at hrun
    exact ih (hworks c t' hfirst) hrun hpart ((task.continues types _ _ _ hfirst).orderly hs)
  | @afterStep _ x still rest part s t' u c hfirst hmeets ih =>
    rw [Plan.run, bind_of_ok hfirst] at hrun
    obtain ⟨hstep, hrest⟩ := hworks c t' hfirst
    exact ih hrest hrun hpart (hstep.orderly hs)
  | @body params body rest s u hopen =>
    obtain ⟨v, x, hfunction, hrest⟩ := bind_eq_ok hrun
    have hencloses := encloses_of_function hopen hpart hfunction
    have hx := (Plan.continues_of_works (hworks.2 v x hfunction) hrest).inOrder ht
    exact ⟨fun _ ↦ (opened_of_openBody hopen).fresh.tidy, hencloses.inOrder hx⟩

theorem Visits.tidy {task visited : Task} {a : task.Result} (h : Visits types task s visited u)
    (hrun : task.lower types s = .ok a t) (hs : s.current.registers.Orderly)
    (ht : t.inOrder = true) : u.current.registers.Tidy := by
  induction h generalizing t with
  | @self task s => exact hs ((task.continues types _ _ _ hrun).inOrder ht)
  | @inside task part visited s t' u hmeets hvisits ih =>
    rw [← Task.run_plan] at hrun
    obtain ⟨c, x, hpart⟩ := hmeets.succeeds hrun
    obtain ⟨ht', hx⟩ := hmeets.orderly (task.works types s) hrun hpart hs ht
    exact ih hpart ht' hx

/-- Everything that a compilation lowers it lowers from a session in which registers can be taken
and released. -/
theorem Encounters.ready {task : Task} {p : Prototype} (h : Encounters types options program task s)
    (hp : compileBody types options program = .ok p) : s.Ready := by
  obtain ⟨t, hrun, -⟩ := compileBody_eq_ok hp
  have hblock : Lower.block types program (Session.main options.source) = .ok () t := hrun
  have hinOrder := (program_inOrder types program options.source).result hblock
  exact ⟨h.owners, Visits.tidy h hrun (fun _ ↦ Registers.tidy_empty) hinOrder⟩

end LuaLower
