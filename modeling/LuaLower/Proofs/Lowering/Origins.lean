import LuaLower.Proofs.Lowering.Continuation

/-!
# Where calls and nested functions come from

Whatever appears in an open function appears in the course of some task, by a step of its own and
not in one of its parts. For a call instruction that task is a call of the source, and for a nested
function it is a function of the source. So every prototype of a compiled program is that of one of
the functions of the program, and every call in it is one that its body makes.
-/

namespace LuaLower

open OpenFunction Build

variable {types : TypeOracle} {options : Options} {program : List Stmt} {α : Type} {F : Nat → Prop}
  {X : OpenFunction → Prop} {task : Task} {callee : Expr} {args : List Expr} {use : ResultUse}
  {s t u w : Session}

/-! ## The steps of a call -/

theorem callWith_eq_ok {argCount base : Nat} (h : Lower.callWith (Lower.expr types callee)
    (Lower.arguments types args) argCount use s = .ok base t) :
    ∃ v t₁ t₂ isOpen t₃, Lower.expr types callee s = .ok v t₁ ∧
      Lower.onCurrent (inNewRegister v) t₁ = .ok base t₂ ∧
      Lower.arguments types args t₂ = .ok isOpen t₃ ∧
      Lower.onCurrent (call base argCount isOpen use) t₃ = .ok () t := by
  obtain ⟨v, t₁, hcallee, h⟩ := bind_eq_ok h
  obtain ⟨r, t₂, hbase, h⟩ := bind_eq_ok h
  obtain ⟨isOpen, t₃, hargs, h⟩ := bind_eq_ok h
  obtain ⟨_, _, hcall, ⟨⟩⟩ := bind_eq_ok h
  exact ⟨v, t₁, t₂, isOpen, t₃, hcallee, hbase, hargs, hcall⟩

/-- A call adds one instruction after its arguments. -/
theorem proto_of_call {base argCount : Nat} {isOpen : Bool} {f g : OpenFunction}
    (h : call base argCount isOpen use f = .ok () g) :
    g.proto =
      { f.proto with
        code := f.proto.code.push
          (.abc .call base (if isOpen then 0 else argCount + 1) use.operand) } := by
  rw [call, bind_of_ok (push_apply _ _)] at h
  obtain ⟨_, f₁, hrelease, h⟩ := bind_eq_ok h
  cases hrelease
  cases use with
  | discard =>
    cases h
    simp [OpenFunction.emit]
  | _ =>
    obtain ⟨r, _, htake, ⟨⟩⟩ := bind_eq_ok h
    obtain ⟨-, rfl⟩ := takeRegister_eq_ok htake
    simp [OpenFunction.emit]

theorem code_of_call {base argCount : Nat} {isOpen : Bool} {f g : OpenFunction}
    (h : call base argCount isOpen use f = .ok () g) :
    g.proto.code =
      f.proto.code.push (.abc .call base (if isOpen then 0 else argCount + 1) use.operand) := by
  rw [proto_of_call h]

namespace Task

theorem plan_of_call? (types : TypeOracle) (h : task.call? = some (callee, args, use)) :
    ∃ result : Nat → task.Result,
      task.plan types = Plan.callWith callee args use fun base ↦ .done (result base) := by
  unfold call? at h
  split at h <;> cases h
  · exact ⟨.register, by rw [plan]⟩
  · exact ⟨fun _ ↦ true, by rw [plan]⟩
  · exact ⟨fun _ ↦ (), by rw [plan]⟩

theorem callWith_of_lower {b : task.Result} (hcall : task.call? = some (callee, args, use))
    (h : task.lower types s = .ok b t) :
    ∃ base,
      Lower.callWith (Lower.expr types callee) (Lower.arguments types args) args.length use s =
      .ok base t := by
  unfold call? at hcall
  split at hcall <;> cases hcall
  · rw [lower, Lower.expr] at h
    obtain ⟨base, _, h, ⟨⟩⟩ := bind_eq_ok h
    exact ⟨base, h⟩
  · rw [lower, Lower.arguments] at h
    obtain ⟨base, _, h, ⟨⟩⟩ := bind_eq_ok h
    exact ⟨base, h⟩
  · rw [lower, Lower.statement] at h
    obtain ⟨base, _, h, ⟨⟩⟩ := bind_eq_ok h
    exact ⟨base, h⟩

theorem meets_callee (types : TypeOracle) (hcall : task.call? = some (callee, args, use))
    (s : Session) : (task.plan types).Meets types s (.expr callee) s := by
  obtain ⟨rest, hplan⟩ := plan_of_call? types hcall
  rw [hplan]
  exact .part _ _ s

theorem meets_arguments {v : Value} {base : Nat} (hcall : task.call? = some (callee, args, use))
    (hcallee : Lower.expr types callee s = .ok v t)
    (hbase : Lower.onCurrent (inNewRegister v) t = .ok base u) :
    (task.plan types).Meets types s (.arguments args) u := by
  obtain ⟨rest, hplan⟩ := plan_of_call? types hcall
  rw [hplan]
  exact .afterPart hcallee (.afterStep hbase (.part _ _ u))

end Task

/-! ## Origins -/

theorem Plan.exists_part {plan : Plan α} {a : α}
    (hX : ∀ {F f g}, f.Works False F g → X g → X f) (h : plan.Works types False F s)
    (hrun : plan.run types s = .ok a t) (ht : X t.current) (hs : ¬X s.current) :
    ∃ (part : Task) (u w : Session) (b : part.Result), plan.Meets types s part u ∧
      u.enclosing.length = s.enclosing.length ∧ part.lower types u = .ok b w ∧
      X w.current ∧ ¬X u.current := by
  induction plan generalizing F s with
  | done =>
    cases hrun
    exact (hs ht).elim
  | fail => cases hrun
  | step x still rest ih =>
    obtain ⟨b, u, hstep, hrest⟩ := bind_eq_ok hrun
    obtain ⟨hworks, hnext⟩ := h b u hstep
    obtain ⟨part, v, w, c, hmeets, hdepth, hpart⟩ := ih b hnext hrest fun hu ↦ hs (hX hworks hu)
    have hlength := ((still s).result hstep).enclosing.length_eq
    exact ⟨part, v, w, c, .afterStep hstep hmeets, hdepth.trans hlength.symm, hpart⟩
  | bind name isConst x gives a =>
    obtain ⟨_, _, hstep, ⟨⟩⟩ := bind_eq_ok hrun
    exact (hs (hX (h _ hstep) ht)).elim
  | part task rest ih =>
    obtain ⟨b, u, htask, hrest⟩ := bind_eq_ok hrun
    by_cases hu : X u.current
    · exact ⟨task, s, u, b, .part task rest s, rfl, htask, hu, hs⟩
    · obtain ⟨part, v, w, c, hmeets, hdepth, hpart⟩ := ih b (h b u htask) hrest hu
      exact ⟨part, v, w, c, .afterPart htask hmeets, hdepth.trans (Task.depth_eq htask).symm, hpart⟩
  | enter params body rest ih => exact h.1.elim

/-- A task adds something by a step of its own: by a call, or by the closure of a function. -/
inductive Task.Adds (X : OpenFunction → Prop) : Task → Session → Session → Prop
  | call {task : Task} {callee : Expr} {args : List Expr} {use : ResultUse} {base : Nat}
    {isOpen : Bool} {u x w : Session} : task.call? = some (callee, args, use) →
    Lower.onCurrent (Build.call base args.length isOpen use) x = .ok () w → ¬X x.current →
    X w.current → Adds X task u w
  | function {params : List String} {body : List Stmt} {u w : Session} : ¬X u.current →
    X w.current → Adds X (.function params body) u w

/-- What no other step adds is added by a call or a nested function. -/
theorem Task.exists_origin (types : TypeOracle) (hX : ∀ {F f g}, f.Works False F g → X g → X f)
    (task : Task) {b : task.Result} (h : task.lower types s = .ok b t) (ht : X t.current)
    (hs : ¬X s.current) :
    ∃ (origin : Task) (u w : Session) (c : origin.Result), Visits types task s origin u ∧
      u.enclosing.length = s.enclosing.length ∧ origin.lower types u = .ok c w ∧
      origin.Adds X u w := by
  induction task using induction_on_parts types generalizing s t with
  | h task hparts =>
    have hlift {part : Task} {u w : Session} {c : part.Result}
        (hmeets : (task.plan types).Meets types s part u)
        (hdepth : u.enclosing.length = s.enclosing.length) (hpart : part.lower types u = .ok c w)
        (hw : X w.current) (hu : ¬X u.current) :
        ∃ (origin : Task) (u w : Session) (c : origin.Result), Visits types task s origin u ∧
          u.enclosing.length = s.enclosing.length ∧ origin.lower types u = .ok c w ∧
          origin.Adds X u w := by
      obtain ⟨origin, u', w', c', hvisits, hdepth', horigin⟩ :=
        (hmeets.of_allParts hparts).2 hpart hw hu
      exact ⟨origin, u', w', c', .inside hmeets hvisits, hdepth'.trans hdepth, horigin⟩
    cases hcall : task.call? with
    | some call =>
      obtain ⟨callee, args, use⟩ := call
      obtain ⟨base, hrun⟩ := callWith_of_lower hcall h
      obtain ⟨v, t₁, t₂, isOpen, t₃, hcallee, hbase, hargs, hend⟩ := callWith_eq_ok hrun
      obtain ⟨hplace, hplaced⟩ := Lower.onCurrent_eq_ok hbase
      by_cases h₁ : X t₁.current
      · exact hlift (meets_callee types hcall s) rfl hcallee h₁ hs
      · have h₂ : ¬X t₂.current := fun h₂ ↦ h₁ (hX (callFree_inNewRegister v hplace) h₂)
        by_cases h₃ : X t₃.current
        · have hdepth : t₂.enclosing.length = s.enclosing.length := by
            rw [hplaced]
            exact ((Task.expr callee).steady types s).result hcallee |>.enclosing.length_eq.symm
          exact hlift (meets_arguments hcall hcallee hbase) hdepth hargs h₃ h₂
        · exact ⟨task, s, t, _, .self task s, rfl, h, .call hcall hend h₃ ht⟩
    | none =>
      have hworks := task.works types s
      rw [← run_plan] at h
      cases task with
      | function params body =>
        rw [run_plan] at h
        exact ⟨_, s, t, _, .self _ s, rfl, h, .function hs ht⟩
      | _ =>
        simp only [isOrigin, hcall, Option.isSome_none, Bool.false_eq_true] at hworks
        obtain ⟨part, u, w, c, hmeets, hdepth, hpart, hw, hu⟩ :=
          Plan.exists_part hX hworks h ht hs
        exact hlift hmeets hdepth hpart hw hu

/-! ## Calls -/

/-- Every call in the code of a task is the last instruction of a call of the source. -/
theorem Task.exists_call (types : TypeOracle) (task : Task) {b : task.Result} {pc : Nat}
    {i : Instruction} (h : task.lower types s = .ok b t) (hpc : s.size ≤ pc)
    (hcode : t.current.proto.code[pc]? = some i) (hi : i.isCall = true) :
    ∃ (site : Task) (u w : Session) (c : site.Result) (callee : Expr) (args : List Expr)
      (use : ResultUse), Visits types task s site u ∧ u.enclosing.length = s.enclosing.length ∧
      site.call? = some (callee, args, use) ∧ site.lower types u = .ok c w ∧ w.size = pc + 1 := by
  have hX : ∀ {F f g}, OpenFunction.Works False F f g → g.proto.code[pc]? = some i →
      f.proto.code[pc]? = some i := fun hworks hg ↦ hworks.calls not_false hg hi
  have hs : ¬s.current.proto.code[pc]? = some i := by
    rw [Array.getElem?_eq_none hpc]
    exact nofun
  obtain ⟨site, u, w, c, hvisits, hdepth, hsite, hadds⟩ := task.exists_origin types hX h hcode hs
  cases hadds with
  | @call _ callee args use base isOpen u x w hcall hend hx hw =>
    refine ⟨site, u, w, c, callee, args, use, hvisits, hdepth, hcall, hsite, ?_⟩
    have hcode := code_of_call (Lower.onCurrent_eq_ok hend).1
    have hlast : pc = x.size := by
      rw [hcode, Array.getElem?_push] at hw
      split at hw
      · assumption
      · exact (hx hw).elim
    rw [Session.size, hcode, Array.size_push, hlast]
  | function hu hw =>
    obtain ⟨x, y, hopen, hbody⟩ := function_eq_ok hsite
    exact (hu ((encloses_of_function hopen hbody hsite).calls hw hi)).elim

/-! ## Nested functions -/

theorem Task.exists_function (types : TypeOracle) (task : Task) {b : task.Result} {p : Prototype}
    (h : task.lower types s = .ok b t) (hp : p ∈ t.current.proto.children)
    (hs : p ∉ s.current.proto.children) :
    ∃ params body u x y, Visits types task s (.function params body) u ∧
      Lower.openBody params body u.entered = .ok () x ∧
      Lower.statements types body x = .ok () y ∧ p = y.current.close := by
  have hX : ∀ {F f g}, OpenFunction.Works False F f g → p ∈ g.proto.children →
      p ∈ f.proto.children := fun hworks hg ↦ hworks.children ▸ hg
  obtain ⟨origin, u, w, c, hvisits, -, horigin, hadds⟩ := task.exists_origin types hX h hp hs
  cases hadds with
  | call _ hend hx hw =>
    have hworks : OpenFunction.Works True (fun _ ↦ True) _ _ :=
      works_call trivial (Lower.onCurrent_eq_ok hend).1
    exact (hx (hworks.children ▸ hw)).elim
  | @function params body _ _ hu hw =>
    obtain ⟨x, y, hopen, hbody⟩ := function_eq_ok horigin
    rw [(encloses_of_function hopen hbody horigin).children, List.mem_append,
      List.mem_singleton] at hw
    obtain hw | rfl := hw
    · exact (hu hw).elim
    · exact ⟨params, body, u, x, y, hvisits, hopen, hbody, rfl⟩

/-- The body of a function of a program has been lowered, and has become a prototype. -/
structure Completes (types : TypeOracle) (options : Options) (program : List Stmt)
    (body : List Stmt) (s t : Session) (p : Prototype) : Prop where
  lowersBody : ∃ params, LowersBody types options program params body s
  lowered : Lower.statements types body s = .ok () t
  close_eq : t.current.close = p

/-- Every prototype that is nested in that of a function belongs to a function inside it. -/
theorem Completes.exists_of_contains {body : List Stmt} {p q : Prototype}
    (h : Completes types options program body s t p) (hq : p.Contains q) :
    ∃ body s t, Completes types options program body s t q := by
  induction hq generalizing body s t with
  | self p => exact ⟨body, s, t, h⟩
  | @nested p c q hc _ ih =>
    obtain ⟨⟨params, hentry⟩, hrun, rfl⟩ := h
    have hs : c ∉ s.current.proto.children := by
      have hchildren : s.current.proto.children = [] := by
        cases hentry with
        | main => rfl
        | nested _ hopen => exact (opened_of_openBody hopen).fresh.children
      rw [hchildren]
      exact List.not_mem_nil
    obtain ⟨params', body', u, x, y, hvisits, hopen, hbody, rfl⟩ :=
      (Task.statements body).exists_function types hrun hc hs
    exact ih ⟨⟨params', .nested (hentry.encounters.trans hvisits) hopen⟩, hbody, rfl⟩

/-- Every prototype of a compiled program belongs to it or to a function in it. -/
theorem exists_completes_of_contains {p q : Prototype}
    (hp : compileBody types options program = .ok p) (hq : p.Contains q) :
    ∃ body s t, Completes types options program body s t q := by
  obtain ⟨t, hrun, rfl⟩ := compileBody_eq_ok hp
  exact Completes.exists_of_contains ⟨⟨[], .main⟩, hrun, rfl⟩ hq

/-! ## The function that something is lowered for -/

theorem Plan.Meets.depth_eq {plan : Plan α} {part : Task} (h : plan.Meets types s part u)
    (hworks : plan.Works types False F s) : u.enclosing.length = s.enclosing.length := by
  induction h generalizing F with
  | part => rfl
  | afterPart hfirst _ ih => exact (ih (hworks _ _ hfirst)).trans (Task.depth_eq hfirst).symm
  | @afterStep _ x still rest part s t u b hfirst _ ih =>
    exact (ih (hworks _ _ hfirst).2).trans ((still s).result hfirst).enclosing.length_eq.symm
  | body => exact hworks.1.elim

/-- Only the body of a nested function is lowered in another function. -/
theorem Task.depth_of_meets {part : Task} (h : (task.plan types).Meets types s part u) :
    u.enclosing.length = s.enclosing.length ∨ ∃ params body, task = .function params body ∧
      part = .statements body ∧ Lower.openBody params body s.entered = .ok () u := by
  cases hcall : task.call? with
  | some call =>
    obtain ⟨callee, args, use⟩ := call
    obtain ⟨result, hplan⟩ := plan_of_call? types hcall
    rw [hplan] at h
    left
    cases h with
    | part => rfl
    | afterPart hcallee h =>
      cases h with
      | afterStep hbase h =>
        obtain ⟨-, hplaced⟩ := Lower.onCurrent_eq_ok hbase
        have hdepth := Task.depth_eq hcallee
        cases h with
        | part =>
          rw [hplaced]
          exact hdepth.symm
        | afterPart _ h =>
          cases h with
          | afterStep _ h => cases h
  | none =>
    have hworks := task.works types s
    cases task with
    | function params body =>
      cases h with
      | body hopen => exact .inr ⟨params, body, rfl, rfl, hopen⟩
    | _ =>
      simp only [isOrigin, hcall, Option.isSome_none, Bool.false_eq_true] at hworks
      exact .inl (h.depth_eq hworks)

theorem LowersBody.exists_of_visits {params : List String} {body : List Stmt} {visited : Task}
    {entry : Session} (hbody : LowersBody types options program params body entry)
    (htask : Visits types (.statements body) entry task s)
    (hdepth : s.enclosing.length = entry.enclosing.length) (h : Visits types task s visited u) :
    ∃ params body entry, LowersBody types options program params body entry ∧
      Visits types (.statements body) entry visited u ∧
      u.enclosing.length = entry.enclosing.length := by
  induction h generalizing params body entry with
  | self => exact ⟨params, body, entry, hbody, htask, hdepth⟩
  | inside hmeets _ ih =>
    obtain hsame | ⟨params', body', rfl, rfl, hopen⟩ := Task.depth_of_meets hmeets
    · exact ih hbody (htask.trans (.inside hmeets (.self _ _))) (hsame.trans hdepth)
    · exact ih (.nested (hbody.encounters.trans htask) hopen) (.self _ _) rfl

/-- Everything that a compilation lowers it lowers for a function of the program, or for the
program. -/
theorem Encounters.exists_completes {p : Prototype} (h : Encounters types options program task s)
    (hp : compileBody types options program = .ok p) :
    ∃ q body entry last, p.Contains q ∧ Completes types options program body entry last q ∧
      Visits types (.statements body) entry task s ∧
      s.enclosing.length = entry.enclosing.length := by
  have hmain : LowersBody types options program [] program _ := .main
  obtain ⟨params, body, entry, hbody, hvisits, hdepth⟩ :=
    hmain.exists_of_visits (.self _ _) rfl h
  obtain ⟨_, last, hrun⟩ := hbody.encounters.succeeds hp
  exact ⟨last.current.close, body, entry, last, hbody.contains hp hrun,
    ⟨⟨params, hbody⟩, hrun, rfl⟩, hvisits, hdepth⟩

end LuaLower
