import LuaLower.Compile
import LuaLower.Proofs.Lowering.TaskParts

/-!
# Knowing more globals

Which globals are known decides whether a name without a variable is accepted, and nothing else. So
two runs that differ in the known globals only do the same as long as the one that knows less
succeeds. Every construct is lowered in the same order in both, and the one that knows less stays
behind the other at each step.
-/

namespace LuaLower

open Build

variable {types types' : TypeOracle} {α β : Type} {s s' t u : Session}

/-- A name that is accepted without a variable of that name. -/
def Session.knows (types : TypeOracle) (s : Session) (name : String) : Bool :=
  s.names.knowsGlobal name || types.isAmbient name

/-- Two sessions that are equal but for the known globals, of which the second has all of the
first. -/
structure Session.Widens (types types' : TypeOracle) (s s' : Session) : Prop where
  current : s'.current = s.current
  enclosing : s'.enclosing = s.enclosing
  owners : s'.names.owners = s.names.owners
  known : ∀ name, s.knows types name = true → s'.knows types' name = true

theorem Session.Widens.close_eq (h : s.Widens types types' s') : s'.close = s.close := by
  rw [Session.close, Session.close, h.enclosing, h.current]

@[simp] theorem Names.knowsGlobal_foldl (n : Names) (names : List String) (x : String) :
    (names.foldl Names.addGlobal n).knowsGlobal x = (names.contains x || n.knowsGlobal x) := by
  induction names generalizing n with
  | nil => simp
  | cons name names ih =>
    rw [List.foldl_cons, ih, knowsGlobal_addGlobal, List.contains_cons]
    cases x == name <;> simp

namespace Lower

/-- Whenever the first step succeeds, the second one does, with the same result. -/
def Mirrors (types types' : TypeOracle) (x y : Lower α) : Prop :=
  ∀ ⦃s s' a t⦄, s.Widens types types' s' → x s = .ok a t →
    ∃ t', y s' = .ok a t' ∧ t.Widens types types' t'

/-! ## Rules -/

theorem mirrors_pure (a : α) : Mirrors types types' (pure a) (pure a) := by
  intro s s' b t hs h
  cases h
  exact ⟨s', rfl, hs⟩

theorem mirrors_throw (e : Failure) (y : Lower α) : Mirrors types types' (throw e) y := by
  intro s s' a t hs h
  cases h

theorem mirrors_bind {x y : Lower α} {k l : α → Lower β} (hx : Mirrors types types' x y)
    (hk : ∀ a, Mirrors types types' (k a) (l a)) : Mirrors types types' (x >>= k) (y >>= l) := by
  intro s s' b u hs h
  obtain ⟨a, t, hxs, hkt⟩ := bind_eq_ok h
  obtain ⟨t', hys, ht⟩ := hx hs hxs
  obtain ⟨u', hlt, hu⟩ := hk a ht hkt
  exact ⟨u', (bind_of_ok hys).trans hlt, hu⟩

theorem mirrors_get {k l : Session → Lower β}
    (h : ∀ s s' : Session, s.Widens types types' s' → Mirrors types types' (k s) (l s')) :
    Mirrors types types' (get >>= k) (get >>= l) := by
  intro s s' b t hs hrun
  exact h s s' hs hs hrun

theorem mirrors_onCurrent (x : Build α) : Mirrors types types' (onCurrent x) (onCurrent x) := by
  intro s s' a t hs h
  obtain ⟨hx, ht⟩ := onCurrent_eq_ok h
  rw [← hs.current] at hx
  refine ⟨{ s' with current := t.current }, onCurrent_of_ok hx, ?_⟩
  rw [ht]
  exact { hs with current := rfl }

theorem mirrors_addGlobal (name : String) :
    Mirrors types types' (addGlobal name) (addGlobal name) := by
  intro s s' a t hs h
  cases h
  refine ⟨_, rfl, { hs with known := fun x hx ↦ ?_ }⟩
  have hknown := hs.known x
  simp only [Session.knows, Names.knowsGlobal_addGlobal, Bool.or_eq_true] at hx hknown ⊢
  tauto

theorem mirrors_hoist (body : List Stmt) : Mirrors types types' (hoist body) (hoist body) := by
  intro s s' a t hs h
  cases h
  refine ⟨_, rfl, hs.current, hs.enclosing, ?_, fun x hx ↦ ?_⟩
  · rw [Names.owners_addGlobals, Names.owners_addGlobals, hs.owners]
  · have hknown := hs.known x
    simp only [Session.knows, Names.knowsGlobal_foldl, Bool.or_eq_true] at hx hknown ⊢
    tauto

/-! ## Names -/

/-- Variables are found in the open functions, whatever is known about globals. -/
theorem mirrors_place? (name : String) : Mirrors types types' (place? name) (place? name) := by
  intro s s' a t hs h
  cases hlocal : s.current.local? name with
  | some l =>
    cases (place?_of_local hlocal).symm.trans h
    rw [← hs.current] at hlocal
    exact ⟨s', place?_of_local hlocal, hs⟩
  | none =>
    cases hcapture : capture name s.current s.enclosing with
    | error e chain => cases (place?_of_capture_error hlocal hcapture).symm.trans h
    | ok v chain =>
      cases (place?_of_capture hlocal hcapture).symm.trans h
      rw [← hs.current] at hlocal
      rw [← hs.current, ← hs.enclosing] at hcapture
      exact ⟨_, place?_of_capture hlocal hcapture, { hs with current := rfl, enclosing := rfl }⟩

/-- The one step that asks whether a global is known. -/
theorem mirrors_lookup (name : String) :
    Mirrors types types' (lookup types name) (lookup types' name) := by
  apply mirrors_get
  intro s s' hs
  simp only [hs.owners]
  cases s.names.owners with
  | cons owner owners =>
    apply mirrors_bind (mirrors_onCurrent _)
    intro k
    apply mirrors_bind (mirrors_onCurrent _)
    intro key
    exact mirrors_pure _
  | nil =>
    apply mirrors_bind (mirrors_place? name)
    intro place
    cases place with
    | some place => exact mirrors_pure _
    | none =>
      cases namedConstant? name with
      | some k => exact mirrors_bind (mirrors_onCurrent _) fun k ↦ mirrors_pure _
      | none =>
        by_cases hknown : s.knows types name = true
        · have hknown' := hs.known name hknown
          rw [Session.knows] at hknown hknown'
          simp only [hknown, hknown', if_true]
          exact mirrors_onCurrent _
        · rw [Session.knows] at hknown
          simp only [hknown]
          exact mirrors_throw _ _

theorem mirrors_lookupThis : Mirrors types types' lookupThis lookupThis := by
  apply mirrors_bind (mirrors_place? "this")
  intro place
  cases place with
  | some place => exact mirrors_pure _
  | none =>
    apply mirrors_get
    intro s s' hs
    rw [hs.current]
    cases s.current.upvalueIndex? envName with
    | some env => exact mirrors_pure _
    | none => exact mirrors_throw _ _

theorem mirrors_findLocal (name : String) :
    Mirrors types types' (do return (← get).current.local? name)
      (do return (← get).current.local? name) := by
  apply mirrors_get
  intro s s' hs
  rw [hs.current]
  exact mirrors_pure _

theorem mirrors_nameTarget (name : String) :
    Mirrors types types' (nameTarget name) (nameTarget name) := by
  apply mirrors_get
  intro s s' hs
  have hconst : s'.isConst name = s.isConst name := by
    rw [Session.isConst, Session.isConst, Session.functions, Session.functions, hs.current,
      hs.enclosing]
  rw [hconst]
  split
  · exact mirrors_throw _ _
  · apply mirrors_bind (mirrors_place? name)
    intro place
    cases place with
    | some place => cases place <;> exact mirrors_pure _
    | none =>
      simp only
      split
      · exact mirrors_throw _ _
      · exact mirrors_bind (mirrors_addGlobal name) fun _ ↦ mirrors_onCurrent _

/-! ## Nested functions -/

theorem mirrors_inFunction {x y : Lower Unit} (h : Mirrors types types' x y) :
    Mirrors types types' (inFunction x) (inFunction y) := by
  intro s s' p t hs hrun
  have hentered : s.entered.Widens types types' s'.entered := by
    refine { hs with current := ?_, enclosing := ?_ }
    · simp only [Session.entered, hs.current]
    · simp only [Session.entered, Session.functions, hs.current, hs.enclosing]
  rw [inFunction] at hrun
  cases hx : x s.entered with
  | error e u =>
    rw [Session.entered] at hx
    rw [hx] at hrun
    cases henclosing : u.enclosing <;> simp [henclosing] at hrun
  | ok a u =>
    obtain ⟨u', hy, hu⟩ := h hentered hx
    rw [Session.entered] at hx hy
    rw [hx] at hrun
    cases henclosing : u.enclosing with
    | nil => simp [henclosing] at hrun
    | cons parent outer =>
      simp only [henclosing] at hrun
      cases hrun
      have henclosing' : u'.enclosing = parent :: outer := hu.enclosing.trans henclosing
      refine ⟨{ u' with current := parent.afterNested u'.current, enclosing := outer }, ?_, ?_⟩
      · rw [inFunction, hy]
        simp only [henclosing', hu.current]
      · exact { hu with current := by rw [hu.current], enclosing := rfl }

theorem mirrors_function {params : List String} {body : List Stmt}
    (h : Mirrors types types' (statements types body) (statements types' body)) :
    Mirrors types types' ((Task.function params body).lower types)
      ((Task.function params body).lower types') := by
  rw [function_eq, function_eq]
  apply mirrors_bind
  · apply mirrors_inFunction
    apply mirrors_bind
    · apply mirrors_bind (mirrors_onCurrent _)
      intro _
      apply mirrors_bind (mirrors_onCurrent _)
      intro _
      exact mirrors_hoist body
    · intro _
      exact h
  · intro p
    exact mirrors_onCurrent _

end Lower

/-! ## Plans -/

namespace Plan

/-- Two plans with the same parts in the same places, whose steps mirror each other. -/
inductive Mirrors (types types' : TypeOracle) {α : Type} : Plan α → Plan α → Prop where
  | done (a : α) : Mirrors types types' (done a) (done a)
  | fail (e : Failure) : Mirrors types types' (fail e) (fail e)
  | step {β : Type} {x y : Lower β} {hx : x.Still} {hy : y.Still} {rest rest' : β → Plan α}
    (h : Lower.Mirrors types types' x y) (hrest : ∀ b, Mirrors types types' (rest b) (rest' b)) :
    Mirrors types types' (step x hx rest) (step y hy rest')
  | bind (name : String) (isConst : Bool) (x : Build Nat) (gives : x.GivesRegister) (a : α) :
    Mirrors types types' (bind name isConst x gives a) (bind name isConst x gives a)
  | part {task : Task} {rest rest' : task.Result → Plan α}
    (hrest : ∀ b, Mirrors types types' (rest b) (rest' b)) :
    Mirrors types types' (part task rest) (part task rest')
  | enter {params : List String} {body : List Stmt} {rest rest' : Value → Plan α}
    (hrest : ∀ v, Mirrors types types' (rest v) (rest' v)) :
    Mirrors types types' (enter params body rest) (enter params body rest')

namespace Mirrors

theorem build {x : Build β} {neutral : x.Neutral} {rest rest' : β → Plan α}
    (hrest : ∀ b, Mirrors types types' (rest b) (rest' b)) :
    Mirrors types types' (build x neutral rest) (build x neutral rest') :=
  .step (Lower.mirrors_onCurrent x) hrest

theorem last {x y : Lower α} {hx : x.Still} {hy : y.Still} (h : Lower.Mirrors types types' x y) :
    Mirrors types types' (last x hx) (last y hy) :=
  .step h .done

theorem callWith {callee : Expr} {args : List Expr} {use : ResultUse} {rest rest' : Nat → Plan α}
    (hrest : ∀ base, Mirrors types types' (rest base) (rest' base)) :
    Mirrors types types' (callWith callee args use rest) (callWith callee args use rest') :=
  .part fun _ ↦ .build fun base ↦ .part fun _ ↦ .build fun _ ↦ hrest base

theorem assignment {left : Expr} {compound : Except Failure (Option (BinaryOp × Bool))}
    {right : (Value → Plan α) → Plan α} {rest rest' : Target → Value → Plan α}
    (hright : ∀ rest rest', (∀ v, Mirrors types types' (rest v) (rest' v)) →
      Mirrors types types' (right rest) (right rest'))
    (hrest : ∀ target v, Mirrors types types' (rest target v) (rest' target v)) :
    Mirrors types types' (assignment left compound right rest)
      (assignment left compound right rest') := by
  match compound with
  | .error e => exact .fail e
  | .ok none => exact .part fun target ↦ hright _ _ (hrest target)
  | .ok (some (op, isString)) =>
    simp only [Plan.assignment, Plan.assignedValue]
    exact .part fun target ↦ .build fun _ ↦ .build fun _ ↦ hright _ _ fun _ ↦ .build (hrest target)

theorem findLocal {name : String} {rest rest' : Option Local → Plan α}
    (hrest : ∀ found, Mirrors types types' (rest found) (rest' found)) :
    Mirrors types types' (findLocal name rest) (findLocal name rest') :=
  .step (Lower.mirrors_findLocal name) hrest

theorem store {name : String} {value : (Value → Plan Unit) → Plan Unit}
    (hvalue : ∀ rest rest', (∀ v, Mirrors types types' (rest v) (rest' v)) →
      Mirrors types types' (value rest) (value rest')) (found : Option Local) :
    Mirrors types types' (store name value found) (store name value found) := by
  cases found with
  | some l => exact hvalue _ _ fun v ↦ .build .done
  | none =>
    exact .step (Lower.mirrors_addGlobal name) fun _ ↦ .build fun _ ↦
      hvalue _ _ fun _ ↦ .build .done

/-- Mirrored plans have mirrored runs if their parts have. -/
theorem run {plan plan' : Plan α} (h : Mirrors types types' plan plan')
    (hparts : plan.AllParts
      (fun task ↦ Lower.Mirrors types types' (task.lower types) (task.lower types')) True) :
    Lower.Mirrors types types' (plan.run types) (plan'.run types') := by
  induction h with
  | done a => exact Lower.mirrors_pure a
  | fail e => exact Lower.mirrors_throw e _
  | step h hrest ih =>
    apply Lower.mirrors_bind h
    intro b
    exact ih b (hparts b)
  | bind name isConst x gives a =>
    apply Lower.mirrors_bind (Lower.mirrors_onCurrent _)
    intro _
    exact Lower.mirrors_pure a
  | part hrest ih =>
    apply Lower.mirrors_bind hparts.1
    intro b
    exact ih b (hparts.2 b)
  | enter hrest ih =>
    apply Lower.mirrors_bind (Lower.mirrors_function hparts.1)
    intro v
    exact ih v (hparts.2 v)

end Mirrors

end Plan

namespace Task

open Plan

theorem mirrors_plan_expr (hstrings : types'.isString = types.isString) (e : Expr) :
    Plan.Mirrors types types' ((expr e).plan types) ((expr e).plan types') := by
  cases e with
  | literal l =>
    rw [plan, plan]
    exact .build .done
  | identifier name => exact .last (Lower.mirrors_lookup name)
  | this => exact .last Lower.mirrors_lookupThis
  | object properties =>
    rw [plan, plan]
    exact .build fun _ ↦ .part fun _ ↦ .done _
  | array elements =>
    rw [plan, plan]
    split
    · exact .fail _
    · rcases elements with - | ⟨- | first, rest⟩
      · exact .build fun _ ↦ .done _
      · exact .build fun _ ↦ .part fun _ ↦ .done _
      · exact .build fun _ ↦ .part fun _ ↦ .part fun _ ↦ .build fun _ ↦ .done _
  | member object name =>
    refine .part fun _ ↦ .build fun owner ↦ .last ?_
    rw [withOwner_lookup, withOwner_lookup]
    exact Lower.mirrors_onCurrent _
  | index object key => exact .part fun _ ↦ .build fun _ ↦ .part fun _ ↦ .build fun _ ↦ .done _
  | unary op operand =>
    rw [plan, plan]
    split
    · exact .part fun _ ↦ .build .done
    · exact .fail _
  | binary op left right =>
    simp only [plan, hstrings]
    exact .part fun _ ↦ .build fun _ ↦ .part fun _ ↦ .build .done
  | call callee args => exact .callWith fun _ ↦ .done _
  | assign op left right =>
    rw [plan, plan, AssignOp.compound, AssignOp.compound, hstrings]
    exact .assignment (fun _ _ h ↦ .part h) fun _ _ ↦ .build .done
  | update op form operand => exact .assignment (fun _ _ h ↦ .build h) fun _ _ ↦ .build .done
  | function name params body => exact .part .done
  | arrow params body =>
    cases body with
    | expression value => exact .fail _
    | block body => exact .part .done
  | conditional | new | sequence => exact .fail _

theorem mirrors_plan_arguments (args : List Expr) :
    Plan.Mirrors types types' ((arguments args).plan types) ((arguments args).plan types') := by
  rcases args with - | ⟨arg, - | ⟨next, args⟩⟩
  · exact .done _
  · cases arg with
    | call callee args => exact .callWith fun _ ↦ .done _
    | _ => exact .part fun _ ↦ .build fun _ ↦ .part .done
  · simp only [plan]
    exact .part fun _ ↦ .build fun _ ↦ .part .done

theorem mirrors_plan_declarator (kind : DeclKind) (d : Declarator) :
    Plan.Mirrors types types' ((declarator kind d).plan types)
      ((declarator kind d).plan types') := by
  obtain ⟨name, - | init⟩ := d
  · refine .findLocal fun found ↦ ?_
    cases found with
    | some l =>
      simp only
      split
      · exact .build .done
      · exact .done _
    | none =>
      simp only
      split
      · exact .bind ..
      · exact .last (Lower.mirrors_addGlobal name)
  · refine .findLocal fun found ↦ ?_
    split
    · exact .part fun _ ↦ .bind ..
    · exact .store (fun _ _ h ↦ .part h) found

theorem mirrors_plan_statement (hstrings : types'.isString = types.isString) (s : Stmt) :
    Plan.Mirrors types types' ((statement s).plan types) ((statement s).plan types') := by
  cases s with
  | empty => exact .done _
  | declaration kind ds => exact .part .done
  | function name params body => exact .findLocal (.store fun _ _ h ↦ .part h)
  | expression e =>
    cases e with
    | call callee args => exact .callWith fun _ ↦ .done _
    | assign op left right =>
      rw [plan, plan, AssignOp.compound, AssignOp.compound, hstrings]
      exact .assignment (fun _ _ h ↦ .part h) fun _ _ ↦ .build .done
    | update op form operand => exact .assignment (fun _ _ h ↦ .build h) fun _ _ ↦ .build .done
    | _ => exact .part fun _ ↦ .build .done
  | ret value =>
    cases value with
    | some value => exact .part fun _ ↦ .build .done
    | none =>
      rw [plan, plan]
      exact .build .done
  | _ => exact .fail _

theorem mirrors_plan (hstrings : types'.isString = types.isString) (task : Task) :
    Plan.Mirrors types types' (task.plan types) (task.plan types') := by
  cases task with
  | expr e => exact mirrors_plan_expr hstrings e
  | arguments args => exact mirrors_plan_arguments args
  | propertyKey key =>
    cases key with
    | identifier name =>
      rw [plan, plan]
      exact .build fun _ ↦ .done _
    | literal l =>
      rw [plan, plan]
      split
      · exact .build fun _ ↦ .done _
      · exact .fail _
    | computed key => exact .part .done
  | objectProperties table properties =>
    rcases properties with - | ⟨⟨key, value⟩, properties⟩
    · exact .done _
    · exact .part fun _ ↦ .build fun _ ↦ .part fun _ ↦ .build fun _ ↦ .build fun _ ↦ .part .done
  | arrayItem element =>
    cases element with
    | some e => exact .part fun _ ↦ .build .done
    | none =>
      rw [plan, plan]
      exact .build .done
  | arrayItems table pending batch elements =>
    cases elements with
    | nil =>
      rw [plan, plan]
      split
      · exact .build .done
      · exact .done _
    | cons element elements =>
      refine .part fun _ ↦ ?_
      split
      · exact .build fun _ ↦ .part .done
      · exact .part .done
  | target e =>
    cases e with
    | identifier name => exact .last (Lower.mirrors_nameTarget name)
    | member object name =>
      exact .part fun _ ↦ .build fun _ ↦ .build fun _ ↦ .build fun _ ↦ .done _
    | index object key => exact .part fun _ ↦ .build fun _ ↦ .part fun _ ↦ .build fun _ ↦ .done _
    | _ => exact .fail _
  | declarator kind d => exact mirrors_plan_declarator kind d
  | declarators kind ds =>
    cases ds with
    | nil => exact .done _
    | cons d ds => exact .part fun _ ↦ .part .done
  | function params body => exact .enter .done
  | statement s => exact mirrors_plan_statement hstrings s
  | statements body =>
    cases body with
    | nil => exact .done _
    | cons s rest => exact .part fun _ ↦ .build fun _ ↦ .part .done

/-- Every part of a program is lowered in the same way by a run that knows more globals. -/
theorem mirrors (hstrings : types'.isString = types.isString) (task : Task) :
    Lower.Mirrors types types' (task.lower types) (task.lower types') := by
  induction task using induction_on_parts types with
  | h task hparts =>
    rw [← run_plan, ← run_plan]
    apply (mirrors_plan hstrings task).run
    exact hparts.mono (fun _ h ↦ h.2) fun _ ↦ trivial

end Task

/-! ## Blocks -/

theorem Lower.mirrors_block (hstrings : types'.isString = types.isString) (body : List Stmt) :
    Mirrors types types' (block types body) (block types' body) :=
  mirrors_bind (mirrors_hoist body) fun _ ↦ Task.mirrors hstrings (.statements body)

theorem compileBody_mirrors (hstrings : types'.isString = types.isString)
    (hambient : ∀ name, types.isAmbient name = true → types'.isAmbient name = true)
    {options : Options} {body : List Stmt} {p : Prototype}
    (h : compileBody types options body = .ok p) : compileBody types' options body = .ok p := by
  have hmain : (Session.main options.source).Widens types types' (.main options.source) :=
    ⟨rfl, rfl, rfl, hambient⟩
  rw [compileBody] at h ⊢
  cases hrun : Lower.block types body (.main options.source) with
  | error e t =>
    rw [hrun] at h
    cases h
  | ok a t =>
    obtain ⟨t', hrun', ht⟩ := Lower.mirrors_block hstrings body hmain hrun
    rw [hrun] at h
    rw [hrun']
    exact ht.close_eq.trans h

/-- Names that are hoisted before the first of two blocks are known when the second one starts. -/
theorem Session.Widens.hoisted_second {first second : List Stmt} (ht : t.Widens types types s')
    (hrun : Lower.statements types first (s.hoisted (first ++ second)) = .ok () s') :
    (t.hoisted second).Widens types types s' := by
  refine ⟨ht.current, ht.enclosing, ?_, fun x hx ↦ ?_⟩
  · rw [hoisted, Names.owners_addGlobals, ht.owners]
  · simp only [knows, hoisted, Names.knowsGlobal_foldl, Bool.or_eq_true, or_assoc] at hx
    obtain hx | hx := hx
    · have hhoisted : (s.hoisted (first ++ second)).names.knowsGlobal x = true := by
        rw [hoisted, Names.knowsGlobal_foldl, List.flatMap_append, List.contains_append, hx,
          Bool.or_true, Bool.true_or]
      have hfollows := (Task.steady types (.statements first) _).result hrun
      rw [knows, hfollows.globals x hhoisted, Bool.true_or]
    · apply ht.known x
      rwa [knows, Bool.or_eq_true]

theorem Lower.block_append {first second : List Stmt} (hfirst : block types first s = .ok () t)
    (hsecond : block types second t = .ok () u) :
    ∃ u', block types (first ++ second) s = .ok () u' ∧ u.Widens types types u' := by
  have hs : (s.hoisted first).Widens types types (s.hoisted (first ++ second)) := by
    refine ⟨rfl, rfl, ?_, fun x hx ↦ ?_⟩
    · rw [Session.hoisted, Session.hoisted, Names.owners_addGlobals, Names.owners_addGlobals]
    · simp only [Session.knows, Session.hoisted, Names.knowsGlobal_foldl, List.flatMap_append,
        List.contains_append, Bool.or_eq_true] at hx ⊢
      tauto
  obtain ⟨t', hfirst', ht⟩ := Task.mirrors rfl (.statements first) hs hfirst
  obtain ⟨u', hsecond', hu⟩ :=
    Task.mirrors rfl (.statements second) (ht.hoisted_second hfirst') hsecond
  exact ⟨u', Task.lower_statements_append hfirst' hsecond', hu⟩

/-- A block that is lowered is lowered to the same prototype where more globals are known, supplied
or declared. In particular two blocks in succession can be lowered as one. -/
theorem known_globals_keep_output (types types' : TypeOracle)
    (hstrings : types'.isString = types.isString) :
    (∀ (body : List Stmt) (s s' t : Session), s.Widens types types' s' →
      Lower.block types body s = .ok () t →
      ∃ t', Lower.block types' body s' = .ok () t' ∧ t.Widens types types' t' ∧
        t'.close = t.close) ∧
    (∀ (options : Options) (body : List Stmt) (p : Prototype),
      (∀ name, types.isAmbient name = true → types'.isAmbient name = true) →
      compileBody types options body = .ok p → compileBody types' options body = .ok p) ∧
    ∀ (first second : List Stmt) (s t u : Session), Lower.block types first s = .ok () t →
      Lower.block types second t = .ok () u →
      ∃ u', Lower.block types (first ++ second) s = .ok () u' ∧ u.Widens types types u' ∧
        u'.close = u.close := by
  refine ⟨?_, ?_, ?_⟩
  · intro body s s' t hs hrun
    obtain ⟨t', hrun', ht⟩ := Lower.mirrors_block hstrings body hs hrun
    exact ⟨t', hrun', ht, ht.close_eq⟩
  · intro options body p hambient hp
    exact compileBody_mirrors hstrings hambient hp
  · intro first second s t u hfirst hsecond
    obtain ⟨u', hrun, hu⟩ := Lower.block_append hfirst hsecond
    exact ⟨u', hrun, hu, hu.close_eq⟩

/-- `var n = 1; function f() { return n; }` -/
def countedBlock : List Stmt :=
  [.declaration .var [⟨"n", some (.literal (.number .one))⟩],
   .function "f" [] [.ret (some (.identifier "n"))]]

/-- `total = f() + n; function g() { return f(total); }` -/
def totalBlock : List Stmt :=
  [.expression (.assign .plain (.identifier "total")
    (.binary .add (.call (.identifier "f") []) (.identifier "n"))),
   .function "g" [] [.ret (some (.call (.identifier "f") [.identifier "total"]))]]

/-- An oracle that knows one global of the environment. -/
def printOracle : TypeOracle := { SyntaxOracle.oracle {} with isAmbient := (· == "print") }

/-- The second block uses globals of the first and is not accepted without it. Both are lowered as
one, and the first also where a name that it does not use is supplied. -/
theorem known_globals_keep_output_twoBlocks :
    (∃ t u, Lower.block (SyntaxOracle.oracle {}) countedBlock (.main none) = .ok () t ∧
      Lower.block (SyntaxOracle.oracle {}) totalBlock t = .ok () u ∧
      (∃ t', Lower.block printOracle countedBlock (.main none) = .ok () t' ∧
        t'.close = t.close) ∧
      ∃ u', Lower.block (SyntaxOracle.oracle {}) (countedBlock ++ totalBlock) (.main none) =
        .ok () u' ∧ u'.close = u.close) ∧
    (compileBody (SyntaxOracle.oracle {}) {} totalBlock).isOk = false := by
  have hok : ((lowerBlocks (SyntaxOracle.oracle {}) [countedBlock, totalBlock] (.main none)).1.all
      Except.isOk) = true := by decide +kernel
  refine ⟨?_, by decide +kernel⟩
  cases hfirst : Lower.block (SyntaxOracle.oracle {}) countedBlock (.main none) with
  | error e t => simp [lowerBlocks, hfirst, Except.isOk, Except.toBool] at hok
  | ok a t =>
    cases hsecond : Lower.block (SyntaxOracle.oracle {}) totalBlock t with
    | error e u => simp [lowerBlocks, hfirst, hsecond, Except.isOk, Except.toBool] at hok
    | ok b u =>
      have hmain : (Session.main none).Widens (SyntaxOracle.oracle {}) printOracle (.main none) :=
        ⟨rfl, rfl, rfl, fun name h ↦ by cases h⟩
      obtain ⟨hwider, -, -⟩ := known_globals_keep_output (SyntaxOracle.oracle {}) printOracle rfl
      obtain ⟨-, -, happend⟩ := known_globals_keep_output (SyntaxOracle.oracle {}) _ rfl
      obtain ⟨t', ht', -, hclose⟩ := hwider _ _ _ t hmain hfirst
      obtain ⟨u', hu', -, hclose'⟩ := happend _ _ _ t u hfirst hsecond
      exact ⟨t, u, rfl, hsecond, ⟨t', ht', hclose⟩, u', hu', hclose'⟩

end LuaLower
