import LuaLower.Proofs.Lowering.Accretion

/-!
# Every part of a program only adds

What accretion is for the steps on one function carries over to sessions, and along plans to all
parts of a program. The functions around the innermost one gain upvalues at most, so nothing has to
be said about their code. A nested function starts empty and is packed when it is complete.
-/

namespace LuaLower

open OpenFunction Build

variable {sizes : Nat → Prop} {b : Nat} {α β : Type} {s t : Session}

/-! ## Object literals -/

mutual

/-- The numbers of properties of the object literals in an expression. What cannot be compiled has
none. -/
def Expr.objectSizes : Expr → List Nat
  | .object properties => properties.length :: propertiesObjectSizes properties
  | .array elements => itemsObjectSizes elements
  | .member object _ => object.objectSizes
  | .index object key => object.objectSizes ++ key.objectSizes
  | .unary _ operand => operand.objectSizes
  | .binary _ left right => left.objectSizes ++ right.objectSizes
  | .call callee args => callee.objectSizes ++ argumentsObjectSizes args
  | .assign _ target value => target.objectSizes ++ value.objectSizes
  | .update _ _ target => target.objectSizes
  | .function _ _ body => statementsObjectSizes body
  | .arrow _ (.block body) => statementsObjectSizes body
  | _ => []

def argumentsObjectSizes : List Expr → List Nat
  | [] => []
  | arg :: args => arg.objectSizes ++ argumentsObjectSizes args

def PropertyKey.objectSizes : PropertyKey → List Nat
  | .computed key => key.objectSizes
  | _ => []

def propertiesObjectSizes : List Property → List Nat
  | [] => []
  | ⟨key, value⟩ :: properties =>
    key.objectSizes ++ value.objectSizes ++ propertiesObjectSizes properties

def itemObjectSizes : Option Expr → List Nat
  | some e => e.objectSizes
  | none => []

def itemsObjectSizes : List (Option Expr) → List Nat
  | [] => []
  | item :: items => itemObjectSizes item ++ itemsObjectSizes items

def declaratorsObjectSizes : List Declarator → List Nat
  | [] => []
  | ⟨_, init⟩ :: rest => itemObjectSizes init ++ declaratorsObjectSizes rest

def Stmt.objectSizes : Stmt → List Nat
  | .declaration _ declarators => declaratorsObjectSizes declarators
  | .function _ _ body => statementsObjectSizes body
  | .expression e => e.objectSizes
  | .ret value => itemObjectSizes value
  | _ => []

def statementsObjectSizes : List Stmt → List Nat
  | [] => []
  | s :: rest => s.objectSizes ++ statementsObjectSizes rest

end

namespace Task

def objectSizes : Task → List Nat
  | expr e | target e => e.objectSizes
  | arguments args => argumentsObjectSizes args
  | propertyKey key => key.objectSizes
  | objectProperties _ properties => propertiesObjectSizes properties
  | arrayItem element => itemObjectSizes element
  | arrayItems _ _ _ elements => itemsObjectSizes elements
  | declarator _ d => itemObjectSizes d.init
  | declarators _ ds => declaratorsObjectSizes ds
  | function _ body | statements body => statementsObjectSizes body
  | statement s => s.objectSizes

/-- The table that is filled can be named, and so can the groups of list items still to come. -/
def Reachable : Task → Prop
  | objectProperties table _ => table < 2 ^ 8
  | arrayItems table pending batch elements =>
    table < 2 ^ 8 ∧ batch + pending + elements.length < 2 ^ 9
  | _ => True

structure Admissible (sizes : Nat → Prop) (task : Task) : Prop where
  sizes : ∀ n ∈ task.objectSizes, sizes n
  reachable : task.Reachable

theorem Admissible.part {task part : Task} (h : task.Admissible sizes)
    (hsub : part.objectSizes ⊆ task.objectSizes) (hpart : part.Reachable) :
    part.Admissible sizes :=
  ⟨fun n hn ↦ h.sizes n (hsub hn), hpart⟩

/-- The result can be named. -/
def Answers : (task : Task) → task.Result → Prop
  | expr _, v | propertyKey _, v | function .., v => Value.Nameable v
  | target _, t => Target.Nameable t
  | _, _ => True

end Task

/-! ## Steps of a session -/

/-- The upvalues are right, and no field access is under way. -/
structure Session.Regular (s : Session) : Prop where
  linked : Linked s.functions
  owners : s.names.owners = []

theorem Session.Follows.regular (h : s.Follows t) (hs : s.Regular) : t.Regular :=
  ⟨h.linked hs.linked, h.owners.trans hs.owners⟩

theorem Session.Regular.upvalues_le (hs : s.Regular) :
    s.current.proto.upvalues.length ≤ upvalueLimit :=
  hs.linked.1.length_le

theorem Session.Regular.register_lt (hs : s.Regular) {name : String} {l : Local}
    (h : s.current.local? name = some l) : l.register < 2 ^ 8 :=
  lt_of_lt_limit (hs.linked.1.register_lt l (List.mem_of_find?_eq_some h))

theorem Session.Regular.upvalueIndex?_lt (hs : s.Regular) {name : String} {u : Nat}
    (h : s.current.upvalueIndex? name = some u) : u < 2 ^ 8 := by
  have hindex := OpenFunction.upvalueIndex?_lt h
  have hlength := hs.upvalues_le
  rw [upvalueLimit] at hlength
  omega

theorem OpenFunction.Accretes.of_gained {f g : OpenFunction} (hfg : f.Gained g) :
    f.Accretes sizes b g := by
  obtain ⟨us, rfl⟩ := hfg
  exact of_eq (.of_registers rfl id id) rfl rfl rfl rfl rfl

namespace Lower

variable {P : α → Prop} {Q : β → Prop} {x : Lower α} {k : α → Lower β}

/-- Whatever the outcome, the innermost function is the one from before with more code that can be
packed. The result has a property. -/
def Accretes (sizes : Nat → Prop) (b : Nat) (P : α → Prop) (step : Lower α) : Prop :=
  ∀ s : Session, s.Regular → b ≤ s.current.proto.code.size →
    Yields step s (fun a t ↦ s.current.Accretes sizes b t.current ∧ P a)
      (fun _ t ↦ s.current.Accretes sizes b t.current)

abbrev Accretive (sizes : Nat → Prop) (b : Nat) (step : Lower α) : Prop :=
  Accretes sizes b (fun _ ↦ True) step

namespace Accretes

theorem pure {a : α} (h : P a) : Accretes sizes b P (pure a) :=
  fun s _ _ ↦ yields_pure ⟨.refl s.current, h⟩

theorem throw {e : Failure} : Accretes sizes b P (throw e : Lower α) :=
  fun s _ _ ↦ yields_throw (.refl s.current)

/-- The first step leaves a regular session behind if it is steady. -/
theorem bind (hsteady : x.Steady) (hx : Accretes sizes b P x)
    (hk : ∀ a, P a → Accretes sizes b Q (k a)) : Accretes sizes b Q (x >>= k) := by
  intro s hs hb
  have hfollows := hsteady s
  cases hrun : x s with
  | error e t =>
    exact .of_error (bind_of_error hrun) ((hx s hs hb).failure hrun)
  | ok a t =>
    obtain ⟨hst, ha⟩ := (hx s hs hb).result hrun
    have ht := (hfollows.result hrun).regular hs
    have hrest := hk a ha t ht (hb.trans hst.size_le)
    apply (hrest.mono ?_ ?_).of_eq (bind_of_ok hrun)
    · rintro c u ⟨htu, hc⟩
      exact ⟨hst.trans htu, hc⟩
    · intro e u htu
      exact hst.trans htu

theorem onCurrent {step : Build α} (h : Build.Accretes sizes b P step) :
    Accretes sizes b P (onCurrent step) := by
  intro s hs hb
  apply (yields_onCurrent (h s.current hb hs.upvalues_le)).mono
  · rintro a t ⟨⟨hst, -, ha⟩, -⟩
    exact ⟨hst, ha⟩
  · rintro e t ⟨hst, -⟩
    exact hst

theorem get {k : Session → Lower β} (hk : ∀ s : Session, s.Regular → Accretes sizes b Q (k s)) :
    Accretes sizes b Q (get >>= k) :=
  fun s hs hb ↦ hk s hs s hs hb

end Accretes

/-! ## Names -/

theorem accretive_names (φ : Session → Session) (h : ∀ s : Session, (φ s).current = s.current) :
    Accretive sizes b (modify φ : Lower Unit) := by
  intro s _ _
  refine .of_ok (a := ()) (t := φ s) rfl ⟨?_, trivial⟩
  rw [h s]
  exact .refl s.current

theorem accretes_place? (name : String) :
    Accretes sizes b (fun place ↦ ∀ p ∈ place, p.Nameable) (place? name) := by
  intro s hs hb
  cases hlocal : s.current.local? name with
  | some l =>
    refine .of_ok (place?_of_local hlocal) ⟨.refl _, ?_⟩
    rintro _ ⟨⟩
    exact hs.register_lt hlocal
  | none =>
    have hcapture := yields_capture name s.current s.enclosing
    cases hrun : capture name s.current s.enclosing with
    | error e chain =>
      have hchain := hcapture.failure hrun
      exact .of_error (place?_of_capture_error hlocal hrun) (.of_gained hchain.innermost)
    | ok u chain =>
      obtain ⟨hchain, -, hnamed⟩ := hcapture.result hrun
      have hplace := place?_of_capture hlocal hrun
      refine .of_ok hplace ⟨.of_gained hchain.innermost, ?_⟩
      have hlength : chain.1.proto.upvalues.length ≤ upvalueLimit :=
        (((still_place? name s).result hplace).regular hs).upvalues_le
      rintro _ hp
      obtain ⟨i, rfl, rfl⟩ := Option.map_eq_some_iff.mp hp
      exact ((hnamed i rfl).lt.trans_le hlength).trans (by decide)

theorem accretes_field (owner : Place) (name : String) (howner : owner.Nameable) :
    Accretes sizes b Value.Nameable (onCurrent (do
      let key ← toKey (.constant (← stringIndex name))
      return .member owner.toValue key)) := by
  apply Accretes.onCurrent
  rw [← bind_assoc]
  apply (accretes_constantKey (.string name)).bind
  intro key hkey
  exact .pure ⟨howner.toValue, hkey⟩

theorem accretes_lookup (types : TypeOracle) (name : String) :
    Accretes sizes b Value.Nameable (lookup types name) := by
  apply Accretes.get
  intro s hs
  simp only [hs.owners]
  apply Accretes.bind (still_place? name).steady (accretes_place? name)
  intro place hplace
  cases place with
  | some place => exact .pure (hplace place rfl).toValue
  | none =>
    simp only
    split
    case h_1 k hk => exact .onCurrent (accretes_constant k)
    case h_2 =>
      split
      · exact .onCurrent (accretes_globalValue name)
      · exact .throw

theorem accretes_lookupThis : Accretes sizes b Value.Nameable lookupThis := by
  apply Accretes.bind (still_place? "this").steady (accretes_place? "this")
  intro place hplace
  cases place with
  | some place => exact .pure (hplace place rfl).toValue
  | none =>
    apply Accretes.get
    intro s hs
    split
    case h_1 env henv => exact .pure (hs.upvalueIndex?_lt henv)
    case h_2 => exact .throw

theorem accretes_nameTarget (name : String) :
    Accretes sizes b Target.Nameable (nameTarget name) := by
  apply Accretes.get
  intro s hs
  split
  · exact .throw
  · apply Accretes.bind (still_place? name).steady (accretes_place? name)
    intro place hplace
    match place with
    | some (.register r) => exact .pure (hplace _ rfl)
    | some (.upvalue u) => exact .pure (hplace _ rfl)
    | none =>
      simp only
      split
      · exact .throw
      · apply Accretes.bind (still_addGlobal name).steady (accretive_names _ fun _ ↦ rfl)
        intro _ _
        exact .onCurrent (accretes_globalTarget name)

theorem accretes_findLocal (name : String) :
    Accretes sizes b (fun found ↦ ∀ l ∈ found, l.register < 2 ^ 8)
      (do return (← get).current.local? name) := by
  apply Accretes.get
  intro s hs
  apply Accretes.pure
  intro l hl
  exact hs.register_lt hl

/-! ## Nested functions -/

/-- A function that was opened is complete when it is closed, and the one around it has the code
that it had before. -/
theorem accretes_inFunction {step : Lower Unit} (hsteady : step.Steady)
    (h : Accretive sizes 0 step) : Accretes sizes b (Prototype.Packed sizes) (inFunction step) := by
  intro s hs _
  have hentered : s.entered.Regular :=
    ⟨ChainStep.linked (.enter s.current s.enclosing) hs.linked, hs.owners⟩
  have hpacked : s.entered.current.Packed sizes :=
    ⟨fun i hi ↦ (Array.not_mem_empty i hi).elim, .refl _, rfl, List.forall_mem_nil _⟩
  have hback {t : Session} (ht : s.entered.Follows t) : ∃ parent outer,
      t.enclosing = parent :: outer ∧
        s.current.Accretes sizes b (parent.afterNested t.current) := by
    obtain ⟨parent, outer, hgained, -, houter⟩ := List.forall₂_cons_left_iff.mp ht.enclosing
    refine ⟨parent, outer, houter, (OpenFunction.Accretes.of_gained hgained).trans ?_⟩
    exact .of_callFree (.of_note rfl rfl) rfl
  have hrun := h s.entered hentered (Nat.zero_le _)
  cases hstep : step s.entered with
  | ok a t =>
    obtain ⟨parent, outer, houter, haccretes⟩ := hback ((hsteady s.entered).result hstep)
    obtain ⟨hgrown, -⟩ := hrun.result hstep
    refine .of_ok (a := t.current.close)
      (t := { t with current := parent.afterNested t.current, enclosing := outer }) ?_
      ⟨haccretes, (hgrown.packed hpacked).close⟩
    rw [Session.entered] at hstep
    simp [inFunction, hstep, houter]
  | error e t =>
    obtain ⟨parent, outer, houter, haccretes⟩ := hback ((hsteady s.entered).failure hstep)
    refine .of_error (e := e)
      (t := { t with current := parent.afterNested t.current, enclosing := outer }) ?_ haccretes
    rw [Session.entered] at hstep
    simp [inFunction, hstep, houter]

theorem accretive_openBody (params : List String) (body : List Stmt) :
    Accretive sizes b (openBody params body) := by
  apply Accretes.bind (steady_bindParams params) (.onCurrent (accretive_bindParams params))
  intro _ _
  have hcount : Still (onCurrent (setParamCount params.length)) :=
    still_build (neutral_modify fun _ ↦ ⟨rfl, rfl, rfl⟩)
  apply Accretes.bind hcount.steady (.onCurrent (accretive_setParamCount _))
  intro _ _
  exact accretive_names _ fun _ ↦ rfl

theorem accretes_closedBody {types : TypeOracle} (params : List String) {body : List Stmt}
    (h : Accretive sizes 0 (statements types body)) :
    Accretes sizes b (Prototype.Packed sizes)
      (inFunction do openBody params body; statements types body) := by
  apply accretes_inFunction (steady_nestedBody types params body)
  exact Accretes.bind (steady_openBody params body) (accretive_openBody params body) fun _ _ ↦ h

theorem accretes_function {types : TypeOracle} (params : List String) {body : List Stmt}
    (h : Accretive sizes 0 (statements types body)) :
    Accretes sizes b Value.Nameable ((Task.function params body).lower types) := by
  rw [function_eq]
  apply Accretes.bind (still_inFunction (steady_nestedBody types params body)).steady
    (accretes_closedBody params h)
  intro p hp
  exact .onCurrent (accretes_closure hp)

end Lower

/-! ## Plans -/

namespace Plan

/-- A plan in which each step finds what it needs, given what is known of the results before. -/
inductive Accretes (sizes : Nat → Prop) (b : Nat) {α : Type} (P : α → Prop) : Plan α → Prop where
  | done {a : α} (h : P a) : Accretes sizes b P (done a)
  | fail (e : Failure) : Accretes sizes b P (fail e)
  | step {β : Type} {Q : β → Prop} {x : Lower β} {still : x.Still} {rest : β → Plan α}
    (h : Lower.Accretes sizes b Q x) (hrest : ∀ c, Q c → Accretes sizes b P (rest c)) :
    Accretes sizes b P (step x still rest)
  | bind {name : String} {isConst : Bool} {x : Build Nat} {gives : x.GivesRegister} {a : α}
    {Q : Nat → Prop} (h : Build.Accretes sizes b Q x) (ha : P a) :
    Accretes sizes b P (bind name isConst x gives a)
  | part {task : Task} {rest : task.Result → Plan α} (h : task.Admissible sizes)
    (hrest : ∀ c, task.Answers c → Accretes sizes b P (rest c)) :
    Accretes sizes b P (part task rest)
  | enter {params : List String} {body : List Stmt} {rest : Value → Plan α}
    (h : (Task.statements body).Admissible sizes)
    (hrest : ∀ v : Value, v.Nameable → Accretes sizes b P (rest v)) :
    Accretes sizes b P (enter params body rest)

namespace Accretes

variable {P : α → Prop} {Q : β → Prop}

theorem build {x : Build β} {neutral : x.Neutral} {rest : β → Plan α}
    (h : Build.Accretes sizes b Q x) (hrest : ∀ c, Q c → Accretes sizes b P (rest c)) :
    Accretes sizes b P (build x neutral rest) :=
  .step (.onCurrent h) hrest

/-- A step on the innermost function that is the last one. -/
theorem finish {x : Build α} {neutral : x.Neutral} (h : Build.Accretes sizes b P x) :
    Accretes sizes b P (Plan.build x neutral Plan.done) :=
  .build h fun _ hc ↦ .done hc

theorem last {x : Lower α} {still : x.Still} (h : Lower.Accretes sizes b P x) :
    Accretes sizes b P (last x still) :=
  .step h fun _ hc ↦ .done hc

theorem callWith {callee : Expr} {args : List Expr} {use : ResultUse} {rest : Nat → Plan α}
    (hcallee : (Task.expr callee).Admissible sizes) (hargs : (Task.arguments args).Admissible sizes)
    (hrest : ∀ base < 2 ^ 8, Accretes sizes b P (rest base)) :
    Accretes sizes b P (callWith callee args use rest) := by
  refine .part hcallee fun v hv ↦ .build (accretes_inNewRegister hv) fun base hbase ↦ ?_
  refine .part hargs fun isOpen _ ↦ ?_
  have hbase := lt_of_lt_limit hbase
  exact .build (accretive_call args.length isOpen use hbase) fun _ _ ↦ hrest base hbase

theorem assignment {left : Expr} {compound : Except Failure (Option (BinaryOp × Bool))}
    {right : (Value → Plan α) → Plan α} {rest : Target → Value → Plan α}
    (hleft : (Task.target left).Admissible sizes)
    (hright : ∀ rest : Value → Plan α, (∀ v, v.Nameable → Accretes sizes b P (rest v)) →
      Accretes sizes b P (right rest))
    (hrest : ∀ target v, target.Nameable → v.Nameable → Accretes sizes b P (rest target v)) :
    Accretes sizes b P (assignment left compound right rest) := by
  match compound with
  | .error e => exact .fail e
  | .ok none =>
    simp only [Plan.assignment, Plan.assignedValue]
    exact .part hleft fun target ht ↦ hright _ fun v hv ↦ hrest target v ht hv
  | .ok (some (op, isString)) =>
    simp only [Plan.assignment, Plan.assignedValue]
    refine .part hleft fun target ht ↦ .build (accretes_read ht) fun v hv ↦ ?_
    refine .build (accretes_beginBinary op isString hv) fun pending hpending ↦ ?_
    refine hright _ fun w hw ↦ .build (accretes_finishBinary hpending hw) fun v hv ↦ ?_
    exact hrest target v ht hv

theorem findLocal {name : String} {rest : Option Local → Plan α}
    (hrest : ∀ found : Option Local, (∀ l ∈ found, l.register < 2 ^ 8) →
      Accretes sizes b P (rest found)) :
    Accretes sizes b P (findLocal name rest) :=
  .step (Lower.accretes_findLocal name) hrest

theorem store {P : Unit → Prop} {name : String} {value : (Value → Plan Unit) → Plan Unit}
    {found : Option Local} (hP : P ())
    (hvalue : ∀ rest : Value → Plan Unit, (∀ v, v.Nameable → Accretes sizes b P (rest v)) →
      Accretes sizes b P (value rest))
    (hfound : ∀ l ∈ found, l.register < 2 ^ 8) :
    Accretes sizes b P (store name value found) := by
  cases found with
  | some l =>
    exact hvalue _ fun v hv ↦ .build (accretive_setLocal (hfound l rfl) hv) fun _ _ ↦ .done hP
  | none =>
    refine .step (Lower.accretive_names _ fun _ ↦ rfl) fun _ _ ↦ ?_
    refine .build (accretes_globalTarget name) fun target ht ↦ hvalue _ fun v hv ↦ ?_
    exact .build (accretive_assign ht hv) fun _ _ ↦ .done hP

/-- A plan adds no more than its steps and its parts. -/
theorem run {types : TypeOracle} {plan : Plan α} (h : Accretes sizes b P plan)
    (hparts : plan.AllParts (fun task ↦ ∀ b, task.Admissible sizes →
      Lower.Accretes sizes b task.Answers (task.lower types)) True) :
    Lower.Accretes sizes b P (plan.run types) := by
  induction h with
  | done h => exact .pure h
  | fail e => exact .throw
  | @step _ _ _ still _ h _ ih =>
    apply Lower.Accretes.bind still.steady h
    intro c hc
    exact ih c hc (hparts c)
  | @bind name isConst _ gives _ _ h ha =>
    apply Lower.Accretes.bind (Lower.steady_bindNew name isConst gives)
    · exact .onCurrent (h.bind fun r _ ↦ accretive_bindLocal name r isConst)
    · intro _ _
      exact .pure ha
  | @part task _ h _ ih =>
    apply Lower.Accretes.bind (task.steady types) (hparts.1 b h)
    intro c hc
    exact ih c hc (hparts.2 c)
  | @enter params body _ h _ ih =>
    apply Lower.Accretes.bind (Lower.still_function types params body).steady
    · exact Lower.accretes_function params (hparts.1 0 h)
    · intro v hv
      exact ih v hv (hparts.2 v)

end Accretes

end Plan

namespace Task

open Plan

theorem accretes_plan_expr (types : TypeOracle) {e : Expr} (h : (expr e).Admissible sizes) :
    ((expr e).plan types).Accretes sizes b (expr e).Answers := by
  cases e with
  | literal l =>
    rw [plan]
    exact .finish (accretes_literal l)
  | identifier name => exact .last (Lower.accretes_lookup types name)
  | this => exact .last Lower.accretes_lookupThis
  | object properties =>
    have hsize : sizes properties.length := h.sizes _ List.mem_cons_self
    rw [plan]
    refine .build (accretes_newTable (Nat.zero_le _) (.inr hsize)) fun table htable ↦ ?_
    exact .part (h.part (List.subset_cons_self _ _) htable) fun _ _ ↦ .done htable
  | array elements =>
    rw [plan]
    split
    · exact .fail _
    case isFalse hlength =>
      rw [maxArrayLength] at hlength
      refine .build (accretes_newTable (by omega) (.inl (by omega))) fun table htable ↦ ?_
      rcases elements with - | ⟨first, rest⟩
      · exact .done htable
      · rw [List.length_cons] at hlength
        have hrest : (arrayItems table 0 1 rest).Admissible sizes :=
          h.part (List.subset_append_right _ _) ⟨htable, by omega⟩
        cases first with
        | none => exact .part hrest fun _ _ ↦ .done htable
        | some first =>
          have hfirst : (expr first).Admissible sizes :=
            h.part (List.subset_append_left _ _) trivial
          refine .part hrest fun _ _ ↦ .part hfirst fun v hv ↦ ?_
          exact .build (accretive_setFirst htable hv) fun _ _ ↦ .done htable
  | member object name =>
    refine .part (h.part (List.Subset.refl _) trivial) fun v hv ↦ ?_
    refine .build (accretes_toTable hv) fun owner howner ↦ .last ?_
    rw [withOwner_lookup]
    exact Lower.accretes_field owner name howner
  | index object key =>
    refine .part (h.part (List.subset_append_left _ _) trivial) fun v hv ↦ ?_
    refine .build (accretes_toTable hv) fun owner howner ↦ ?_
    refine .part (h.part (List.subset_append_right _ _) trivial) fun w hw ↦ ?_
    exact .build (accretes_toKey hw) fun key hkey ↦ .done ⟨howner.toValue, hkey⟩
  | unary op operand =>
    rw [plan]
    split
    case h_1 opcode hopcode =>
      refine .part (h.part (List.Subset.refl _) trivial) fun v hv ↦ ?_
      exact .finish (accretes_unary (UnaryOp.opcode?_family hopcode) hv)
    case h_2 => exact .fail _
  | binary op left right =>
    refine .part (h.part (List.subset_append_left _ _) trivial) fun v hv ↦ ?_
    refine .build (accretes_beginBinary op _ hv) fun pending hpending ↦ ?_
    refine .part (h.part (List.subset_append_right _ _) trivial) fun w hw ↦ ?_
    exact .finish (accretes_finishBinary hpending hw)
  | call callee args =>
    exact .callWith (h.part (List.subset_append_left _ _) trivial)
      (h.part (List.subset_append_right _ _) trivial) fun _ hbase ↦ .done hbase
  | assign op left right =>
    refine .assignment (h.part (List.subset_append_left _ _) trivial) (fun rest hrest ↦ ?_)
      fun target v ht hv ↦ .finish (accretes_assignValue ht hv)
    exact .part (h.part (List.subset_append_right _ _) trivial) hrest
  | update op form operand =>
    exact .assignment (h.part (List.Subset.refl _) trivial)
      (fun rest hrest ↦ .build (accretes_literal _) hrest)
      fun target v ht hv ↦ .finish (accretes_assignValue ht hv)
  | function name params body =>
    exact .part (h.part (List.Subset.refl _) trivial) fun v hv ↦ .done hv
  | arrow params body =>
    cases body with
    | expression value => exact .fail _
    | block body => exact .part (h.part (List.Subset.refl _) trivial) fun v hv ↦ .done hv
  | conditional | new | sequence => exact .fail _

theorem accretes_plan_arguments (types : TypeOracle) {args : List Expr}
    (h : (arguments args).Admissible sizes) :
    ((arguments args).plan types).Accretes sizes b (arguments args).Answers := by
  cases args with
  | nil => exact .done trivial
  | cons arg args =>
    have harg : (expr arg).Admissible sizes := h.part (List.subset_append_left _ _) trivial
    have hargs : (arguments args).Admissible sizes := h.part (List.subset_append_right _ _) trivial
    have hfirst : (part (.expr arg) fun v ↦ build (item v) (by simp) fun _ ↦
        part (.arguments args) done : Plan Bool).Accretes sizes b fun _ ↦ True :=
      .part harg fun v hv ↦ .build (accretive_item hv) fun _ _ ↦ .part hargs fun _ _ ↦ .done trivial
    cases args with
    | nil =>
      cases arg with
      | call callee args =>
        exact .callWith (harg.part (List.subset_append_left _ _) trivial)
          (harg.part (List.subset_append_right _ _) trivial) fun _ _ ↦ .done trivial
      | _ => exact hfirst
    | cons next args =>
      simp only [plan]
      exact hfirst

theorem accretes_plan_target (types : TypeOracle) {e : Expr} (h : (target e).Admissible sizes) :
    ((target e).plan types).Accretes sizes b (target e).Answers := by
  cases e with
  | identifier name => exact .last (Lower.accretes_nameTarget name)
  | member object name =>
    refine .part (h.part (List.Subset.refl _) trivial) fun v hv ↦ ?_
    refine .build (accretes_toTable hv) fun owner howner ↦ ?_
    refine .build (accretive_constantIndex _) fun k _ ↦ ?_
    have hk : (Value.constant k).Nameable := trivial
    exact .build (accretes_toOperand hk) fun key hkey ↦ .done ⟨howner, hkey⟩
  | index object key =>
    refine .part (h.part (List.subset_append_left _ _) trivial) fun v hv ↦ ?_
    refine .build (accretes_toTable hv) fun owner howner ↦ ?_
    refine .part (h.part (List.subset_append_right _ _) trivial) fun w hw ↦ ?_
    exact .build (accretes_toOperand hw) fun key hkey ↦ .done ⟨howner, hkey⟩
  | _ => exact .fail _

/-- Each group of list items takes at least one item. -/
theorem accretes_plan_arrayItems (types : TypeOracle) {table pending batch : Nat}
    {elements : List (Option Expr)}
    (h : (arrayItems table pending batch elements).Admissible sizes) :
    ((arrayItems table pending batch elements).plan types).Accretes sizes b fun _ ↦ True := by
  obtain ⟨htable, hbatch⟩ := h.reachable
  cases elements with
  | nil =>
    rw [List.length_nil] at hbatch
    rw [plan]
    split
    · exact .finish (accretive_storeBatch htable (by omega) (by omega))
    · exact .done trivial
  | cons element elements =>
    rw [List.length_cons] at hbatch
    have hsub : itemsObjectSizes elements ⊆ itemsObjectSizes (element :: elements) :=
      List.subset_append_right _ _
    refine .part (h.part (List.subset_append_left _ _) trivial) fun _ _ ↦ ?_
    split
    · have hrest : (arrayItems table 0 (batch + 1) elements).Admissible sizes :=
        h.part hsub ⟨htable, by omega⟩
      refine .build (accretive_storeBatch htable (by omega) (by omega)) fun _ _ ↦ ?_
      exact .part hrest fun _ _ ↦ .done trivial
    · have hrest : (arrayItems table (pending + 1) batch elements).Admissible sizes :=
        h.part hsub ⟨htable, by omega⟩
      exact .part hrest fun _ _ ↦ .done trivial

theorem accretes_plan_declarator (types : TypeOracle) (kind : DeclKind) {d : Declarator}
    (h : (declarator kind d).Admissible sizes) :
    ((declarator kind d).plan types).Accretes sizes b fun _ ↦ True := by
  obtain ⟨name, - | init⟩ := d
  · refine .findLocal fun found hfound ↦ ?_
    cases found with
    | some l =>
      simp only
      split
      · exact .finish (accretive_loadNil (hfound l rfl))
      · exact .done trivial
    | none =>
      simp only
      split
      · exact .bind accretes_newNil trivial
      · exact .last (Lower.accretive_names _ fun _ ↦ rfl)
  · have hinit : (expr init).Admissible sizes := h.part (List.Subset.refl _) trivial
    refine .findLocal fun found hfound ↦ ?_
    split
    · exact .part hinit fun v hv ↦ .bind (accretes_inNewRegister hv) trivial
    · exact .store trivial (fun rest hrest ↦ .part hinit hrest) hfound

theorem accretes_plan_statement (types : TypeOracle) {s : Stmt}
    (h : (statement s).Admissible sizes) :
    ((statement s).plan types).Accretes sizes b fun _ ↦ True := by
  cases s with
  | empty => exact .done trivial
  | declaration kind ds => exact .part (h.part (List.Subset.refl _) trivial) fun _ _ ↦ .done trivial
  | function name params body =>
    refine .findLocal fun found hfound ↦ .store trivial (fun rest hrest ↦ ?_) hfound
    exact .part (h.part (List.Subset.refl _) trivial) hrest
  | expression e =>
    have he : (expr e).Admissible sizes := h.part (List.Subset.refl _) trivial
    cases e with
    | call callee args =>
      exact .callWith (he.part (List.subset_append_left _ _) trivial)
        (he.part (List.subset_append_right _ _) trivial) fun _ _ ↦ .done trivial
    | assign op left right =>
      refine .assignment (he.part (List.subset_append_left _ _) trivial) (fun rest hrest ↦ ?_)
        fun target v ht hv ↦ .finish (accretive_assign ht hv)
      exact .part (he.part (List.subset_append_right _ _) trivial) hrest
    | update op form operand =>
      exact .assignment (he.part (List.Subset.refl _) trivial)
        (fun rest hrest ↦ .build (accretes_literal _) hrest)
        fun target v ht hv ↦ .finish (accretive_assign ht hv)
    | _ => exact .part he fun v hv ↦ .finish (accretive_drop hv)
  | ret value =>
    cases value with
    | some value =>
      refine .part (h.part (List.Subset.refl _) trivial) fun v hv ↦ ?_
      exact .finish (accretive_returnValue hv)
    | none =>
      rw [plan]
      exact .finish accretive_returnNone
  | _ => exact .fail _

theorem accretes_plan (types : TypeOracle) {task : Task} (h : task.Admissible sizes) :
    (task.plan types).Accretes sizes b task.Answers := by
  cases task with
  | expr e => exact accretes_plan_expr types h
  | arguments args => exact accretes_plan_arguments types h
  | propertyKey key =>
    cases key with
    | identifier name =>
      rw [plan]
      exact .build (accretive_constantIndex _) fun _ _ ↦ .done trivial
    | literal l =>
      rw [plan]
      split
      · exact .build (accretive_constantIndex _) fun _ _ ↦ .done trivial
      · exact .fail _
    | computed key => exact .part (h.part (List.Subset.refl _) trivial) fun v hv ↦ .done hv
  | objectProperties table properties =>
    have htable : table < 2 ^ 8 := h.reachable
    rcases properties with - | ⟨⟨key, value⟩, properties⟩
    · exact .done trivial
    · have hboth : key.objectSizes ++ value.objectSizes ⊆
          (objectProperties table (⟨key, value⟩ :: properties)).objectSizes :=
        List.subset_append_left _ _
      have hkey : (propertyKey key).Admissible sizes :=
        h.part (List.Subset.trans (List.subset_append_left _ _) hboth) trivial
      have hvalue : (expr value).Admissible sizes :=
        h.part (List.Subset.trans (List.subset_append_right _ _) hboth) trivial
      refine .part hkey fun v hv ↦ .build (accretes_toOperand hv) fun x hx ↦ ?_
      refine .part hvalue fun w hw ↦ .build (accretes_toOperand hw) fun y hy ↦ ?_
      refine .build (accretive_setField htable hx hy) fun _ _ ↦ ?_
      exact .part (h.part (List.subset_append_right _ _) htable) fun _ _ ↦ .done trivial
  | arrayItem element =>
    cases element with
    | some e =>
      refine .part (h.part (List.Subset.refl _) trivial) fun v hv ↦ ?_
      exact .finish (accretive_item hv)
    | none =>
      rw [plan]
      exact .finish accretive_hole
  | arrayItems table pending batch elements => exact accretes_plan_arrayItems types h
  | target e => exact accretes_plan_target types h
  | declarator kind d => exact accretes_plan_declarator types kind h
  | declarators kind ds =>
    rcases ds with - | ⟨⟨name, init⟩, ds⟩
    · exact .done trivial
    · refine .part (h.part (List.subset_append_left _ _) trivial) fun _ _ ↦ ?_
      exact .part (h.part (List.subset_append_right _ _) trivial) fun _ _ ↦ .done trivial
  | function params body => exact .enter (h.part (List.Subset.refl _) trivial) fun v hv ↦ .done hv
  | statement s => exact accretes_plan_statement types h
  | statements body =>
    cases body with
    | nil => exact .done trivial
    | cons s rest =>
      refine .part (h.part (List.subset_append_left _ _) trivial) fun _ _ ↦ ?_
      refine .build (accretive_modify callFree_settle fun _ ↦ rfl) fun _ _ ↦ ?_
      exact .part (h.part (List.subset_append_right _ _) trivial) fun _ _ ↦ .done trivial

/-- Lowering a part of a program only adds to the innermost function, and what it adds can be
packed. -/
theorem accretes (types : TypeOracle) (task : Task) (b : Nat) (h : task.Admissible sizes) :
    Lower.Accretes sizes b task.Answers (task.lower types) := by
  induction task using induction_on_parts types generalizing b with
  | h task hparts =>
    rw [← run_plan]
    apply (accretes_plan types h).run
    exact hparts.mono (fun part hpart b ↦ hpart.2 b) fun _ ↦ trivial

end Task

/-- Every block adds to the main function, or to the innermost function there is. -/
theorem Lower.accretive_block (types : TypeOracle) (body : List Stmt) (b : Nat)
    (h : ∀ n ∈ statementsObjectSizes body, sizes n) : Accretive sizes b (block types body) := by
  apply Accretes.bind (still_hoist body).steady (accretive_names _ fun _ ↦ rfl)
  intro _ _
  exact (Task.statements body).accretes types b ⟨h, trivial⟩

end LuaLower
