import LuaLower.Compile
import LuaLower.Proofs.Lowering.Refusals
import LuaLower.Proofs.Session.Functions

/-!
# The accepted programs

A program that compiles is in the compiled subset, at every depth. A program of the subset fails to
compile only for want of registers or upvalues, or because of a name.
-/

namespace LuaLower

open OpenFunction Build

/-- No field access is under way, and as many functions are open as before. -/
structure Session.Level (s t : Session) : Prop where
  owners : t.names.owners = []
  depth : t.enclosing.length = s.enclosing.length

theorem Session.Level.trans {s t u : Session} (hst : s.Level t) (htu : t.Level u) : s.Level u :=
  ⟨htu.owners, htu.depth.trans hst.depth⟩

namespace Lower

section Rules

variable {α β : Type} {p q : Bool} {P : α → Prop} {Q : β → Prop} {x : Lower α} {k : α → Lower β}

def Judged (supported : Bool) (P : α → Prop) (step : Lower α) : Prop :=
  ∀ s : Session, s.names.owners = [] → Yields step s
    (fun a t ↦ (supported = true ∧ P a) ∧ s.Level t) (fun e t ↦ e.Excused supported ∧ s.Level t)

abbrev Tame (step : Lower α) : Prop := Judged true (fun _ ↦ True) step

namespace Judged

theorem pure {a : α} (h : P a) : Judged true P (pure a) :=
  fun _ hs ↦ yields_pure ⟨⟨rfl, h⟩, hs, rfl⟩

theorem throw {e : Failure} (h : e.IsLimit) : Judged p P (throw e : Lower α) :=
  fun _ hs ↦ yields_throw ⟨.inl h, hs, rfl⟩

theorem refuse {e : Failure} (h : e.IsRefusal) : Judged false P (MonadExcept.throw e : Lower α) :=
  fun _ hs ↦ yields_throw ⟨.inr ⟨h, rfl⟩, hs, rfl⟩

theorem bind (hx : Judged p P x) (hk : ∀ a, P a → Judged q Q (k a)) :
    Judged (p && q) Q (x >>= k) := by
  intro s hs
  refine Yields.bind ((hx s hs).mono (fun _ _ h ↦ h) fun e t h ↦ ⟨h.1.and_right q, h.2⟩) ?_
  rintro a t ⟨⟨rfl, ha⟩, hst⟩
  refine (hk a ha t hst.owners).mono ?_ ?_
  · rintro b u ⟨hb, htu⟩
    exact ⟨hb, hst.trans htu⟩
  · rintro e u ⟨he, htu⟩
    exact ⟨he.and_left true, hst.trans htu⟩

/-- The last step refuses nothing. -/
theorem bind_last (hx : Judged p P x) (hk : ∀ a, P a → Judged true Q (k a)) :
    Judged p Q (x >>= k) := by
  rw [← Bool.and_true p]
  exact hx.bind hk

theorem get {k : Session → Lower β} (hk : ∀ s, s.names.owners = [] → Judged q Q (k s)) :
    Judged q Q (get >>= k) :=
  fun s hs ↦ hk s hs s hs

theorem onCurrent {step : Build α} (h : Build.Judged p P step) : Judged p P (onCurrent step) := by
  intro s hs
  refine (yields_onCurrent (h s.current)).mono ?_ ?_
  · rintro a t ⟨ha, ht⟩
    rw [ht]
    exact ⟨ha, hs, rfl⟩
  · rintro e t ⟨he, ht⟩
    rw [ht]
    exact ⟨he, hs, rfl⟩

end Judged

end Rules

/-! ## Names -/

theorem newUpvalue_failure {name : String} {chain chain' : Chain} {inStack : Bool} {index : Nat}
    {e : Failure} (h : chain.newUpvalue name inStack index = .error e chain') :
    e = .unimplemented .upvalueLimit := by
  obtain ⟨f, outer⟩ := chain
  by_cases hlimit : f.proto.upvalues.length < upvalueLimit
  · rw [Chain.newUpvalue_of_lt hlimit] at h
    cases h
  · rw [Chain.newUpvalue_of_le (Nat.not_lt.mp hlimit)] at h
    cases h
    rfl

theorem capture_failure {name : String} {f : OpenFunction} {outer : List OpenFunction} {e : Failure}
    {chain : Chain} (h : capture name f outer = .error e chain) :
    e = .unimplemented .upvalueLimit := by
  induction outer generalizing f chain with
  | nil => cases h
  | cons parent outer ih =>
    rw [capture] at h
    split at h
    · cases h
    · split at h
      · exact newUpvalue_failure h
      · split at h
        · exact newUpvalue_failure h
        · cases h
        · rename_i hrest
          cases h
          exact ih hrest

theorem tame_place? (name : String) : Tame (place? name) := by
  intro s hs
  cases hlocal : s.current.local? name with
  | some l => exact .of_ok (place?_of_local hlocal) ⟨⟨rfl, trivial⟩, hs, rfl⟩
  | none =>
    have hresolved := yields_capture name s.current s.enclosing
    cases hrun : capture name s.current s.enclosing with
    | ok u c =>
      have hlevel := (hresolved.result hrun).1.enclosing.length_eq
      exact .of_ok (place?_of_capture hlocal hrun) ⟨⟨rfl, trivial⟩, hs, hlevel.symm⟩
    | error e c =>
      have hlevel := (hresolved.failure hrun).enclosing.length_eq
      obtain rfl := capture_failure hrun
      exact .of_error (place?_of_capture_error hlocal hrun) ⟨.inl .upvalueLimit, hs, hlevel.symm⟩

theorem judged_lookup (types : TypeOracle) (name : String) :
    Judged true Value.IsLoadable (lookup types name) := by
  refine .get fun s hs ↦ ?_
  simp only [hs]
  refine (tame_place? name).bind fun place _ ↦ ?_
  cases place with
  | some place => exact .pure place.isLoadable_toValue
  | none =>
    cases namedConstant? name with
    | some k => exact (Judged.onCurrent (tame_constantIndex k)).bind fun _ _ ↦ .pure trivial
    | none =>
      simp only
      split
      · exact .onCurrent (judged_globalValue name)
      · exact .throw (.unresolved name)

theorem judged_lookupThis : Judged true Value.IsLoadable lookupThis := by
  refine (tame_place? "this").bind fun place _ ↦ ?_
  cases place with
  | some place => exact .pure place.isLoadable_toValue
  | none =>
    refine .get fun s _ ↦ ?_
    split
    · exact .pure trivial
    · exact .throw (.unresolved _)

theorem judged_field (types : TypeOracle) (owner : Place) (name : String) :
    Judged true Value.IsLoadable (withOwner owner.toValue (lookup types name)) := by
  rw [withOwner_lookup, ← bind_assoc]
  refine .onCurrent ((judged_constantKey (.string name)).bind fun key hkey ↦ .pure ⟨?_, hkey⟩)
  exact owner.isTable_toValue

theorem tame_addGlobal (name : String) : Tame (addGlobal name) :=
  fun _ hs ↦ .of_ok rfl ⟨⟨rfl, trivial⟩, hs, rfl⟩

theorem tame_nameTarget (name : String) : Tame (nameTarget name) := by
  refine .get fun s _ ↦ ?_
  split
  · exact .throw (.constantTarget name)
  · refine (tame_place? name).bind fun place _ ↦ ?_
    split
    · exact .pure trivial
    · exact .pure trivial
    · split
      case isTrue h => exact .throw (.namedConstantTarget h)
      case isFalse =>
        exact (tame_addGlobal name).bind fun _ _ ↦ .onCurrent (tame_globalTarget name)

/-! ## Functions -/

/-- A function that was opened is there to be closed. -/
theorem judged_inFunction {p : Bool} {step : Lower Unit} (h : Judged p (fun _ ↦ True) step) :
    Judged p (fun _ ↦ True) (inFunction step) := by
  intro s hs
  have hstep := h { s with current := s.current.inside, enclosing := s.functions } hs
  cases hrun : step { s with current := s.current.inside, enclosing := s.functions } with
  | ok a t =>
    obtain ⟨⟨hp, _⟩, hlevel⟩ := hstep.result hrun
    cases ht : t.enclosing with
    | nil => simpa [ht, Session.functions] using hlevel.depth
    | cons parent outer =>
      refine .of_ok (a := t.current.close)
        (t := { t with current := parent.afterNested t.current, enclosing := outer }) ?_
        ⟨⟨hp, trivial⟩, hlevel.owners, by simpa [ht, Session.functions] using hlevel.depth⟩
      simp [inFunction, hrun, ht]
  | error e t =>
    obtain ⟨he, hlevel⟩ := hstep.failure hrun
    cases ht : t.enclosing with
    | nil => simpa [ht, Session.functions] using hlevel.depth
    | cons parent outer =>
      refine .of_error (e := e)
        (t := { t with current := parent.afterNested t.current, enclosing := outer }) ?_
        ⟨he, hlevel.owners, by simpa [ht, Session.functions] using hlevel.depth⟩
      simp [inFunction, hrun, ht]

theorem judged_function (params : List String) {p : Bool} {body : Lower Unit}
    (hbody : Judged p (fun _ ↦ True) body) : Judged p Value.IsLoadable (function params body) := by
  have hinside : Judged p (fun _ ↦ True) (do
      bindParams params
      setParamCount params.length
      body : Lower Unit) := by
    refine (Judged.onCurrent (tame_bindParams params)).bind fun _ _ ↦ ?_
    exact (Judged.onCurrent (tame_modify _)).bind fun _ _ ↦ hbody
  exact (judged_inFunction hinside).bind_last fun _ _ ↦ .onCurrent (judged_closure _)

/-! ## Constructs -/

section Constructs

variable {p q : Bool} {left right value : Lower Value}

theorem judged_binary {op : BinaryOp} {isString : Bool} (hstring : isString = true → op = .add)
    (hleft : Judged p Value.IsLoadable left) (hright : Judged q Value.IsLoadable right) :
    Judged (op.isSupported && (p && q)) Value.IsLoadable (binary op isString left right) := by
  rw [Bool.and_left_comm]
  refine hleft.bind fun v hv ↦ ?_
  refine (Judged.onCurrent (judged_beginBinary hstring hv)).bind fun pending _ ↦ ?_
  exact hright.bind_last fun w hw ↦ .onCurrent (judged_finishBinary pending hw)

/-- An operation that an assignment can apply. -/
def Applicable (compound : Option (BinaryOp × Bool)) : Prop :=
  ∀ op isString, compound = some (op, isString) →
    op.isSupported = true ∧ (isString = true → op = .add)

theorem judged_compound (types : TypeOracle) (op : AssignOp) (left right : Expr) :
    Judged op.isSupported Applicable (MonadExcept.ofExcept (op.compound types left right)) := by
  have hplain : Judged true Applicable (MonadExcept.ofExcept (.ok none)) :=
    .pure fun _ _ h ↦ nomatch h
  have hcompound (op : BinaryOp) (isString : Bool) (hop : op.isSupported = true)
      (hstring : isString = true → op = .add) :
      Judged true Applicable (MonadExcept.ofExcept (.ok (some (op, isString)))) := by
    refine .pure fun _ _ h ↦ ?_
    cases h
    exact ⟨hop, hstring⟩
  cases op with
  | plain => exact hplain
  | and | or | nullish => exact .refuse (.logicalAssignment _)
  | add => exact hcompound _ _ rfl fun _ ↦ rfl
  | _ => exact hcompound _ _ rfl nofun

theorem judged_updateCompound (op : UpdateOp) (form : UpdateForm) :
    Judged form.isSupported Applicable (MonadExcept.ofExcept (op.compound form)) := by
  cases form with
  | before =>
    refine .pure fun _ _ h ↦ ?_
    cases h
    exact ⟨by cases op <;> rfl, nofun⟩
  | after => exact .refuse .postfixUpdate

theorem judged_assignment {target : Lower Target} {compound : Option (BinaryOp × Bool)}
    (hcompound : Applicable compound) (htarget : Judged p (fun _ ↦ True) target)
    (hright : Judged q Value.IsLoadable right) :
    Judged (p && q) (fun r ↦ r.2.IsLoadable) (assignment target compound right) := by
  refine htarget.bind fun target _ ↦ ?_
  have hvalue : Judged q Value.IsLoadable (assignedValue target compound right) := by
    cases compound with
    | none => exact hright
    | some compound =>
      obtain ⟨hop, hstring⟩ := hcompound compound.1 compound.2 rfl
      have hbinary := judged_binary hstring (.onCurrent (judged_read target)) hright
      rwa [hop] at hbinary
  exact hvalue.bind_last fun v hv ↦ .pure hv

theorem judged_callWith {callee : Lower Value} {args : Lower Bool} (argCount : Nat)
    (use : ResultUse) (hcallee : Judged p Value.IsLoadable callee)
    (hargs : Judged q (fun _ ↦ True) args) :
    Judged (p && q) (fun _ ↦ True) (callWith callee args argCount use) := by
  refine hcallee.bind fun v hv ↦ ?_
  refine (Judged.onCurrent (tame_inNewRegister hv)).bind fun base _ ↦ ?_
  refine hargs.bind_last fun isOpen _ ↦ ?_
  exact (Judged.onCurrent (tame_call base argCount isOpen use)).bind fun _ _ ↦ .pure trivial

theorem judged_property (table : Nat) {key : Lower Value} (hkey : Judged p Value.IsLoadable key)
    (hvalue : Judged q Value.IsLoadable value) :
    Judged (p && q) (fun _ ↦ True) (property table key value) := by
  refine hkey.bind fun k hk ↦ (Judged.onCurrent (tame_toOperand hk)).bind fun x _ ↦ ?_
  refine hvalue.bind_last fun v hv ↦ (Judged.onCurrent (tame_toOperand hv)).bind fun y _ ↦ ?_
  exact .onCurrent (tame_setField table x y)

theorem judged_setGlobal (name : String) (hvalue : Judged p Value.IsLoadable value) :
    Judged p (fun _ ↦ True) (setGlobal name value) := by
  refine (Judged.onCurrent (tame_globalTarget name)).bind fun target _ ↦ ?_
  exact hvalue.bind_last fun v hv ↦ .onCurrent (tame_assign target hv)

theorem judged_setLocal (r : Nat) (hvalue : Judged p Value.IsLoadable value) :
    Judged p (fun _ ↦ True) (do setLocal r (← value)) :=
  hvalue.bind_last fun _ hv ↦ .onCurrent (tame_setLocal hv r)

/-- A missing initial value is supported. -/
theorem judged_declare (kind : DeclKind) (name : String) {init : Option (Lower Value)}
    (hinit : ∀ value ∈ init, Judged p Value.IsLoadable value) (hnone : init = none → p = true) :
    Judged p (fun _ ↦ True) (declare kind name init) := by
  refine .get fun s _ ↦ ?_
  cases init with
  | none =>
    obtain rfl := hnone rfl
    cases s.current.local? name with
    | some l =>
      simp only
      split
      · exact .onCurrent (tame_modify _)
      · exact .pure trivial
    | none =>
      simp only
      split
      · exact (Judged.onCurrent tame_newNil).bind fun _ _ ↦ .onCurrent (tame_modify _)
      · exact (tame_addGlobal name).bind fun _ _ ↦ .pure trivial
  | some value =>
    have hvalue := hinit value rfl
    cases s.current.local? name with
    | some l => exact judged_setLocal l.register hvalue
    | none =>
      simp only
      split
      · have hinitial : Judged p (fun _ ↦ True) (initialValue (some value)) :=
          hvalue.bind_last fun _ hv ↦ .onCurrent (tame_inNewRegister hv)
        exact hinitial.bind_last fun _ _ ↦ .onCurrent (tame_modify _)
      · exact (tame_addGlobal name).bind fun _ _ ↦ judged_setGlobal name hvalue

theorem judged_declareFunction (name : String) (hvalue : Judged p Value.IsLoadable value) :
    Judged p (fun _ ↦ True) (declareFunction name value) := by
  refine .get fun s _ ↦ ?_
  cases s.current.local? name with
  | some l => exact judged_setLocal l.register hvalue
  | none => exact (tame_addGlobal name).bind fun _ _ ↦ judged_setGlobal name hvalue

end Constructs

/-! ## Induction over the syntax -/

theorem tame_hoist (body : List Stmt) : Tame (hoist body) := by
  intro s hs
  exact .of_ok rfl ⟨⟨rfl, trivial⟩, (Names.owners_addGlobals _ _).trans hs, rfl⟩

theorem judged_table (items fields : Nat) {p : Bool} {fill : Nat → Lower Unit}
    (hfill : ∀ table, Judged p (fun _ ↦ True) (fill table)) :
    Judged p Value.IsLoadable (do
      let table ← newTable items fields
      fill table
      return .register table) := by
  refine (Judged.onCurrent (tame_newTable items fields)).bind fun table _ ↦ ?_
  exact (hfill table).bind_last fun _ _ ↦ .pure trivial

theorem judged_owner {p : Bool} {object : Lower Value}
    (hobject : Judged p Value.IsLoadable object) :
    Judged p (fun _ ↦ True) (do toTable (← object)) :=
  hobject.bind_last fun _ hv ↦ .onCurrent (tame_toTable hv)

theorem judged_assign {p q r : Bool} {compound : Except Failure (Option (BinaryOp × Bool))}
    {target : Lower Target} {right : Lower Value}
    (hcompound : Judged r Applicable (MonadExcept.ofExcept compound))
    (htarget : Judged p (fun _ ↦ True) target) (hright : Judged q Value.IsLoadable right) :
    Judged (r && (p && q)) (fun r ↦ r.2.IsLoadable) (do
      let compound ← MonadExcept.ofExcept compound
      assignment target compound right) :=
  hcompound.bind fun _ h ↦ judged_assignment h htarget hright

variable (types : TypeOracle)

mutual

theorem judged_expr : ∀ e : Expr, Judged e.isSupported Value.IsLoadable (expr types e)
  | .literal l => .onCurrent (judged_literal l)
  | .identifier name => judged_lookup types name
  | .this => judged_lookupThis
  | .object properties => judged_table 0 _ fun table ↦ judged_objectProperties properties table
  | .array elements => by
    rw [expr, Expr.isSupported]
    by_cases hlength : maxArrayLength < elements.length
    · have hlong : ¬ elements.length ≤ 511 := Nat.not_le.mpr hlength
      rw [if_pos hlength, decide_eq_false hlong]
      exact .refuse .arrayLimit
    · have hshort : elements.length ≤ 511 := Nat.not_lt.mp hlength
      rw [if_neg hlength, decide_eq_true hshort]
      match elements with
      | [] => exact (Judged.onCurrent (tame_newTable _ _)).bind fun _ _ ↦ .pure trivial
      | none :: rest => exact judged_table _ _ fun table ↦ judged_arrayItems rest table 0 1
      | some first :: rest =>
        have hfill (table : Nat) : Judged (itemsSupported rest && first.isSupported) (fun _ ↦ True)
            (do
              arrayItems types table 0 1 rest
              setFirst table (← expr types first)) :=
          (judged_arrayItems rest table 0 1).bind fun _ _ ↦
            (judged_expr first).bind_last fun _ hv ↦ .onCurrent (tame_setFirst table hv)
        have h := judged_table (List.length (some first :: rest) - 1)
          (min (List.length (some first :: rest)) 1) hfill
        rw [Bool.and_comm] at h
        simp only [bind_assoc] at h
        exact h
  | .member object name => by
    rw [expr, ← bind_assoc, Expr.isSupported]
    exact (judged_owner (judged_expr object)).bind_last fun owner _ ↦ judged_field types owner name
  | .index object key => by
    rw [expr, ← bind_assoc, Expr.isSupported]
    refine (judged_owner (judged_expr object)).bind fun owner _ ↦ ?_
    refine (judged_expr key).bind_last fun v hv ↦ ?_
    exact (Judged.onCurrent (judged_toKey hv)).bind fun _ hk ↦ .pure ⟨owner.isTable_toValue, hk⟩
  | .unary op operand => by
    have h (opcode : Opcode) : Judged operand.isSupported Value.IsLoadable (do
        Build.unary opcode (← expr types operand)) :=
      (judged_expr operand).bind_last fun v hv ↦ .onCurrent (judged_unary opcode hv)
    cases op with
    | minus | bitNot | not => exact h _
    | _ => exact .refuse (.unary _)
  | .binary op left right =>
    judged_binary (fun h ↦ by simpa using (Bool.and_eq_true_iff.mp h).1)
      (judged_expr left) (judged_expr right)
  | .call callee args =>
    (judged_callWith _ _ (judged_expr callee) (judged_arguments args)).bind_last
      fun _ _ ↦ .pure trivial
  | .assign op target value => by
    rw [expr, Expr.isSupported]
    have h := judged_assign (judged_compound types op target value) (judged_target target)
      (judged_expr value)
    have hassign := h.bind_last fun r hr ↦ .onCurrent (judged_assignValue r.1 hr)
    rwa [bind_assoc] at hassign
  | .update op form target => by
    rw [expr, Expr.isSupported]
    have h := judged_assign (judged_updateCompound op form) (judged_target target)
      (.onCurrent (judged_literal (.number .one)))
    have hassign := h.bind_last fun r hr ↦ .onCurrent (judged_assignValue r.1 hr)
    simp only [bind_assoc, Literal.isSupported, Bool.and_true] at hassign
    exact hassign
  | .function _ params body =>
    judged_function params ((tame_hoist body).bind fun _ _ ↦ judged_statements body)
  | .arrow params (.block body) =>
    judged_function params ((tame_hoist body).bind fun _ _ ↦ judged_statements body)
  | .arrow _ (.expression _) => .refuse .expressionArrow
  | .conditional _ _ _ => .refuse (.node _)
  | .new _ _ => .refuse (.node _)
  | .sequence _ => .refuse (.node _)

theorem judged_arguments : ∀ args : List Expr,
    Judged (argumentsSupported args) (fun _ ↦ True) (arguments types args)
  | [] => .pure trivial
  | arg :: args => by
    have hcons (h : arguments types (arg :: args) = do
        item (← expr types arg)
        arguments types args) :
        Judged (argumentsSupported (arg :: args)) (fun _ ↦ True)
          (arguments types (arg :: args)) := by
      rw [h, argumentsSupported]
      refine (judged_expr arg).bind fun v hv ↦ ?_
      exact (Judged.onCurrent (tame_item hv)).bind fun _ _ ↦ judged_arguments args
    cases arg with
    | call callee forwarded =>
      cases args with
      | nil =>
        rw [argumentsSupported, argumentsSupported, Bool.and_true]
        exact (judged_callWith _ .forward (judged_expr callee)
          (judged_arguments forwarded)).bind_last
          fun _ _ ↦ .pure trivial
      | cons _ _ => exact hcons rfl
    | _ => exact hcons rfl

theorem judged_propertyKey : ∀ key : PropertyKey,
    Judged key.isSupported Value.IsLoadable (propertyKey types key)
  | .identifier _ => (Judged.onCurrent (tame_constantIndex _)).bind fun _ _ ↦ .pure trivial
  | .literal (.number _) | .literal (.string _) =>
    (Judged.onCurrent (tame_constantIndex _)).bind fun _ _ ↦ .pure trivial
  | .literal (.boolean _) | .literal .null | .literal (.bigint _) | .literal (.regex _ _) =>
    .refuse .propertyKey
  | .computed key => judged_expr key

theorem judged_objectProperties : ∀ (properties : List Property) (table : Nat),
    Judged (propertiesSupported properties) (fun _ ↦ True) (objectProperties types table properties)
  | [], _ => .pure trivial
  | ⟨key, value⟩ :: properties, table =>
    (judged_property table (judged_propertyKey key) (judged_expr value)).bind
      fun _ _ ↦ judged_objectProperties properties table

theorem judged_arrayItem : ∀ element : Option Expr,
    Judged (itemSupported element) (fun _ ↦ True) (arrayItem types element)
  | some e => (judged_expr e).bind_last fun _ hv ↦ .onCurrent (tame_item hv)
  | none => .onCurrent tame_hole

theorem judged_arrayItems : ∀ (elements : List (Option Expr)) (table pending batch : Nat),
    Judged (itemsSupported elements) (fun _ ↦ True) (arrayItems types table pending batch elements)
  | [], table, pending, batch => by
    rw [arrayItems]
    split
    · exact .onCurrent (tame_storeBatch table pending batch)
    · exact .pure trivial
  | element :: elements, table, pending, batch => by
    rw [arrayItems]
    refine (judged_arrayItem element).bind fun _ _ ↦ ?_
    split
    · exact (Judged.onCurrent (tame_storeBatch table _ batch)).bind
        fun _ _ ↦ judged_arrayItems elements table 0 (batch + 1)
    · exact judged_arrayItems elements table (pending + 1) batch

theorem judged_target : ∀ e : Expr,
    Judged (e.isTarget && e.isSupported) (fun _ ↦ True) (target types e)
  | .identifier name => tame_nameTarget name
  | .member object name => by
    rw [target, ← bind_assoc]
    refine (judged_owner (judged_expr object)).bind_last fun owner _ ↦ ?_
    refine (Judged.onCurrent (tame_constantIndex _)).bind fun k _ ↦ ?_
    have hk : (Value.constant k).IsLoadable := trivial
    exact (Judged.onCurrent (tame_toOperand hk)).bind fun _ _ ↦ .pure trivial
  | .index object key => by
    rw [target, ← bind_assoc]
    refine (judged_owner (judged_expr object)).bind fun owner _ ↦ ?_
    refine (judged_expr key).bind_last fun v hv ↦ ?_
    exact (Judged.onCurrent (tame_toOperand hv)).bind fun _ _ ↦ .pure trivial
  | .literal _ | .this | .array _ | .object _ | .binary _ _ _ | .unary _ _ | .assign _ _ _
  | .call _ _ | .conditional _ _ _ | .function _ _ _ | .arrow _ _ | .new _ _ | .update _ _ _
  | .sequence _ => .refuse (.target _)

theorem judged_declarators : ∀ (kind : DeclKind) (declarators : List Declarator),
    Judged (declaratorsSupported declarators) (fun _ ↦ True)
      (Lower.declarators types kind declarators)
  | _, [] => .pure trivial
  | kind, ⟨name, some init⟩ :: rest => by
    refine Judged.bind (judged_declare kind name ?_ nofun) fun _ _ ↦ judged_declarators kind rest
    intro value hvalue
    cases hvalue
    exact judged_expr init
  | kind, ⟨name, none⟩ :: rest =>
    Judged.bind (p := true) (judged_declare kind name (by simp) fun _ ↦ rfl)
      fun _ _ ↦ judged_declarators kind rest

theorem judged_statement : ∀ stmt : Stmt,
    Judged stmt.isSupported (fun _ ↦ True) (statement types stmt)
  | .empty => .pure trivial
  | .declaration kind declarators => judged_declarators kind declarators
  | .function name params body =>
    judged_declareFunction name
      (judged_function params ((tame_hoist body).bind fun _ _ ↦ judged_statements body))
  | .expression e => by
    have hdrop (h : statement types (.expression e) = do drop (← expr types e)) :
        Judged e.isSupported (fun _ ↦ True) (statement types (.expression e)) := by
      rw [h]
      exact (judged_expr e).bind_last fun _ hv ↦ .onCurrent (tame_drop hv)
    cases e with
    | call callee args =>
      exact (judged_callWith _ _ (judged_expr callee) (judged_arguments args)).bind_last
        fun _ _ ↦ .pure trivial
    | assign op left right =>
      rw [statement, Stmt.isSupported, Expr.isSupported]
      have h := judged_assign (judged_compound types op left right) (judged_target left)
        (judged_expr right)
      have hassign := h.bind_last fun r hr ↦ .onCurrent (tame_assign r.1 hr)
      rwa [bind_assoc] at hassign
    | update op form operand =>
      rw [statement, Stmt.isSupported, Expr.isSupported]
      have h := judged_assign (judged_updateCompound op form) (judged_target operand)
        (.onCurrent (judged_literal (.number .one)))
      have hassign := h.bind_last fun r hr ↦ .onCurrent (tame_assign r.1 hr)
      simp only [bind_assoc, Literal.isSupported, Bool.and_true] at hassign
      exact hassign
    | _ => exact hdrop rfl
  | .ret (some value) => (judged_expr value).bind_last fun _ hv ↦ .onCurrent (tame_returnValue hv)
  | .ret none => .onCurrent tame_returnNone
  | .block _ | .cond _ _ _ | .while _ _ | .for _ _ _ _ | .break | .continue | .throw _
  | .class _ _ => .refuse (.node _)

theorem judged_statements : ∀ body : List Stmt,
    Judged (statementsSupported body) (fun _ ↦ True) (statements types body)
  | [] => .pure trivial
  | s :: rest => by
    refine (judged_statement s).bind fun _ _ ↦ ?_
    exact (Judged.onCurrent (tame_modify _)).bind fun _ _ ↦ judged_statements rest

end

end Lower

/-- A failure that would be a fault of the compiler. -/
def Failure.isInternal : Failure → Bool
  | .malformed .. | .unsupported .outsideFunction | .unsupported .unbalancedNesting => true
  | _ => false

theorem Failure.Excused.not_internal {supported : Bool} {e : Failure} (h : e.Excused supported) :
    e.isInternal = false := by
  rcases h with h | ⟨h, _⟩ <;> cases h <;> rfl

/-- A program that compiles is in the subset at every depth. Any other is refused for a construct
outside the subset, or fails as a program of the subset may fail. -/
theorem compileBody_accepts_subset (types : TypeOracle) (options : Options) (body : List Stmt) :
    (∀ p, compileBody types options body = .ok p → statementsSupported body = true) ∧
    (∀ e, compileBody types options body = .error e →
      e.isInternal = false ∧ (statementsSupported body = true → e.IsLimit) ∧
      (statementsSupported body = false → e.IsLimit ∨ e.IsRefusal)) := by
  have hblock : Lower.Judged (statementsSupported body) (fun _ ↦ True) (Lower.block types body) :=
    (Lower.tame_hoist body).bind fun _ _ ↦ Lower.judged_statements types body
  have hbody := hblock (Session.main options.source) rfl
  cases hrun : Lower.block types body (Session.main options.source) with
  | ok a t =>
    obtain ⟨⟨hsupported, _⟩, hlevel⟩ := hbody.result hrun
    have henclosing : t.enclosing = [] := List.eq_nil_of_length_eq_zero hlevel.depth
    have hcompile : compileBody types options body = .ok t.current.close := by
      simp [compileBody, hrun, Session.close, henclosing]
    refine ⟨fun _ _ ↦ hsupported, fun e he ↦ ?_⟩
    rw [hcompile] at he
    cases he
  | error e t =>
    have hexcused := (hbody.failure hrun).1
    have hcompile : compileBody types options body = .error e := by
      simp [compileBody, hrun]
    refine ⟨fun p hp ↦ ?_, fun e' he ↦ ?_⟩
    · rw [hcompile] at hp
      cases hp
    · rw [hcompile] at he
      cases he
      refine ⟨hexcused.not_internal, ?_⟩
      rcases hexcused with hlimit | ⟨hrefusal, hunsupported⟩
      · exact ⟨fun _ ↦ hlimit, fun _ ↦ .inl hlimit⟩
      · refine ⟨fun hsupported ↦ ?_, fun _ ↦ .inr hrefusal⟩
        rw [hunsupported] at hsupported
        cases hsupported

/-- `let o = { a: [1, , x => { return x.y || -x }], "b": this }; o.a = o["b"](o);` -/
def mixedConstructs : List Stmt :=
  [.declaration .let [⟨"o", some (.object [
      ⟨.identifier "a", .array [some (.literal (.number .one)), none, some (.arrow ["x"] (.block
        [.ret (some (.binary .or (.member (.identifier "x") "y")
          (.unary .minus (.identifier "x"))))]))]⟩,
      ⟨.literal (.string "b"), .this⟩])⟩],
   .expression (.assign .plain (.member (.identifier "o") "a")
    (.call (.index (.identifier "o") (.literal (.string "b"))) [.identifier "o"]))]

/-- The first program compiles. The second assigns to a name of a constant, and the last one has a
construct outside the subset in a nested function. -/
theorem compileBody_accepts_subset_mixedConstructs :
    (∃ p, compileBody (SyntaxOracle.oracle {}) {} mixedConstructs = .ok p ∧
      statementsSupported mixedConstructs = true) ∧
    (∃ e, compileBody (SyntaxOracle.oracle {}) {}
        [.expression (.assign .plain (.identifier "NaN") .this)] = .error e ∧ e.IsLimit) ∧
    (∃ e, compileBody (SyntaxOracle.oracle {}) {}
        [.expression (.arrow ["x"]
          (.block [.expression (.update .increment .after (.identifier "x"))]))] = .error e ∧
      e.isInternal = false ∧ (e.IsLimit ∨ e.IsRefusal)) := by
  refine ⟨?_, ?_, ?_⟩
  · have hok : (compileBody (SyntaxOracle.oracle {}) {} mixedConstructs).isOk = true := by
      decide +kernel
    cases hp : compileBody (SyntaxOracle.oracle {}) {} mixedConstructs with
    | error e =>
      rw [hp] at hok
      cases hok
    | ok p => exact ⟨p, rfl, (compileBody_accepts_subset _ _ _).1 p hp⟩
  · have herror : compileBody (SyntaxOracle.oracle {}) {}
        [.expression (.assign .plain (.identifier "NaN") .this)] =
        .error (.unsupported (.namedConstantTarget "NaN")) := rfl
    exact ⟨_, herror, ((compileBody_accepts_subset _ _ _).2 _ herror).2.1 rfl⟩
  · have herror : compileBody (SyntaxOracle.oracle {}) {}
        [.expression (.arrow ["x"]
          (.block [.expression (.update .increment .after (.identifier "x"))]))] =
        .error (.unimplemented .postfixUpdate) := rfl
    have h := (compileBody_accepts_subset _ _ _).2 _ herror
    exact ⟨_, herror, h.1, h.2.2 rfl⟩

end LuaLower
