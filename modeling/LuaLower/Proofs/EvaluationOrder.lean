import LuaLower.Proofs.Lowering.Operands

/-!
# The order of evaluation

The parts of an expression are evaluated one after the other: all code for one of them comes before
all code for the next. The order is that of the source, apart from arrays that begin with an
element. This element is not one of the list items, and it is evaluated when the items have been
stored.
-/

namespace LuaLower

open OpenFunction Build

variable {types : TypeOracle} {options : Options} {program : List Stmt} {p : Prototype}
  {e callee left right : Expr} {es fs args : List Expr} {s t u : Session}

/-! ## The parts of an expression -/

/-- A key as the expression that it abbreviates. -/
def PropertyKey.expr : PropertyKey → Expr
  | .identifier name => .literal (.string name)
  | .literal l => .literal l
  | .computed key => key

namespace Expr

/-- The expressions right below a call, an object, an array or a binary operation, in the order of
the source. -/
def parts : Expr → List Expr
  | .call callee args => callee :: args
  | .object properties => properties.flatMap fun ⟨key, value⟩ ↦ [key.expr, value]
  | .array elements => elements.reduceOption
  | .binary _ left right => [left, right]
  | _ => []

/-- The same expressions in the order in which they are evaluated. -/
def evaluationOrder : Expr → List Expr
  | .array (some first :: rest) => rest.reduceOption ++ [first]
  | e => e.parts

/-- An expression whose parts are all evaluated, and of which a value is put together. -/
def isComposite : Expr → Bool
  | .call .. | .object _ | .array _ => true
  | .binary op .. => op.logical?.isNone
  | _ => false

end Expr

/-! ## Timelines -/

/-- From one session to another, expressions are evaluated in the order of a list. In between, code
may be added that belongs to none of them. -/
inductive Timeline (types : TypeOracle) : Session → List Expr → Session → Prop
  | refl (s : Session) : Timeline types s [] s
  | evaluate {e : Expr} {es : List Expr} {x : Nat} {s t u : Session} : EvaluatesTo types e x s t →
    Timeline types t es u → Timeline types s (e :: es) u
  | step {es : List Expr} {s t u : Session} : s.current.Continues (fun _ ↦ True) t.current →
    Timeline types t es u → Timeline types s es u

namespace Timeline

theorem of_continues (types : TypeOracle) (h : s.current.Continues (fun _ ↦ True) t.current) :
    Timeline types s [] t :=
  .step h (.refl t)

theorem append (hst : Timeline types s es t) (htu : Timeline types t fs u) :
    Timeline types s (es ++ fs) u := by
  induction hst with
  | refl => exact htu
  | evaluate heval _ ih => exact .evaluate heval (ih htu)
  | step hstep _ ih => exact .step hstep (ih htu)

theorem continues (h : Timeline types s es t) : s.current.Continues (fun _ ↦ True) t.current := by
  induction h with
  | refl => exact .refl _
  | evaluate heval _ ih => exact heval.continues.trans ih
  | step hstep _ ih => exact hstep.trans ih

end Timeline

/-- The evaluation of one expression: where it starts and stops, and the operand for its value. -/
structure Stage where
  part : Expr
  operand : Nat
  start : Session
  stop : Session

/-- A stage on the way from one session to another. -/
structure Stage.Between (types : TypeOracle) (stage : Stage) (s t : Session) : Prop where
  evaluates : EvaluatesTo types stage.part stage.operand stage.start stage.stop
  start : s.current.Continues (fun _ ↦ True) stage.start.current
  stop : stage.stop.current.Continues (fun _ ↦ True) t.current

theorem Timeline.exists_stages (h : Timeline types s es t) :
    ∃ stages : List Stage, stages.map Stage.part = es ∧
      (∀ stage ∈ stages, stage.Between types s t) ∧
      stages.Pairwise fun earlier later ↦ earlier.stop.size ≤ later.start.size := by
  induction h with
  | refl s => exact ⟨[], rfl, List.forall_mem_nil _, .nil⟩
  | @evaluate e es x s t u heval hrest ih =>
    obtain ⟨stages, rfl, hstages, hordered⟩ := ih
    refine ⟨⟨e, x, s, t⟩ :: stages, rfl, ?_, .cons ?_ hordered⟩
    · refine List.forall_mem_cons.mpr ⟨⟨heval, .refl _, hrest.continues⟩, ?_⟩
      intro stage hstage
      obtain ⟨heval', hstart, hstop⟩ := hstages stage hstage
      exact ⟨heval', heval.continues.trans hstart, hstop⟩
    · intro stage hstage
      exact (hstages stage hstage).start.size_le
  | step hstep _ ih =>
    obtain ⟨stages, hparts, hstages, hordered⟩ := ih
    refine ⟨stages, hparts, ?_, hordered⟩
    intro stage hstage
    obtain ⟨heval, hstart, hstop⟩ := hstages stage hstage
    exact ⟨heval, hstep.trans hstart, hstop⟩

/-! ## The timelines of expressions -/

theorem timeline_arguments {isOpen : Bool} (h : Lower.arguments types args s = .ok isOpen t) :
    Timeline types s args t := by
  induction args generalizing s with
  | nil =>
    cases h
    exact .refl _
  | cons arg args ih =>
    obtain ⟨r, u, harg, hrest, -⟩ | ⟨callee, inner, base, rfl, rfl, -, hcall⟩ :=
      arguments_cons_eq_ok h
    · exact .evaluate (.register harg) (ih hrest)
    · exact .evaluate (.register (.forwarded hcall)) (.refl t)

theorem timeline_callWith {base : Nat} {use : ResultUse}
    (h : Lower.callWith (Lower.expr types callee) (Lower.arguments types args) args.length use s =
      .ok base t) : Timeline types s (callee :: args) t := by
  obtain ⟨v, t₁, t₂, isOpen, t₃, hcallee, hbase, hargs, hcall⟩ := callWith_eq_ok h
  have hlast : Works True (fun _ ↦ True) t₃.current t.current :=
    works_call trivial (Lower.onCurrent_eq_ok hcall).1
  have hrest := (timeline_arguments hargs).append (.of_continues types hlast.toContinues)
  rw [List.append_nil] at hrest
  exact .evaluate (.register (.loaded hcallee hbase)) hrest

theorem timeline_binary {op : BinaryOp} {isString : Bool} {w : Value} (hop : op.logical? = none)
    (h : Lower.binary op isString (Lower.expr types left) (Lower.expr types right) s = .ok w t) :
    Timeline types s [left, right] t := by
  obtain ⟨v, s₁, pending, s₂, v', s₃, y, u, hleft, hplain, hplace, hright, hplace', hconclude⟩ :=
    binary_eq_ok hop h
  have hlast := continues_onCurrent (Pending.callFree_conclude hplain y) hconclude
  exact .evaluate (evaluatesTo_place hleft hplace)
    (.evaluate (evaluatesTo_place hright hplace') (.of_continues types hlast))

theorem expr_of_constantIndex {l : Literal} {k : Constant} {index : Nat}
    (hl : l.constant? = some k) (h : Lower.onCurrent (constantIndex k) s = .ok index t) :
    Lower.expr types (.literal l) s = .ok (.constant index) t := by
  have hliteral : literal l = constantIndex k >>= fun index ↦ pure (.constant index) := by
    cases l <;> cases hl <;> rfl
  have hbind : Lower.onCurrent (literal l) s = .ok (.constant index) t := by
    rw [hliteral, Lower.onCurrent_bind, bind_of_ok h]
    rfl
  rw [Lower.expr]
  exact hbind

/-- A key is lowered like the expression that it abbreviates. -/
theorem expr_of_propertyKey {key : PropertyKey} {v : Value}
    (h : Lower.propertyKey types key s = .ok v t) : Lower.expr types key.expr s = .ok v t := by
  cases key with
  | identifier name =>
    rw [Lower.propertyKey] at h
    obtain ⟨index, _, hindex, ⟨⟩⟩ := bind_eq_ok h
    exact expr_of_constantIndex rfl hindex
  | literal l =>
    rw [Lower.propertyKey] at h
    cases hl : l.constant? with
    | none =>
      simp only [hl] at h
      cases h
    | some k =>
      simp only [hl] at h
      obtain ⟨index, _, hindex, ⟨⟩⟩ := bind_eq_ok h
      exact expr_of_constantIndex hl hindex
  | computed key =>
    rw [Lower.propertyKey] at h
    exact h

theorem timeline_objectProperties {table : Nat} {properties : List Property}
    (h : Lower.objectProperties types table properties s = .ok () t) :
    Timeline types s (Expr.object properties).parts t := by
  induction properties generalizing s with
  | nil =>
    cases h
    exact .refl _
  | cons property properties ih =>
    obtain ⟨key, value⟩ := property
    rw [Lower.objectProperties] at h
    obtain ⟨_, u, hproperty, hrest⟩ := bind_eq_ok h
    obtain ⟨k, s₁, hkey, h⟩ := bind_eq_ok hproperty
    obtain ⟨x, s₂, hx, h⟩ := bind_eq_ok h
    obtain ⟨v, s₃, hvalue, h⟩ := bind_eq_ok h
    obtain ⟨y, s₄, hy, hfield⟩ := bind_eq_ok h
    have hlast := continues_onCurrent (callFree_setField table x y) hfield
    exact .evaluate (.operand (expr_of_propertyKey hkey) hx)
      (.evaluate (.operand hvalue hy) (.step hlast (ih hrest)))

theorem timeline_arrayItem {element : Option Expr}
    (h : Lower.arrayItem types element s = .ok () t) :
    Timeline types s element.toList t := by
  cases element with
  | none =>
    rw [Lower.arrayItem] at h
    exact .of_continues types (continues_onCurrent callFree_hole h)
  | some e =>
    rw [Lower.arrayItem] at h
    obtain ⟨v, u, hexpr, hitem⟩ := bind_eq_ok h
    obtain ⟨r, w, hplace, ⟨⟩⟩ := onCurrent_bind_eq_ok hitem
    exact .evaluate (.register (.loaded hexpr hplace)) (.refl _)

theorem timeline_arrayItems {table pending batch : Nat} {elements : List (Option Expr)}
    (h : Lower.arrayItems types table pending batch elements s = .ok () t) :
    Timeline types s elements.reduceOption t := by
  induction elements generalizing pending batch s with
  | nil =>
    rw [Lower.arrayItems] at h
    split at h
    · exact .of_continues types (continues_onCurrent (callFree_storeBatch table pending batch) h)
    · cases h
      exact .refl _
  | cons element elements ih =>
    rw [Lower.arrayItems] at h
    obtain ⟨_, u, hitem, h⟩ := bind_eq_ok h
    have hitem := timeline_arrayItem hitem
    have hrest : Timeline types u elements.reduceOption t := by
      split at h
      · obtain ⟨_, w, hstore, hrest⟩ := bind_eq_ok h
        have hstore := continues_onCurrent (callFree_storeBatch table (pending + 1) batch) hstore
        exact .step hstore (ih hrest)
      · exact ih h
    have hreduce : (element :: elements).reduceOption =
        element.toList ++ elements.reduceOption := by
      cases element <;> rfl
    rw [hreduce]
    exact hitem.append hrest

theorem timeline_array {elements : List (Option Expr)} {v : Value}
    (h : Lower.expr types (.array elements) s = .ok v t) :
    Timeline types s (Expr.array elements).evaluationOrder t := by
  rw [Lower.expr] at h
  split at h
  · cases h
  · obtain ⟨table, u, hnew, h⟩ := bind_eq_ok h
    have hstep := continues_onCurrent (callFree_newTable _ _) hnew
    clear hnew
    match elements with
    | [] =>
      cases h
      exact .of_continues types hstep
    | none :: rest =>
      obtain ⟨_, _, hitems, ⟨⟩⟩ := bind_eq_ok h
      have hrest : Timeline types u rest.reduceOption t := timeline_arrayItems hitems
      exact .step hstep hrest
    | some first :: rest =>
      obtain ⟨_, w, hitems, h⟩ := bind_eq_ok h
      obtain ⟨f, s₁, hfirst, h⟩ := bind_eq_ok h
      obtain ⟨_, _, hset, ⟨⟩⟩ := bind_eq_ok h
      obtain ⟨x, s₂, hplace, hstore⟩ := onCurrent_bind_eq_ok hset
      have hlast : Timeline types s₂ [] t :=
        .of_continues types (continues_onCurrent (by simp) hstore)
      exact .step hstep ((timeline_arrayItems hitems).append
        (.evaluate (.operand hfirst hplace) hlast))

theorem timeline_expr {v : Value} (he : e.isComposite = true)
    (h : Lower.expr types e s = .ok v t) : Timeline types s e.evaluationOrder t := by
  cases e with
  | call callee args =>
    rw [Lower.expr] at h
    obtain ⟨base, _, hcall, ⟨⟩⟩ := bind_eq_ok h
    exact timeline_callWith hcall
  | object properties =>
    rw [Lower.expr] at h
    obtain ⟨table, u, hnew, h⟩ := bind_eq_ok h
    obtain ⟨_, _, hproperties, ⟨⟩⟩ := bind_eq_ok h
    exact .step (continues_onCurrent (callFree_newTable _ _) hnew)
      (timeline_objectProperties hproperties)
  | array elements => exact timeline_array h
  | binary op left right =>
    rw [Lower.expr] at h
    exact timeline_binary (Option.isNone_iff_eq_none.mp he) h
  | _ => cases he

/-! ## Compiled programs -/

/-- The expression that a task lowers. A call may be lowered as one whose results are passed on, or
as a statement. -/
def Task.expr? : Task → Option Expr
  | expr e => some e
  | arguments [.call callee args] => some (.call callee args)
  | statement (.expression (.call callee args)) => some (.call callee args)
  | _ => none

theorem timeline_task {task : Task} {b : task.Result} (htask : task.expr? = some e)
    (he : e.isComposite = true) (h : task.lower types s = .ok b t) :
    Timeline types s e.evaluationOrder t := by
  unfold Task.expr? at htask
  split at htask <;> cases htask
  · exact timeline_expr he h
  · obtain ⟨base, hcall⟩ := Task.callWith_of_lower rfl h
    exact timeline_callWith hcall
  · obtain ⟨base, hcall⟩ := Task.callWith_of_lower rfl h
    exact timeline_callWith hcall

theorem Expr.evaluationOrder_eq
    (h : ∀ first rest, e = .array (some first :: rest) → rest.reduceOption = []) :
    e.evaluationOrder = e.parts := by
  unfold evaluationOrder
  split
  case h_1 first rest =>
    have hparts : (array (some first :: rest)).parts = first :: rest.reduceOption := rfl
    rw [hparts, h first rest rfl, List.nil_append]
  case h_2 => rfl

/-- The parts of a call, an object, an array or a binary operation are evaluated in the order of the
source, except that the first of several array elements comes last. -/
theorem parts_evaluated_in_order (types : TypeOracle) (options : Options) (program : List Stmt)
    (p : Prototype) (hp : compileBody types options program = .ok p) (task : Task) (s : Session)
    (e : Expr) (htask : Encounters types options program task s) (he : task.expr? = some e)
    (hcomposite : e.isComposite = true) :
    (∃ (q : Prototype) (b : task.Result) (t : Session) (stages : List Stage), p.Contains q ∧
      task.lower types s = .ok b t ∧
      stages.map Stage.part = e.evaluationOrder ∧
      (∀ stage ∈ stages, stage.Between types s t ∧
        stage.stop.StaysIn stage.start.size q.code) ∧
      stages.Pairwise fun earlier later ↦ earlier.stop.size ≤ later.start.size) ∧
    ((∀ first rest, e = .array (some first :: rest) → rest.reduceOption = []) →
      e.evaluationOrder = e.parts) := by
  refine ⟨?_, Expr.evaluationOrder_eq⟩
  obtain ⟨q, body, entry, last, hq, hcompletes, hvisits, hdepth⟩ := htask.exists_completes hp
  obtain ⟨b, t, hrun⟩ := htask.succeeds hp
  obtain ⟨stages, hparts, hstages, hordered⟩ := (timeline_task he hcomposite hrun).exists_stages
  refine ⟨q, b, t, stages, hq, hrun, hparts, ?_, hordered⟩
  intro stage hstage
  have hbetween := hstages stage hstage
  have hstays := (hcompletes.staysIn hvisits hdepth hrun).earlier hbetween.stop
  exact ⟨hbetween, hstays.mono hbetween.start.size_le⟩

/-- `f(g() == g(), { [g()]: g() }); function f() {} function g() {}` -/
def effectfulArguments : List Stmt :=
  [.expression (.call (.identifier "f")
    [.binary .eq (.call (.identifier "g") []) (.call (.identifier "g") []),
     .object [⟨.computed (.call (.identifier "g") []), .call (.identifier "g") []⟩]]),
   .function "f" [] [],
   .function "g" [] []]

/-- The callee is evaluated first, then the comparison, then the object. -/
theorem parts_evaluated_in_order_effectfulArguments :
    ∃ (p q : Prototype) (stages : List Stage),
      compileBody (SyntaxOracle.oracle {}) {} effectfulArguments = .ok p ∧ p.Contains q ∧
      stages.map Stage.part =
        [.identifier "f",
         .binary .eq (.call (.identifier "g") []) (.call (.identifier "g") []),
         .object [⟨.computed (.call (.identifier "g") []), .call (.identifier "g") []⟩]] ∧
      (∀ stage ∈ stages, EvaluatesTo (SyntaxOracle.oracle {}) stage.part stage.operand stage.start
        stage.stop ∧ stage.stop.StaysIn stage.start.size q.code) ∧
      stages.Pairwise fun earlier later ↦ earlier.stop.size ≤ later.start.size := by
  obtain ⟨p, hp⟩ : ∃ p, compileBody (SyntaxOracle.oracle {}) {} effectfulArguments = .ok p :=
    exists_ok_of_isOk (by decide +kernel)
  obtain ⟨⟨q, -, t, stages, hq, -, hparts, hstages, hordered⟩, -⟩ :=
    parts_evaluated_in_order _ _ _ p hp (.statement (effectfulArguments.head (by decide))) _ _
      (.inside (.part _ _ _) (.self _ _)) rfl rfl
  refine ⟨p, q, stages, hp, hq, hparts, fun stage hstage ↦ ?_, hordered⟩
  exact ⟨(hstages stage hstage).1.evaluates, (hstages stage hstage).2⟩

/-- `function f() {} function g() {} let a = [f(), g()];` -/
def twoCalls : List Stmt :=
  [.function "f" [] [],
   .function "g" [] [],
   .declaration .let
    [⟨"a", some (.array [some (.call (.identifier "f") []), some (.call (.identifier "g") [])])⟩]]

/-- The function `f` is called after `g`, although it stands first. -/
theorem first_element_evaluated_last_twoCalls :
    ∃ p, compileBody (SyntaxOracle.oracle {}) {} twoCalls = .ok p ∧
      p.constants.toList = [.string "f", .string "g", .integer 0] ∧
      p.code.toList.drop 4 =
        [.abc .newTable 0 1 1,
         .abc .getTabUp 1 0 (RK.constant 1), .abc .call 1 1 2, .abc .setList 0 1 1,
         .abc .getTabUp 1 0 (RK.constant 0), .abc .call 1 1 2,
         .abc .setTable 0 (RK.constant 2) 1, .abc .ret 0 1 0] := by
  obtain ⟨p, hp, hcode⟩ : ∃ p, compileBody (SyntaxOracle.oracle {}) {} twoCalls = .ok p ∧
      (p.constants.toList, p.code.toList.drop 4) =
        ([.string "f", .string "g", .integer 0],
         [.abc .newTable 0 1 1,
          .abc .getTabUp 1 0 (RK.constant 1), .abc .call 1 1 2, .abc .setList 0 1 1,
          .abc .getTabUp 1 0 (RK.constant 0), .abc .call 1 1 2,
          .abc .setTable 0 (RK.constant 2) 1, .abc .ret 0 1 0]) :=
    exists_ok_of_toOption (by decide +kernel)
  exact ⟨p, hp, Prod.mk.inj hcode⟩

end LuaLower
