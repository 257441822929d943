import LuaLower.Proofs.Session.Steadiness

/-!
# The order in which a program is lowered

Lowering a part of a program runs steps of its own and lowers further parts, one after the other. A
plan lists both; every part has one, and running it is the same as lowering the part. So a plan
shows at which moment, and in which session, each of the parts is lowered.
-/

namespace LuaLower

open Build

/-- Something that is lowered in the course of a compilation. -/
inductive Task where
  | expr (e : Expr)
  | arguments (args : List Expr)
  | propertyKey (key : PropertyKey)
  | objectProperties (table : Nat) (properties : List Property)
  | arrayItem (element : Option Expr)
  | arrayItems (table pending batch : Nat) (elements : List (Option Expr))
  | target (e : Expr)
  | declarator (kind : DeclKind) (d : Declarator)
  | declarators (kind : DeclKind) (ds : List Declarator)
  | function (params : List String) (body : List Stmt)
  | statement (s : Stmt)
  | statements (body : List Stmt)

namespace Task

abbrev Result : Task → Type
  | expr _ | propertyKey _ | function .. => Value
  | arguments _ => Bool
  | target _ => Target
  | _ => Unit

/-- The number of syntax nodes of a task, up to a constant for each. -/
noncomputable def size : Task → Nat
  | expr e | target e => sizeOf e
  | arguments args => sizeOf args
  | propertyKey key => sizeOf key
  | objectProperties _ properties => sizeOf properties
  | arrayItem element => sizeOf element
  | arrayItems _ _ _ elements => sizeOf elements
  | declarator _ d => sizeOf d
  | declarators _ ds => sizeOf ds
  | function _ body => 1 + sizeOf body
  | statement s => sizeOf s
  | statements body => sizeOf body

variable (types : TypeOracle)

def lower : (task : Task) → Lower task.Result
  | expr e => Lower.expr types e
  | arguments args => Lower.arguments types args
  | propertyKey key => Lower.propertyKey types key
  | objectProperties table properties => Lower.objectProperties types table properties
  | arrayItem element => Lower.arrayItem types element
  | arrayItems table pending batch elements => Lower.arrayItems types table pending batch elements
  | target e => Lower.target types e
  | declarator kind d => Lower.declare kind d.name (d.init.map (Lower.expr types))
  | declarators kind ds => Lower.declarators types kind ds
  | function params body => Lower.function params do
    Lower.hoist body
    Lower.statements types body
  | statement s => Lower.statement types s
  | statements body => Lower.statements types body

end Task

inductive Plan (α : Type) : Type 1 where
  | done (a : α)
  | fail (e : Failure)
  /-- A step that lowers no further part and declares no variable. -/
  | step {β : Type} (x : Lower β) (still : x.Still) (rest : β → Plan α)
  /-- A new local in a register that was just taken, as the last step. -/
  | bind (name : String) (isConst : Bool) (x : Build Nat) (gives : x.GivesRegister) (a : α)
  | part (task : Task) (rest : task.Result → Plan α)
  /-- A nested function and its closure. -/
  | enter (params : List String) (body : List Stmt) (rest : Value → Plan α)

namespace Plan

variable {α β : Type}

def run (types : TypeOracle) : Plan α → Lower α
  | done a => pure a
  | fail e => throw e
  | step x _ rest => x >>= fun b ↦ (rest b).run types
  | bind name isConst x _ a => do
    Lower.onCurrent (do bindLocal name (← x) isConst)
    return a
  | part task rest => task.lower types >>= fun b ↦ (rest b).run types
  | enter params body rest =>
    (Task.function params body).lower types >>= fun v ↦ (rest v).run types

/-- A last step. -/
def last (x : Lower α) (still : x.Still) : Plan α := step x still done

/-- A step on the innermost function. -/
def build (x : Build β) (neutral : x.Neutral) (rest : β → Plan α) : Plan α :=
  step (Lower.onCurrent x) (Lower.still_build neutral) rest

def callWith (callee : Expr) (args : List Expr) (use : ResultUse) (rest : Nat → Plan α) : Plan α :=
  part (.expr callee) fun v ↦
  build (inNewRegister v) (by simp) fun base ↦
  part (.arguments args) fun isOpen ↦
  build (call base args.length isOpen use) (by simp) fun _ ↦
  rest base

/-- The value that an assignment writes, given how the right side is lowered. -/
def assignedValue (target : Target) (compound : Option (BinaryOp × Bool))
    (right : (Value → Plan α) → Plan α) (rest : Value → Plan α) : Plan α :=
  match compound with
  | none => right rest
  | some (op, isString) =>
    build target.read (by simp) fun v ↦
    build (beginBinary op isString v) (by simp) fun pending ↦
    right fun w ↦
    build (finishBinary pending w) (by simp) rest

def assignment (left : Expr) (compound : Except Failure (Option (BinaryOp × Bool)))
    (right : (Value → Plan α) → Plan α) (rest : Target → Value → Plan α) : Plan α :=
  match compound with
  | .error e => fail e
  | .ok compound =>
    part (.target left) fun target ↦
    assignedValue target compound right (rest target)

/-- The right side of an update. -/
def one (rest : Value → Plan α) : Plan α := build (literal (.number .one)) (by simp) rest

/-- A write to the local of a name, or else to a global. -/
def store (name : String) (value : (Value → Plan Unit) → Plan Unit) : Option Local → Plan Unit
  | some l => value fun v ↦ build (setLocal l.register v) (by simp) done
  | none =>
    step (Lower.addGlobal name) (Lower.still_addGlobal name) fun _ ↦
    build (globalTarget name) (by simp) fun target ↦
    value fun v ↦
    build (target.assign v) (by simp) done

/-- Ask which local a name has in the innermost function. -/
def findLocal (name : String) (rest : Option Local → Plan α) : Plan α :=
  step (do return (← get).current.local? name)
    (Lower.still_bind Lower.still_get fun _ ↦ Lower.still_pure _) rest

end Plan

open Plan in
/-- What is done to lower a task, step by step and part by part. -/
def Task.plan (types : TypeOracle) : (task : Task) → Plan task.Result
  | expr (.literal l) => build (literal l) (by simp) done
  | expr (.identifier name) => last (Lower.lookup types name) (Lower.still_lookup types name)
  | expr .this => last Lower.lookupThis Lower.still_lookupThis
  | expr (.object properties) =>
    build (newTable 0 properties.length) (by simp) fun table ↦
    part (.objectProperties table properties) fun _ ↦
    done (.register table)
  | expr (.array elements) =>
    if maxArrayLength < elements.length then fail (.unimplemented .arrayLimit)
    else
      build (newTable (elements.length - 1) (min elements.length 1)) (by simp) fun table ↦
      match elements with
      | [] => done (.register table)
      | none :: rest =>
        part (.arrayItems table 0 1 rest) fun _ ↦
        done (.register table)
      | some first :: rest =>
        part (.arrayItems table 0 1 rest) fun _ ↦
        part (.expr first) fun v ↦
        build (setFirst table v) (by simp) fun _ ↦
        done (.register table)
  | expr (.member object name) =>
    part (.expr object) fun v ↦
    build (toTable v) (by simp) fun owner ↦
    last (Lower.withOwner owner.toValue (Lower.lookup types name))
      (Lower.still_field types owner name)
  | expr (.index object key) =>
    part (.expr object) fun v ↦
    build (toTable v) (by simp) fun owner ↦
    part (.expr key) fun w ↦
    build (toKey w) (by simp) fun key ↦
    done (.member owner.toValue key)
  | expr (.unary op operand) =>
    match op.opcode? with
    | some opcode =>
      part (.expr operand) fun v ↦
      build (unary opcode v) (by simp) done
    | none => fail (.unsupported (.unary op))
  | expr (.binary op left right) =>
    part (.expr left) fun v ↦
    build (beginBinary op (op == .add && types.isString (.binary op left right)) v) (by simp)
      fun pending ↦
    part (.expr right) fun w ↦
    build (finishBinary pending w) (by simp) done
  | expr (.call callee args) => callWith callee args .single fun base ↦ done (.register base)
  | expr (.assign op left right) =>
    assignment left (op.compound types left right) (part (.expr right)) fun target v ↦
    build (target.assignValue v) (by simp) done
  | expr (.update op form operand) =>
    assignment operand (op.compound form) one fun target v ↦
    build (target.assignValue v) (by simp) done
  | expr (.function _ params body) => part (.function params body) done
  | expr (.arrow params (.block body)) => part (.function params body) done
  | expr (.arrow _ (.expression _)) => fail (.unimplemented .expressionArrow)
  | expr (.conditional test consequent alternate) =>
    fail (.unsupported (.node (Expr.conditional test consequent alternate).kind))
  | expr (.new callee args) => fail (.unsupported (.node (Expr.new callee args).kind))
  | expr (.sequence parts) => fail (.unsupported (.node (Expr.sequence parts).kind))
  | arguments [] => done false
  | arguments [.call callee args] => callWith callee args .forward fun _ ↦ done true
  | arguments (arg :: args) =>
    part (.expr arg) fun v ↦
    build (item v) (by simp) fun _ ↦
    part (.arguments args) done
  | propertyKey (.identifier name) =>
    build (stringIndex name) (by simp) fun k ↦ done (.constant k)
  | propertyKey (.literal l) =>
    match l.constant? with
    | some k => build (constantIndex k) (by simp) fun k ↦ done (.constant k)
    | none => fail (.unsupported .propertyKey)
  | propertyKey (.computed key) => part (.expr key) done
  | objectProperties _ [] => done ()
  | objectProperties table (⟨key, value⟩ :: properties) =>
    part (.propertyKey key) fun v ↦
    build (toOperand v) (by simp) fun x ↦
    part (.expr value) fun w ↦
    build (toOperand w) (by simp) fun y ↦
    build (setField table x y) (by simp) fun _ ↦
    part (.objectProperties table properties) done
  | arrayItem (some e) => part (.expr e) fun v ↦ build (item v) (by simp) done
  | arrayItem none => build hole (by simp) done
  | arrayItems table pending batch [] =>
    if 0 < pending then build (storeBatch table pending batch) (by simp) done else done ()
  | arrayItems table pending batch (element :: elements) =>
    part (.arrayItem element) fun _ ↦
    if pending + 1 = batchSize then
      build (storeBatch table (pending + 1) batch) (by simp) fun _ ↦
      part (.arrayItems table 0 (batch + 1) elements) done
    else part (.arrayItems table (pending + 1) batch elements) done
  | target (.identifier name) => last (Lower.nameTarget name) (Lower.still_nameTarget name)
  | target (.member object name) =>
    part (.expr object) fun v ↦
    build (toTable v) (by simp) fun owner ↦
    build (stringIndex name) (by simp) fun k ↦
    build (toOperand (.constant k)) (by simp) fun key ↦
    done (.member owner key)
  | target (.index object key) =>
    part (.expr object) fun v ↦
    build (toTable v) (by simp) fun owner ↦
    part (.expr key) fun w ↦
    build (toOperand w) (by simp) fun key ↦
    done (.member owner key)
  | target e => fail (.unsupported (.target e.kind))
  | declarator kind ⟨name, some init⟩ => findLocal name fun found ↦
    if found.isNone ∧ kind.bindsLocal then
      part (.expr init) fun v ↦
      Plan.bind name (kind == .const) (inNewRegister v) (givesRegister_inNewRegister v) ()
    else store name (part (.expr init)) found
  | declarator kind ⟨name, none⟩ => findLocal name fun found ↦
    match found with
    | some l =>
      if kind.bindsLocal then build (loadNil l.register) (by simp) done else done ()
    | none =>
      if kind.bindsLocal then Plan.bind name (kind == .const) newNil givesRegister_newNil ()
      else last (Lower.addGlobal name) (Lower.still_addGlobal name)
  | declarators _ [] => done ()
  | declarators kind (d :: ds) =>
    part (.declarator kind d) fun _ ↦
    part (.declarators kind ds) done
  | function params body => enter params body done
  | statement .empty => done ()
  | statement (.declaration kind ds) => part (.declarators kind ds) done
  | statement (.function name params body) =>
    findLocal name (store name (part (.function params body)))
  | statement (.expression (.call callee args)) => callWith callee args .discard fun _ ↦ done ()
  | statement (.expression (.assign op left right)) =>
    assignment left (op.compound types left right) (part (.expr right)) fun target v ↦
    build (target.assign v) (by simp) done
  | statement (.expression (.update op form operand)) =>
    assignment operand (op.compound form) one fun target v ↦
    build (target.assign v) (by simp) done
  | statement (.expression e) => part (.expr e) fun v ↦ build (drop v) (by simp) done
  | statement (.ret (some value)) => part (.expr value) fun v ↦ build (returnValue v) (by simp) done
  | statement (.ret none) => build returnNone (by simp) done
  | statement s => fail (.unsupported (.node s.kind))
  | statements [] => done ()
  | statements (s :: rest) =>
    part (.statement s) fun _ ↦
    build settle (by simp) fun _ ↦
    part (.statements rest) done

/-! ## Running a plan -/

namespace Plan

variable {α β : Type} (types : TypeOracle)

@[simp] theorem run_done (a : α) : (done a).run types = pure a := rfl

@[simp] theorem run_fail (e : Failure) : (fail e : Plan α).run types = throw e := rfl

@[simp] theorem run_part (task : Task) (rest : task.Result → Plan α) :
    (part task rest).run types = task.lower types >>= fun b ↦ (rest b).run types := rfl

@[simp] theorem run_build (x : Build β) (neutral : x.Neutral) (rest : β → Plan α) :
    (build x neutral rest).run types = Lower.onCurrent x >>= fun b ↦ (rest b).run types := rfl

@[simp] theorem run_last (x : Lower α) (still : x.Still) : (last x still).run types = x :=
  bind_pure x

@[simp] theorem run_callWith (callee : Expr) (args : List Expr) (use : ResultUse)
    (rest : Nat → Plan α) :
    (callWith callee args use rest).run types =
      Lower.callWith (Lower.expr types callee) (Lower.arguments types args) args.length use >>=
        fun base ↦ (rest base).run types := by
  simp [callWith, Lower.callWith, Task.lower]

theorem run_assignment {right : (Value → Plan α) → Plan α} {x : Lower Value}
    (hright : ∀ rest, (right rest).run types = x >>= fun v ↦ (rest v).run types) (left : Expr)
    (compound : Except Failure (Option (BinaryOp × Bool))) (rest : Target → Value → Plan α) :
    (assignment left compound right rest).run types = (do
      let compound ← MonadExcept.ofExcept compound
      let (target, value) ← Lower.assignment (Lower.target types left) compound x
      (rest target value).run types) := by
  cases compound with
  | error e => rfl
  | ok compound =>
    cases compound with
    | none =>
      simp [assignment, assignedValue, Lower.assignment, Lower.assignedValue, Task.lower, hright,
        MonadExcept.ofExcept]
    | some compound =>
      simp [assignment, assignedValue, Lower.assignment, Lower.assignedValue, Task.lower, hright,
        MonadExcept.ofExcept, Lower.binary]

@[simp] theorem run_one (rest : Value → Plan α) :
    (one rest).run types =
      Lower.onCurrent (literal (.number .one)) >>= fun v ↦ (rest v).run types := rfl

@[simp] theorem run_findLocal (name : String) (rest : Option Local → Plan α) :
    (findLocal name rest).run types = get >>= fun s ↦ (rest (s.current.local? name)).run types := by
  simp [findLocal, run]

@[simp] theorem run_bind (name : String) (isConst : Bool) (x : Build Nat) (gives : x.GivesRegister)
    (a : α) :
    (Plan.bind name isConst x gives a).run types = (do
      let r ← Lower.onCurrent x
      Lower.onCurrent (bindLocal name r isConst)
      return a) := by
  simp [run, Lower.onCurrent_bind]

theorem run_store (value : (Value → Plan Unit) → Plan Unit) {x : Lower Value}
    (hvalue : ∀ rest, (value rest).run types = x >>= fun v ↦ (rest v).run types) (name : String)
    (found : Option Local) :
    (store name value found).run types =
      match found with
      | some l => x >>= fun v ↦ Lower.onCurrent (setLocal l.register v)
      | none => Lower.addGlobal name >>= fun _ ↦ Lower.setGlobal name x := by
  cases found with
  | some l => simp [store, hvalue]
  | none => simp [store, run, hvalue, Lower.setGlobal]

end Plan

namespace Task

variable (types : TypeOracle)

theorem run_plan_expr (e : Expr) : ((expr e).plan types).run types = Lower.expr types e := by
  cases e with
  | array elements =>
    rw [Lower.expr, plan]
    split
    · rfl
    · rcases elements with - | ⟨- | first, rest⟩ <;> simp [lower]
  | binary op left right => simp [plan, Lower.expr, Lower.binary, lower]
  | unary op operand => cases h : op.opcode? <;> simp [plan, Lower.expr, lower, h]
  | assign op left right =>
    rw [plan, Plan.run_assignment types fun _ ↦ rfl]
    simp [Lower.expr, lower]
  | update op form operand =>
    rw [plan, Plan.run_assignment types (Plan.run_one types)]
    simp [Lower.expr]
  | arrow params body => cases body <;> simp [plan, Lower.expr, lower]
  | _ => simp [plan, Lower.expr, lower]

theorem run_plan_arguments (args : List Expr) :
    ((arguments args).plan types).run types = Lower.arguments types args := by
  rcases args with - | ⟨arg, - | ⟨next, args⟩⟩
  · simp [plan, Lower.arguments]
  · cases arg <;> simp [plan, Lower.arguments, lower]
  · simp [plan, Lower.arguments, lower]

theorem run_plan_declarator (kind : DeclKind) (d : Declarator) :
    ((declarator kind d).plan types).run types = (declarator kind d).lower types := by
  obtain ⟨name, init⟩ := d
  cases init with
  | none =>
    rw [plan, Plan.run_findLocal, lower, Option.map_none, Lower.declare]
    congr! with s
    cases s.current.local? name with
    | some l =>
      simp only
      split <;> simp
    | none =>
      simp only
      split <;> simp [Lower.initialValue]
  | some init =>
    rw [plan, Plan.run_findLocal, lower, Option.map_some, Lower.declare]
    congr! with s
    have hstore := Plan.run_store types (.part (.expr init)) (fun _ ↦ rfl) name
    cases s.current.local? name with
    | some l => simp [hstore, lower]
    | none => cases kind.bindsLocal <;> simp [hstore, lower, Lower.initialValue]

theorem run_plan_statement (s : Stmt) :
    ((statement s).plan types).run types = Lower.statement types s := by
  cases s with
  | function name params body =>
    rw [plan, Plan.run_findLocal, Lower.statement, Lower.declareFunction]
    congr! with s
    rw [Plan.run_store types _ fun _ ↦ rfl]
    cases s.current.local? name <;> rfl
  | expression e =>
    cases e with
    | assign op left right =>
      rw [plan, Plan.run_assignment types fun _ ↦ rfl]
      simp [Lower.statement, lower]
    | update op form operand =>
      rw [plan, Plan.run_assignment types (Plan.run_one types)]
      simp [Lower.statement]
    | _ => simp [plan, Lower.statement, lower]
  | ret value => cases value <;> simp [plan, Lower.statement, lower]
  | _ => simp [plan, Lower.statement, lower]

/-- Running the plan of a task is lowering it. -/
theorem run_plan (task : Task) : (task.plan types).run types = task.lower types := by
  cases task with
  | expr e => exact run_plan_expr types e
  | arguments args => exact run_plan_arguments types args
  | propertyKey key =>
    cases key with
    | literal l => cases h : l.constant? <;> simp [plan, Lower.propertyKey, lower, h]
    | _ => simp [plan, Lower.propertyKey, lower]
  | objectProperties table properties =>
    rcases properties with - | ⟨⟨key, value⟩, properties⟩ <;>
      simp [plan, Lower.objectProperties, Lower.property, lower]
  | arrayItem element => cases element <;> simp [plan, Lower.arrayItem, lower]
  | arrayItems table pending batch elements =>
    cases elements with
    | nil =>
      rw [plan, lower, Lower.arrayItems]
      split <;> simp
    | cons element elements =>
      rw [plan, lower, Lower.arrayItems]
      split <;> simp [lower]
  | target e => cases e <;> simp [plan, Lower.target, lower]
  | declarator kind d => exact run_plan_declarator types kind d
  | declarators kind ds =>
    rcases ds with - | ⟨⟨name, - | init⟩, ds⟩ <;> simp [plan, Lower.declarators, lower]
  | function params body => exact bind_pure _
  | statement s => exact run_plan_statement types s
  | statements body => cases body <;> simp [plan, Lower.statements, lower]

end Task

end LuaLower
