import LuaLower.Lowering.Parts

/-!
# Lowering of syntax trees

The recursion over the tree. The parts of a construct are lowered in the order in which they are
evaluated; constructs outside the compiled subset are refused.
-/

namespace LuaLower

/-- The globals that a statement declares: variables declared by `var`, and functions. -/
def Stmt.hoistedNames : Stmt → List String
  | .declaration .var declarators => declarators.map Declarator.name
  | .function name .. => [name]
  | _ => []

namespace Lower

open Build

def hoist (body : List Stmt) : Lower Unit :=
  modify fun s ↦ { s with names := (body.flatMap Stmt.hoistedNames).foldl Names.addGlobal s.names }

variable (types : TypeOracle)

mutual

def expr : Expr → Lower Value
  | .literal l => literal l
  | .identifier name => lookup types name
  | .this => lookupThis
  | .object properties => do
    let table ← newTable 0 properties.length
    objectProperties table properties
    return .register table
  | .array elements =>
    if maxArrayLength < elements.length then throw (.unimplemented .arrayLimit)
    else do
      let table ← newTable (elements.length - 1) (min elements.length 1)
      match elements with
      | [] => return .register table
      | none :: rest =>
        arrayItems table 0 1 rest
        return .register table
      | some first :: rest =>
        arrayItems table 0 1 rest
        setFirst table (← expr first)
        return .register table
  | .member object name => do
    let owner ← toTable (← expr object)
    withOwner owner.toValue (lookup types name)
  | .index object key => do
    let owner ← toTable (← expr object)
    let key ← toKey (← expr key)
    return .member owner.toValue key
  | .unary op operand =>
    match op.opcode? with
    | some opcode => do unary opcode (← expr operand)
    | none => throw (.unsupported (.unary op))
  | .binary op left right =>
    binary op (op == .add && types.isString (.binary op left right)) (expr left) (expr right)
  | .call callee args => do
    let base ← callWith (expr callee) (arguments args) args.length .single
    return .register base
  | .assign op left right => do
    let compound ← MonadExcept.ofExcept (op.compound types left right)
    let (target, value) ← assignment (target left) compound (expr right)
    target.assignValue value
  | .update op form operand => do
    let compound ← MonadExcept.ofExcept (op.compound form)
    let (target, value) ← assignment (target operand) compound (literal (.number .one))
    target.assignValue value
  | .function _ params body => function params do
    hoist body
    statements body
  | .arrow params (.block body) => function params do
    hoist body
    statements body
  | .arrow _ (.expression _) => throw (.unimplemented .expressionArrow)
  | .conditional test consequent alternate =>
    throw (.unsupported (.node (Expr.conditional test consequent alternate).kind))
  | .new callee args => throw (.unsupported (.node (Expr.new callee args).kind))
  | .sequence parts => throw (.unsupported (.node (Expr.sequence parts).kind))

/-- Lower arguments into consecutive registers. The results of a last argument that is a call are
all passed on; the answer is whether that is so. -/
def arguments : List Expr → Lower Bool
  | [] => return false
  | [.call callee args] => do
    let _ ← callWith (expr callee) (arguments args) args.length .forward
    return true
  | arg :: args => do
    item (← expr arg)
    arguments args

def propertyKey : PropertyKey → Lower Value
  | .identifier name => return .constant (← stringIndex name)
  | .literal l =>
    match l.constant? with
    | some k => return .constant (← constantIndex k)
    | none => throw (.unsupported .propertyKey)
  | .computed key => expr key

def objectProperties (table : Nat) : List Property → Lower Unit
  | [] => return
  | ⟨key, value⟩ :: properties => do
    property table (propertyKey key) (expr value)
    objectProperties table properties

def arrayItem : Option Expr → Lower Unit
  | some e => do item (← expr e)
  | none => hole

/-- Lower the list items of an array, of which `pending` are waiting above the table to become its
`batch`-th group. -/
def arrayItems (table pending batch : Nat) : List (Option Expr) → Lower Unit
  | [] => if 0 < pending then storeBatch table pending batch else return
  | element :: elements => do
    arrayItem element
    if pending + 1 = batchSize then
      storeBatch table (pending + 1) batch
      arrayItems table 0 (batch + 1) elements
    else
      arrayItems table (pending + 1) batch elements

def target : Expr → Lower Target
  | .identifier name => nameTarget name
  | .member object name => do
    let owner ← toTable (← expr object)
    let key ← toOperand (.constant (← stringIndex name))
    return .member owner key
  | .index object key => do
    let owner ← toTable (← expr object)
    let key ← toOperand (← expr key)
    return .member owner key
  | e => throw (.unsupported (.target e.kind))

def declarators (kind : DeclKind) : List Declarator → Lower Unit
  | [] => return
  | ⟨name, some init⟩ :: rest => do
    declare kind name (some (expr init))
    declarators kind rest
  | ⟨name, none⟩ :: rest => do
    declare kind name none
    declarators kind rest

def statement : Stmt → Lower Unit
  | .empty => return
  | .declaration kind ds => declarators kind ds
  | .function name params body => declareFunction name <| function params do
    hoist body
    statements body
  | .expression (.call callee args) => do
    let _ ← callWith (expr callee) (arguments args) args.length .discard
  | .expression (.assign op left right) => do
    let compound ← MonadExcept.ofExcept (op.compound types left right)
    let (target, value) ← assignment (target left) compound (expr right)
    target.assign value
  | .expression (.update op form operand) => do
    let compound ← MonadExcept.ofExcept (op.compound form)
    let (target, value) ← assignment (target operand) compound (literal (.number .one))
    target.assign value
  | .expression e => do drop (← expr e)
  | .ret (some value) => do returnValue (← expr value)
  | .ret none => returnNone
  | s => throw (.unsupported (.node s.kind))

def statements : List Stmt → Lower Unit
  | [] => return
  | s :: rest => do
    statement s
    settle
    statements rest

end

def block (body : List Stmt) : Lower Unit := do
  hoist body
  statements types body

end Lower

end LuaLower
