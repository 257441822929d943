import LuaLower.OpenFunction.Basic
import LuaLower.Proofs.Semantics.Machine
import LuaLower.Typing

/-!
# Evaluation without effects

Expressions that only read, and function bodies that only declare and assign locals before they
return, have a value that depends on the variables alone. A name means, in this order, a local, a
captured variable, one of three names for constants, or a field of the table of globals.
-/

namespace LuaLower

/-! ## The language without effects -/

def Literal.isPure : Literal → Bool
  | .number _ | .string _ | .boolean _ | .null => true
  | .bigint _ | .regex _ _ => false

def UnaryOp.isPure : UnaryOp → Bool
  | .minus | .bitNot | .not => true
  | .plus | .typeOf | .void | .delete => false

def BinaryOp.isPure : BinaryOp → Bool
  | .nullish | .inside | .instanceOf => false
  | _ => true

def Expr.isPure : Expr → Bool
  | .literal l => l.isPure
  | .identifier _ | .this => true
  | .member owner _ => owner.isPure
  | .index owner key => owner.isPure && key.isPure
  | .unary op operand => op.isPure && operand.isPure
  | .binary op left right => op.isPure && left.isPure && right.isPure
  | _ => false

/-- An initial value may be missing. -/
def Declarator.isPure (d : Declarator) : Bool := d.init.all Expr.isPure

/-- Bodies of declarations and assignments that end in a return, given the names declared before. -/
def isPureBody (declared : List String) : List Stmt → Bool
  | [.ret (some e)] => e.isPure
  | .declaration kind ds :: rest =>
    kind != .var && ds.all Declarator.isPure && isPureBody (ds.map Declarator.name ++ declared) rest
  | .expression (.assign _ (.identifier x) e) :: rest =>
    declared.contains x && e.isPure && isPureBody declared rest
  | _ => false

/-! ## Values -/

variable {V : Type}

@[ext] structure Scope (V : Type) where
  locals : String → Option V
  captured : String → Bool
  /-- The captured variables, and the table of globals under its own name. -/
  outer : String → V

namespace Scope

def bind (scope : Scope V) (x : String) (v : V) : Scope V :=
  { scope with locals := Function.update scope.locals x (some v) }

def find? (scope : Scope V) (x : String) : Option V :=
  scope.locals x <|> if scope.captured x then some (scope.outer x) else none

def globals (scope : Scope V) : V := scope.outer envName

def this (scope : Scope V) : V := (scope.find? "this").getD scope.globals

/-- The parameters of a call, of which the later of two with one name hides the earlier. -/
def ofParams (captured : String → Bool) (outer : String → V) (params : List String)
    (args : Nat → V) : Scope V :=
  params.zipIdx.foldl (fun scope p ↦ scope.bind p.1 (args p.2)) ⟨fun _ ↦ none, captured, outer⟩

end Scope

namespace Meaning

def literal (m : Meaning V) : Literal → V
  | .number x => m.constant (.ofNumber x)
  | .string s => m.constant (.string s)
  | .boolean b => m.boolean b
  | _ => m.nil

def named? (m : Meaning V) (x : String) : Option V :=
  match x with
  | "undefined" => some m.nil
  | "NaN" => some (m.constant (.float .nan))
  | "Infinity" => some (m.constant (.float .infinity))
  | _ => none

def field (m : Meaning V) (table : V) (name : String) : V :=
  m.index table (m.constant (.string name))

def name (m : Meaning V) (scope : Scope V) (x : String) : V :=
  match scope.find? x, m.named? x with
  | some v, _ => v
  | none, some v => v
  | none, none => m.field scope.globals x

def unary (m : Meaning V) : UnaryOp → V → V
  | .minus, v => m.minus v
  | .bitNot, v => m.bnot v
  | .not, v => m.not v
  | _, _ => m.nil

/-- An operation on two values; `joins` tells whether a sum joins strings. Of a logical operator it
is the value that decides. -/
def binary (m : Meaning V) (op : BinaryOp) (joins : Bool) (x y : V) : V :=
  match op with
  | .add => if joins then m.concat x y else m.add x y
  | .sub => m.sub x y
  | .mul => m.mul x y
  | .div => m.div x y
  | .mod => m.mod x y
  | .exp => m.pow x y
  | .bitAnd => m.band x y
  | .bitOr => m.bor x y
  | .bitXor => m.bxor x y
  | .shl => m.shl x y
  | .shr | .ushr => m.shr x y
  | .eq | .strictEq => m.boolean (m.eq x y)
  | .ne | .strictNe => m.boolean (!m.eq x y)
  | .lt => m.boolean (m.lt x y)
  | .le => m.boolean (m.le x y)
  | .gt => m.boolean (m.lt y x)
  | .ge => m.boolean (m.le y x)
  | .and => if m.truthy x then y else x
  | .or => if m.truthy x then x else y
  | .nullish | .inside | .instanceOf => m.nil

def eval (m : Meaning V) (types : TypeOracle) (scope : Scope V) : Expr → V
  | .literal l => m.literal l
  | .identifier x => m.name scope x
  | .this => scope.this
  | .member owner name => m.field (m.eval types scope owner) name
  | .index owner key => m.index (m.eval types scope owner) (m.eval types scope key)
  | .unary op operand => m.unary op (m.eval types scope operand)
  | .binary op left right =>
    m.binary op (types.isString (.binary op left right)) (m.eval types scope left)
      (m.eval types scope right)
  | _ => m.nil

/-- The value that an assignment to a local writes. -/
def assigned (m : Meaning V) (types : TypeOracle) (scope : Scope V) (op : AssignOp) (x : String)
    (e : Expr) : V :=
  match op.binary? with
  | none => m.eval types scope e
  | some op => m.binary op (types.isString (.identifier x) || types.isString e)
    ((scope.locals x).getD m.nil) (m.eval types scope e)

def declare (m : Meaning V) (types : TypeOracle) (scope : Scope V) (d : Declarator) : Scope V :=
  scope.bind d.name (d.init.elim m.nil (m.eval types scope))

/-- The value that a body returns. -/
def evalBody (m : Meaning V) (types : TypeOracle) (scope : Scope V) : List Stmt → V
  | [.ret (some e)] => m.eval types scope e
  | .declaration _ ds :: rest => m.evalBody types (ds.foldl (m.declare types) scope) rest
  | .expression (.assign op (.identifier x) e) :: rest =>
    m.evalBody types (scope.bind x (m.assigned types scope op x e)) rest
  | _ => m.nil

end Meaning

end LuaLower
