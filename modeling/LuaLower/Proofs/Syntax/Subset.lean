import LuaLower.Syntax.Basic

/-!
# The compiled subset of the language

Which syntax trees are meant to be compiled, said of the trees alone.
-/

namespace LuaLower

def BinaryOp.isSupported : BinaryOp → Bool
  | .nullish | .inside | .instanceOf => false
  | _ => true

def UnaryOp.isSupported : UnaryOp → Bool
  | .minus | .bitNot | .not => true
  | _ => false

def AssignOp.isSupported : AssignOp → Bool
  | .and | .or | .nullish => false
  | _ => true

def UpdateForm.isSupported : UpdateForm → Bool
  | .before => true
  | .after => false

def Literal.isSupported : Literal → Bool
  | .number _ | .string _ | .boolean _ | .null => true
  | .bigint _ | .regex .. => false

/-- Whether a literal can stand for the key of a property. -/
def Literal.isKey : Literal → Bool
  | .number _ | .string _ => true
  | _ => false

/-- Whether an expression can be assigned to. -/
def Expr.isTarget : Expr → Bool
  | .identifier _ | .member .. | .index .. => true
  | _ => false

mutual

def Expr.isSupported : Expr → Bool
  | .literal l => l.isSupported
  | .identifier _ | .this => true
  | .object properties => propertiesSupported properties
  | .array elements => elements.length ≤ 511 && itemsSupported elements
  | .member object _ => object.isSupported
  | .index object key => object.isSupported && key.isSupported
  | .unary op operand => op.isSupported && operand.isSupported
  | .binary op left right => op.isSupported && (left.isSupported && right.isSupported)
  | .call callee args => callee.isSupported && argumentsSupported args
  | .assign op target value =>
    op.isSupported && (target.isTarget && target.isSupported && value.isSupported)
  | .update _ form target => form.isSupported && (target.isTarget && target.isSupported)
  | .function _ _ body => statementsSupported body
  | .arrow _ (.block body) => statementsSupported body
  | .arrow _ (.expression _) => false
  | .conditional .. | .new .. | .sequence _ => false

def argumentsSupported : List Expr → Bool
  | [] => true
  | arg :: args => arg.isSupported && argumentsSupported args

def PropertyKey.isSupported : PropertyKey → Bool
  | .identifier _ => true
  | .literal l => l.isKey
  | .computed key => key.isSupported

def propertiesSupported : List Property → Bool
  | [] => true
  | ⟨key, value⟩ :: properties =>
    key.isSupported && value.isSupported && propertiesSupported properties

def itemSupported : Option Expr → Bool
  | some e => e.isSupported
  | none => true

def itemsSupported : List (Option Expr) → Bool
  | [] => true
  | item :: items => itemSupported item && itemsSupported items

def declaratorsSupported : List Declarator → Bool
  | [] => true
  | ⟨_, some init⟩ :: rest => init.isSupported && declaratorsSupported rest
  | ⟨_, none⟩ :: rest => declaratorsSupported rest

def Stmt.isSupported : Stmt → Bool
  | .empty => true
  | .declaration _ declarators => declaratorsSupported declarators
  | .function _ _ body => statementsSupported body
  | .expression e => e.isSupported
  | .ret (some e) => e.isSupported
  | .ret none => true
  | _ => false

def statementsSupported : List Stmt → Bool
  | [] => true
  | s :: rest => s.isSupported && statementsSupported rest

end

end LuaLower
