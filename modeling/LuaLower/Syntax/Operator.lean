/-!
# Operators of the source language

Every operator the grammar knows, with its spelling. Which of them can be compiled is decided
where they are lowered.
-/

namespace LuaLower

inductive BinaryOp where
  | add | sub | mul | div | mod | exp
  | eq | ne | strictEq | strictNe | lt | le | gt | ge
  | and | or | nullish
  | bitAnd | bitOr | bitXor | shl | shr | ushr
  | inside | instanceOf
  deriving DecidableEq, Repr, Inhabited

namespace BinaryOp

def all : List BinaryOp :=
  [.add, .sub, .mul, .div, .mod, .exp,
   .eq, .ne, .strictEq, .strictNe, .lt, .le, .gt, .ge,
   .and, .or, .nullish,
   .bitAnd, .bitOr, .bitXor, .shl, .shr, .ushr,
   .inside, .instanceOf]

def symbol : BinaryOp → String
  | .add => "+"
  | .sub => "-"
  | .mul => "*"
  | .div => "/"
  | .mod => "%"
  | .exp => "**"
  | .eq => "=="
  | .ne => "!="
  | .strictEq => "==="
  | .strictNe => "!=="
  | .lt => "<"
  | .le => "<="
  | .gt => ">"
  | .ge => ">="
  | .and => "&&"
  | .or => "||"
  | .nullish => "??"
  | .bitAnd => "&"
  | .bitOr => "|"
  | .bitXor => "^"
  | .shl => "<<"
  | .shr => ">>"
  | .ushr => ">>>"
  | .inside => "in"
  | .instanceOf => "instanceof"

def ofSymbol? (s : String) : Option BinaryOp := all.find? fun op ↦ op.symbol == s

end BinaryOp

inductive UnaryOp where
  | minus | plus | not | bitNot | typeOf | void | delete
  deriving DecidableEq, Repr, Inhabited

namespace UnaryOp

def all : List UnaryOp := [.minus, .plus, .not, .bitNot, .typeOf, .void, .delete]

def symbol : UnaryOp → String
  | .minus => "-"
  | .plus => "+"
  | .not => "!"
  | .bitNot => "~"
  | .typeOf => "typeof"
  | .void => "void"
  | .delete => "delete"

def ofSymbol? (s : String) : Option UnaryOp := all.find? fun op ↦ op.symbol == s

end UnaryOp

inductive AssignOp where
  | plain
  | add | sub | mul | div | mod | exp
  | shl | shr | ushr | bitAnd | bitOr | bitXor
  | and | or | nullish
  deriving DecidableEq, Repr, Inhabited

namespace AssignOp

def all : List AssignOp :=
  [.plain, .add, .sub, .mul, .div, .mod, .exp, .shl, .shr, .ushr, .bitAnd, .bitOr, .bitXor,
   .and, .or, .nullish]

def binary? : AssignOp → Option BinaryOp
  | .plain => none
  | .add => some .add
  | .sub => some .sub
  | .mul => some .mul
  | .div => some .div
  | .mod => some .mod
  | .exp => some .exp
  | .shl => some .shl
  | .shr => some .shr
  | .ushr => some .ushr
  | .bitAnd => some .bitAnd
  | .bitOr => some .bitOr
  | .bitXor => some .bitXor
  | .and => some .and
  | .or => some .or
  | .nullish => some .nullish

/-- A compound assignment is spelt as its operator followed by an equals sign. -/
def symbol (op : AssignOp) : String :=
  match op.binary? with
  | none => "="
  | some b => b.symbol ++ "="

def ofSymbol? (s : String) : Option AssignOp := all.find? fun op ↦ op.symbol == s

end AssignOp

inductive UpdateOp where
  | increment
  | decrement
  deriving DecidableEq, Repr, Inhabited

namespace UpdateOp

def symbol : UpdateOp → String
  | .increment => "++"
  | .decrement => "--"

def ofSymbol? (s : String) : Option UpdateOp :=
  [increment, decrement].find? fun op ↦ op.symbol == s

def binary : UpdateOp → BinaryOp
  | .increment => .add
  | .decrement => .sub

end UpdateOp

end LuaLower
