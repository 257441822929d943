import LuaLower.Binary64
import LuaLower.Syntax.Operator

/-!
# Syntax trees

The tree covers more of the source language than can be compiled, so that whatever is refused can
be named.
-/

namespace LuaLower

inductive Literal where
  | number (value : Binary64)
  | string (value : String)
  | boolean (value : Bool)
  | null
  | bigint (digits : String)
  | regex (pattern flags : String)
  deriving DecidableEq, Repr, Inhabited

inductive DeclKind where
  | var
  | let
  | const
  deriving DecidableEq, Repr, Inhabited

/-- `let` and `const` bind a local of the enclosing function, `var` a global. -/
def DeclKind.bindsLocal : DeclKind → Bool
  | .var => false
  | .let | .const => true

/-- Where the operator of an update stands. Before its operand it yields the new value, after it
the old one. -/
inductive UpdateForm where
  | before
  | after
  deriving DecidableEq, Repr, Inhabited

mutual

inductive Expr where
  | literal (value : Literal)
  | identifier (name : String)
  | this
  /-- `none` is a hole. -/
  | array (elements : List (Option Expr))
  | object (properties : List Property)
  | binary (op : BinaryOp) (left right : Expr)
  | unary (op : UnaryOp) (operand : Expr)
  | assign (op : AssignOp) (target value : Expr)
  | call (callee : Expr) (args : List Expr)
  /-- `object.name` -/
  | member (object : Expr) (name : String)
  /-- `object[key]` -/
  | index (object key : Expr)
  | conditional (test consequent alternate : Expr)
  | function (name : Option String) (params : List String) (body : List Stmt)
  | arrow (params : List String) (body : ArrowBody)
  | new (callee : Expr) (args : List Expr)
  | update (op : UpdateOp) (form : UpdateForm) (target : Expr)
  | sequence (parts : List Expr)

structure Property where
  key : PropertyKey
  value : Expr

inductive PropertyKey where
  | identifier (name : String)
  | literal (value : Literal)
  | computed (key : Expr)

inductive ArrowBody where
  | expression (value : Expr)
  | block (body : List Stmt)

inductive Stmt where
  | declaration (kind : DeclKind) (declarators : List Declarator)
  | function (name : String) (params : List String) (body : List Stmt)
  | expression (value : Expr)
  | ret (value : Option Expr)
  | block (body : List Stmt)
  | cond (test : Expr) (consequent : Stmt) (alternate : Option Stmt)
  | while (test : Expr) (body : Stmt)
  | for (init : Option Stmt) (test update : Option Expr) (body : Stmt)
  | break
  | continue
  | throw (value : Expr)
  | class (name : String) (methods : List Method)
  | empty

structure Declarator where
  name : String
  init : Option Expr

structure Method where
  name : String
  params : List String
  body : List Stmt

end

def Expr.kind : Expr → String
  | .literal _ => "literal"
  | .identifier _ => "identifier"
  | .this => "this"
  | .array _ => "array literal"
  | .object _ => "object literal"
  | .binary .. => "binary expression"
  | .unary .. => "unary expression"
  | .assign .. => "assignment"
  | .call .. => "call expression"
  | .member .. | .index .. => "member expression"
  | .conditional .. => "conditional expression"
  | .function .. => "function expression"
  | .arrow .. => "arrow function"
  | .new .. => "new expression"
  | .update .. => "update expression"
  | .sequence _ => "sequence expression"

def Stmt.kind : Stmt → String
  | .declaration .. => "variable declaration"
  | .function .. => "function declaration"
  | .expression _ => "expression statement"
  | .ret _ => "return statement"
  | .block _ => "block statement"
  | .cond .. => "if statement"
  | .while .. => "while statement"
  | .for .. => "for statement"
  | .break => "break statement"
  | .continue => "continue statement"
  | .throw _ => "throw statement"
  | .class .. => "class declaration"
  | .empty => "empty statement"

inductive Root where
  | program (body : List Stmt)
  | bundle (programs : List (List Stmt))
  /-- Text taken over verbatim. -/
  | unparsed (text : String)

end LuaLower
