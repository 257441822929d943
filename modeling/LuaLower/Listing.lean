import LuaLower.Decimal.Layout
import LuaLower.Prototype
import LuaLower.Text.Quoted

/-!
# Listings

The text of a prototype: a heading, one line for each instruction, the constants, the upvalues,
and the nested functions, each one step further to the right.
-/

namespace LuaLower.Listing

def constant : Constant → String
  | .nil => "nil"
  | .boolean b => if b then "true" else "false"
  | .integer n => toString n.toInt
  | .float x => x.text
  | .string s => Text.quoted s

def constantAt (pool : Pool) (index : Nat) : String :=
  match pool.get? index with
  | some k => constant k
  | none => "?"

def mnemonic (op : Opcode) : String :=
  op.name ++ "".pushn ' ' (12 - op.name.length)

def namesConstant (op : Opcode) (operand : Nat) : Bool := op.takesRK && RK.isConstant operand

/-- A register is shown by its index, the constant `k` as `-k - 1`. -/
def operand (op : Opcode) (x : Nat) : String :=
  toString (if namesConstant op x then -(RK.index x : Int) - 1 else (x : Int))

def constantRemark (pool : Pool) (op : Opcode) (operands : List Nat) : String :=
  match operands.filter (namesConstant op) with
  | [] => ""
  | named => "\t;" ++ String.join (named.map fun x ↦ " " ++ constantAt pool (RK.index x))

def fieldRemark (pool : Pool) (op : Opcode) (bx : Nat) : String :=
  match op with
  | .loadK =>
    match pool.get? bx with
    | some k => "\t; " ++ constant k
    | none => ""
  | .closure => s!"\t; function [{bx}]"
  | _ => ""

/-- One instruction at position `pc`: mnemonic, operands, and a remark on what they refer to.
Positions are shown counted from one. -/
def instruction (pool : Pool) (pc : Nat) (i : Instruction) : String :=
  mnemonic i.opcode ++
  match i with
  | .abc op a b c =>
    s!"{a} " ++ operand op b ++ " " ++ operand op c ++ constantRemark pool op [b, c]
  | .abx op a bx => s!"{a} {bx}" ++ fieldRemark pool op bx
  | .asbx _ a sbx => s!"{a} {sbx}\t; to " ++ toString (pc + 2 + sbx)
  | .ax _ operand => toString operand

def numbered (indent : String) (first : Nat) (lines : List String) : String :=
  String.join ((lines.zipIdx first).map fun (line, n) ↦ indent ++ s!"\t{n}\t" ++ line ++ "\n")

def table (indent title : String) (lines : List String) : String :=
  if lines.isEmpty then ""
  else indent ++ title ++ s!" ({lines.length}):\n" ++ numbered indent 0 lines

def upvalue (u : Upvalue) : String :=
  u.name ++ "\t" ++ (if u.inStack then "1" else "0") ++ s!"\t{u.index.toNat}"

def heading (indent : String) (p : Prototype) : String :=
  indent ++ "function <" ++ p.source.getD "?" ++ s!"> ({p.code.size} instructions)\n" ++
  indent ++ s!"{p.numParams.toNat}" ++ (if p.isVararg then "+" else "") ++
  s!" params, {p.stackSize.toNat} slots, {p.upvalues.length} upvalues, " ++
  s!"{p.constants.size} constants, {p.children.length} functions\n"

def codeLines (indent : String) (p : Prototype) : String :=
  numbered indent 1 (p.code.toList.zipIdx.map fun (i, pc) ↦ instruction p.constants pc i)

def body (indent : String) (p : Prototype) : String :=
  heading indent p ++ codeLines indent p ++
  table indent "constants" (p.constants.toList.map constant) ++
  table indent "upvalues" (p.upvalues.map upvalue)

def indentation (level : Nat) : String := "".pushn ' ' (2 * level)

mutual

def prototype (level : Nat) : Prototype → String
  | p@⟨_, _, _, _, _, _, _, _, _, children, _⟩ =>
    body (indentation level) p ++ nested level 0 children

/-- The functions nested in one at `level`, of which the first has position `n`. -/
def nested (level n : Nat) : List Prototype → String
  | [] => ""
  | p :: ps =>
    indentation level ++ s!"function [{n}]:\n" ++ prototype (level + 1) p ++
      nested level (n + 1) ps

end

end LuaLower.Listing

def LuaLower.Prototype.listing (p : LuaLower.Prototype) : String := LuaLower.Listing.prototype 0 p
