/-!
# Opcodes

The 47 operations of the Lua 5.3 machine in the order of their numbers, with the word layout of
each and the two classes that the listing and the compiler ask about.
-/

namespace LuaLower

/-- How a 32-bit instruction word is divided into fields. -/
inductive Family where
  | abc
  | abx
  | asbx
  | ax
  deriving DecidableEq, Repr, Inhabited

def Family.name : Family → String
  | .abc => "IABC"
  | .abx => "IABx"
  | .asbx => "IAsBx"
  | .ax => "IAx"

/-- An operation of the machine. The constructors stand in the order of their numbers. -/
inductive Opcode where
  | move | loadK | loadKX | loadBool | loadNil
  | getUpval | getTabUp | getTable | setTabUp | setUpval | setTable | newTable | self
  | add | sub | mul | mod | pow | div | idiv
  | band | bor | bxor | shl | shr
  | unm | bnot | not | len | concat
  | jmp | eq | lt | le | test | testSet
  | call | tailCall | ret | forLoop | forPrep | tforCall | tforLoop
  | setList | closure | vararg | extraArg
  deriving DecidableEq, Repr, Inhabited

namespace Opcode

def all : List Opcode :=
  [.move, .loadK, .loadKX, .loadBool, .loadNil,
   .getUpval, .getTabUp, .getTable, .setTabUp, .setUpval, .setTable, .newTable, .self,
   .add, .sub, .mul, .mod, .pow, .div, .idiv,
   .band, .bor, .bxor, .shl, .shr,
   .unm, .bnot, .not, .len, .concat,
   .jmp, .eq, .lt, .le, .test, .testSet,
   .call, .tailCall, .ret, .forLoop, .forPrep, .tforCall, .tforLoop,
   .setList, .closure, .vararg, .extraArg]

def number (op : Opcode) : Nat := op.ctorIdx

def ofNumber? (n : Nat) : Option Opcode := all[n]?

@[simp] theorem ofNumber?_number (op : Opcode) : ofNumber? op.number = some op := by
  cases op <;> rfl

theorem number_lt (op : Opcode) : op.number < 47 := by
  cases op <;> decide

def name : Opcode → String
  | .move => "MOVE"
  | .loadK => "LOADK"
  | .loadKX => "LOADKX"
  | .loadBool => "LOADBOOL"
  | .loadNil => "LOADNIL"
  | .getUpval => "GETUPVAL"
  | .getTabUp => "GETTABUP"
  | .getTable => "GETTABLE"
  | .setTabUp => "SETTABUP"
  | .setUpval => "SETUPVAL"
  | .setTable => "SETTABLE"
  | .newTable => "NEWTABLE"
  | .self => "SELF"
  | .add => "ADD"
  | .sub => "SUB"
  | .mul => "MUL"
  | .mod => "MOD"
  | .pow => "POW"
  | .div => "DIV"
  | .idiv => "IDIV"
  | .band => "BAND"
  | .bor => "BOR"
  | .bxor => "BXOR"
  | .shl => "SHL"
  | .shr => "SHR"
  | .unm => "UNM"
  | .bnot => "BNOT"
  | .not => "NOT"
  | .len => "LEN"
  | .concat => "CONCAT"
  | .jmp => "JMP"
  | .eq => "EQ"
  | .lt => "LT"
  | .le => "LE"
  | .test => "TEST"
  | .testSet => "TESTSET"
  | .call => "CALL"
  | .tailCall => "TAILCALL"
  | .ret => "RETURN"
  | .forLoop => "FORLOOP"
  | .forPrep => "FORPREP"
  | .tforCall => "TFORCALL"
  | .tforLoop => "TFORLOOP"
  | .setList => "SETLIST"
  | .closure => "CLOSURE"
  | .vararg => "VARARG"
  | .extraArg => "EXTRAARG"

def ofName? (s : String) : Option Opcode := all.find? fun op ↦ op.name == s

def family : Opcode → Family
  | .extraArg => .ax
  | .jmp | .forLoop | .forPrep | .tforLoop => .asbx
  | .loadK | .loadKX | .closure => .abx
  | _ => .abc

/-- Tests skip the next instruction when their outcome is not the expected one. -/
def isTest : Opcode → Bool
  | .eq | .lt | .le | .test | .testSet => true
  | _ => false

def takesRK : Opcode → Bool
  | .getTabUp | .getTable | .setTabUp | .setTable | .self
  | .add | .sub | .mul | .mod | .pow | .div | .idiv
  | .band | .bor | .bxor | .shl | .shr
  | .eq | .lt | .le => true
  | _ => false

end Opcode

end LuaLower
