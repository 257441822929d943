import LuaLower.Chunk.Bytes
import LuaLower.Instruction.Encoding
import LuaLower.Prototype

/-!
# Binary chunks

A chunk is a fixed header, the number of upvalues of the main function, and its function block.
A block holds the blocks of the nested functions, and a nested block leaves out a source name that
is the enclosing function's. Debug tables are always written empty: a prototype that has any can
only be written stripped.
-/

namespace LuaLower.Chunk

/-- The signature, the version and format, a line of bytes that text conversion would damage, the
sizes of the primitive types, and two sample numbers. -/
def header : List UInt8 :=
  [0x1B, 0x4C, 0x75, 0x61, 0x53, 0x00, 0x19, 0x93, 0x0D, 0x0A, 0x1A, 0x0A, 4, 8, 4, 8, 8]
    ++ integer 0x5678 ++ number ⟨0x4077280000000000⟩

def maxShortLength : Nat := 40

def constant : Constant → List UInt8
  | .nil => [0]
  | .boolean b => [1, flag b]
  | .integer n => 19 :: integer n
  | .float x => 3 :: number x
  | .string s =>
    let bytes := utf8 s
    (if bytes.length ≤ maxShortLength then 4 else 20) :: string (some bytes)

def upvalue (u : Upvalue) : List UInt8 := [flag u.inStack, u.index]

/-- The source name of a block, which is absent when stripped or when the enclosing function has
the same. -/
def sourceName (strip : Bool) (enclosing own : Option String) : List UInt8 :=
  if strip || (enclosing.isSome && own == enclosing) then string none
  else string (own.map utf8)

def emptyDebug : List UInt8 := count 0 ++ count 0 ++ count 0

def code (is : Array Instruction) : Except Failure (List UInt8) := do
  let words ← is.toList.mapM Instruction.encode
  return count is.size ++ words.flatMap word

mutual

/-- The block of a function nested in one whose source name is `enclosing`. -/
def block (strip : Bool) (enclosing : Option String) :
    Prototype → Except Failure (List UInt8)
  | ⟨source, line, lastLine, numParams, isVararg, stackSize, is, constants, upvalues, children,
      debug⟩ => do
    let body ← code is
    let nested ← blocks strip source children
    if strip || debug.isEmpty then
      return sourceName strip enclosing source
        ++ int line ++ int lastLine ++ [numParams, flag isVararg, max stackSize 2]
        ++ body
        ++ count constants.size ++ constants.toList.flatMap constant
        ++ count upvalues.length ++ upvalues.flatMap upvalue
        ++ count children.length ++ nested
        ++ emptyDebug
    else
      throw (.unimplemented .debugInfo)

def blocks (strip : Bool) (enclosing : Option String) :
    List Prototype → Except Failure (List UInt8)
  | [] => return []
  | p :: ps => do
    let first ← block strip enclosing p
    let rest ← blocks strip enclosing ps
    return first ++ rest

end

def write (strip : Bool) (p : Prototype) : Except Failure (List UInt8) := do
  let main ← block strip none p
  return header ++ UInt8.ofNat p.upvalues.length :: main

end LuaLower.Chunk
