import LuaLower.Syntax.Basic

/-!
# Static knowledge about a program

Lowering asks two questions that the tree alone does not answer: whether an expression is known to
be a string, so that `+` concatenates, and whether a name is a global that the environment
supplies.
-/

namespace LuaLower

structure TypeOracle where
  isString : Expr → Bool
  isAmbient : String → Bool

/-- An oracle that decides from the syntax and two lists of names. -/
structure SyntaxOracle where
  /-- Globals supplied by the environment. -/
  ambient : List String := []
  /-- Variables known to hold strings. -/
  strings : List String := []
  deriving DecidableEq, Repr, Inhabited

namespace SyntaxOracle

/-- The globals of a stock environment. -/
def stockGlobals : List String :=
  ["print", "type", "tostring", "tonumber", "pairs", "ipairs", "select", "error", "assert",
   "pcall", "rawget", "rawset", "rawequal", "rawlen", "setmetatable", "getmetatable", "next",
   "require", "math", "string", "table", "io", "os", "coroutine", "utf8", "debug"]

def isAmbient (types : SyntaxOracle) (name : String) : Bool := types.ambient.contains name

/-- A sum is a string when either side is. -/
def isString (types : SyntaxOracle) : Expr → Bool
  | .literal (.string _) => true
  | .identifier name => types.strings.contains name
  | .binary .add left right => types.isString left || types.isString right
  | _ => false

def oracle (types : SyntaxOracle) : TypeOracle := ⟨types.isString, types.isAmbient⟩

end SyntaxOracle

end LuaLower
