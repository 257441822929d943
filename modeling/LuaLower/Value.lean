/-!
# Values before they are loaded

While an expression is lowered its value is described by where it is to be found. Nothing is
loaded until an instruction needs it in a register.
-/

namespace LuaLower

inductive Value where
  /-- In a register: a local or a live temporary. -/
  | register (index : Nat)
  /-- In the constant pool. -/
  | constant (index : Nat)
  | upvalue (index : Nat)
  /-- The field `key` of the table `owner`, not read yet. The compiler puts the owner in a
  register or an upvalue, and the key in a register or among the first 256 constants. -/
  | member (owner key : Value)
  deriving DecidableEq, Repr, Inhabited

/-- A value as messages name it. -/
def Value.describe : Value → String
  | .register r => s!"Register({r})"
  | .constant k => s!"Constant({k})"
  | .upvalue u => s!"Upvalue({u})"
  | .member owner key =>
    "LoadMember \x7b owner: " ++ owner.describe ++ ", member: " ++ key.describe ++ " \x7d"

end LuaLower
