import LuaLower.Session.Basic
import LuaLower.Typing

/-!
# What a name means

A name is a field of the latest owner if there is one. Otherwise it is, in this order, a local of
the innermost function, a variable captured from an enclosing one, one of three names for constant
values, or a known global.
-/

namespace LuaLower

/-- Names that stand for a constant value unless a variable hides them. -/
def namedConstant? (name : String) : Option Constant :=
  if name = "undefined" then some .nil
  else if name = "NaN" then some (.float .nan)
  else if name = "Infinity" then some (.float .infinity)
  else none

abbrev Chain := OpenFunction × List OpenFunction

def Chain.newUpvalue (chain : Chain) (name : String) (inStack : Bool) (index : Nat) :
    EStateM.Result Failure Chain (Option Nat) :=
  match Build.newUpvalue name inStack index chain.1 with
  | .ok u f => .ok (some u) (f, chain.2)
  | .error e f => .error e (f, chain.2)

/-- The upvalue of `f` for a variable of a function around it. The variable is threaded through
every function in between. -/
def capture (name : String) (f : OpenFunction) :
    List OpenFunction → EStateM.Result Failure Chain (Option Nat)
  | [] => .ok (f.upvalueIndex? name) (f, [])
  | parent :: outer =>
    match f.upvalueIndex? name with
    | some u => .ok (some u) (f, parent :: outer)
    | none =>
      match parent.local? name with
      | some l => Chain.newUpvalue (f, parent :: outer) name true l.register
      | none =>
        match capture name parent outer with
        | .ok (some u) (parent, outer) => Chain.newUpvalue (f, parent :: outer) name false u
        | .ok none (parent, outer) => .ok none (f, parent :: outer)
        | .error e (parent, outer) => .error e (f, parent :: outer)

namespace Lower

def place? (name : String) : Lower (Option Place) := fun s ↦
  match s.current.local? name with
  | some l => .ok (some (.register l.register)) s
  | none =>
    match capture name s.current s.enclosing with
    | .ok u (f, outer) => .ok (u.map .upvalue) { s with current := f, enclosing := outer }
    | .error e (f, outer) => .error e { s with current := f, enclosing := outer }

def lookup (types : TypeOracle) (name : String) : Lower Value := do
  let names := (← get).names
  match names.owners with
  | owner :: _ =>
    let key ← Build.toKey (.constant (← Build.stringIndex name))
    return .member owner key
  | [] =>
    match ← place? name with
    | some place => return place.toValue
    | none =>
      match namedConstant? name with
      | some k => return .constant (← Build.constantIndex k)
      | none =>
        if names.knowsGlobal name || types.isAmbient name then Build.globalValue name
        else throw (.unresolved name)

/-- `this` is a variable of that name, and the table of globals where there is none. -/
def lookupThis : Lower Value := do
  match ← place? "this" with
  | some place => return place.toValue
  | none =>
    match (← get).current.upvalueIndex? envName with
    | some env => return .upvalue env
    | none => throw (.unresolved envName)

end Lower

end LuaLower
