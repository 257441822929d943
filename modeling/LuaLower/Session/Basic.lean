import LuaLower.OpenFunction.Placement

/-!
# Sessions

A session is the chain of open functions, from the innermost to the main function, and what is
known about names. Steps on the innermost function are steps of the session.
-/

namespace LuaLower

structure Names where
  /-- Tables in which the next name is looked up as a field, the latest first. -/
  owners : List Value := []
  globals : List String := []
  deriving DecidableEq, Repr, Inhabited

namespace Names

def enterOwner (names : Names) (owner : Value) : Names :=
  { names with owners := owner :: names.owners }

def leaveOwner (names : Names) : Names := { names with owners := names.owners.tail }

def addGlobal (names : Names) (name : String) : Names :=
  { names with globals := names.globals.insert name }

def knowsGlobal (names : Names) (name : String) : Bool := names.globals.contains name

@[simp] theorem leaveOwner_enterOwner (names : Names) (owner : Value) :
    (names.enterOwner owner).leaveOwner = names := rfl

@[simp] theorem knowsGlobal_addGlobal (names : Names) (name x : String) :
    (names.addGlobal name).knowsGlobal x = (x == name || names.knowsGlobal x) := by
  rw [Bool.eq_iff_iff]; simp [knowsGlobal, addGlobal]

end Names

structure Session where
  current : OpenFunction
  /-- The functions around the current one, the nearest first. -/
  enclosing : List OpenFunction := []
  names : Names := {}
  deriving Repr, Inhabited

/-- A step in the lowering of a program. What it did before it failed stays done. -/
abbrev Lower := EStateM Failure Session

namespace Session

def main (source : Option String) : Session where
  current := .main source

def functions (s : Session) : List OpenFunction := s.current :: s.enclosing

def close (s : Session) : Except Failure Prototype :=
  match s.enclosing with
  | [] => .ok s.current.close
  | _ :: _ => .error (.unsupported .unbalancedNesting)

theorem close_eq_ok_iff {s : Session} {p : Prototype} :
    s.close = .ok p ↔ s.enclosing = [] ∧ s.current.close = p := by
  cases h : s.enclosing <;> simp [close, h]

end Session

namespace Lower

def onCurrent {α : Type} (step : Build α) : Lower α := fun ⟨current, enclosing, names⟩ ↦
  match step current with
  | .ok a current => .ok a ⟨current, enclosing, names⟩
  | .error e current => .error e ⟨current, enclosing, names⟩

instance : MonadLift Build Lower := ⟨onCurrent⟩

@[simp] theorem liftM_eq_onCurrent {α : Type} (step : Build α) :
    (liftM step : Lower α) = onCurrent step := rfl

def addGlobal (name : String) : Lower Unit :=
  modify fun s ↦ { s with names := s.names.addGlobal name }

/-- Run a step with a table put on the owners, and take it off again whatever happens. -/
def withOwner {α : Type} (owner : Value) (step : Lower α) : Lower α := fun s ↦
  match step { s with names := s.names.enterOwner owner } with
  | .ok a s => .ok a { s with names := s.names.leaveOwner }
  | .error e s => .error e { s with names := s.names.leaveOwner }

/-- Run a step inside a new function within the innermost one, and close that function again
whatever happens. The result is its complete prototype. -/
def inFunction (step : Lower Unit) : Lower Prototype := fun s ↦
  match step { s with current := s.current.inside, enclosing := s.functions } with
  | .ok _ s =>
    match s.enclosing with
    | parent :: outer =>
      .ok s.current.close { s with current := parent.afterNested s.current, enclosing := outer }
    | [] => .error (.unsupported .unbalancedNesting) s
  | .error e s =>
    match s.enclosing with
    | parent :: outer =>
      .error e { s with current := parent.afterNested s.current, enclosing := outer }
    | [] => .error (.unsupported .unbalancedNesting) s

end Lower

end LuaLower
