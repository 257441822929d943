import LuaLower.Session.Basic

/-!
# Workspaces

A workspace is for looking at single steps outside of a compilation. Functions are opened and closed
in it by hand, so that, unlike in a session, none may be open, and then no step can be run.
Otherwise a step does to a workspace what it does to the session with the same functions.
-/

namespace LuaLower

structure Workspace where
  functions : List OpenFunction
  names : Names := {}
  deriving Repr, Inhabited

namespace Workspace

def main (source : Option String) : Workspace where
  functions := [.main source]

/-- Open a function inside the innermost one, or a main function if there is none. -/
def enter (w : Workspace) : Workspace :=
  match w.functions with
  | [] => { w with functions := [.main none] }
  | f :: outer => { w with functions := f.inside :: f :: outer }

/-- Close the innermost function. It is not attached to the one around it. -/
def leave (w : Workspace) : Option Prototype × Workspace :=
  match w.functions with
  | [] => (none, w)
  | f :: outer => (some f.close, { w with functions := outer })

def close (w : Workspace) : List Prototype := w.functions.reverse.map OpenFunction.close

/-- Run a step on the chain as on a session. -/
def run {α : Type} (step : Lower α) : EStateM Failure Workspace α := fun w ↦
  match w.functions with
  | [] => .error (.unsupported .outsideFunction) w
  | f :: outer =>
    match step ⟨f, outer, w.names⟩ with
    | .ok a s => .ok a ⟨s.functions, s.names⟩
    | .error e s => .error e ⟨s.functions, s.names⟩

variable {α : Type} {step : Lower α} {s t : Session}

theorem run_of_ok {a : α} (h : step s = .ok a t) :
    run step ⟨s.functions, s.names⟩ = .ok a ⟨t.functions, t.names⟩ := by
  simp only [run, Session.functions, h]

theorem run_of_error {e : Failure} (h : step s = .error e t) :
    run step ⟨s.functions, s.names⟩ = .error e ⟨t.functions, t.names⟩ := by
  simp only [run, Session.functions, h]

end Workspace

end LuaLower
