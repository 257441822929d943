/-!
# The registers of a function

Locals take the lowest registers in the order of their declaration and keep them while the function
is open. Temporaries live above them and are released in the reverse order of their allocation, so
a single mark separates used registers from free ones.
-/

namespace LuaLower

structure Local where
  name : String
  register : Nat
  isConst : Bool
  deriving DecidableEq, Repr, Inhabited

structure Registers where
  /-- The latest declaration comes first. -/
  locals : List Local := []
  next : Nat := 0
  /-- One above the highest register ever taken. -/
  high : Nat := 0
  /-- Cleared for good by a release out of order, a local out of place, a temporary left behind by a
  statement, or marks out of order. -/
  inOrder : Bool := true
  deriving DecidableEq, Repr, Inhabited

namespace Registers

def limit : Nat := 255

/-- The number of locals, which is also the first register for temporaries. -/
def numLocals (rs : Registers) : Nat := rs.locals.length

def find? (rs : Registers) (name : String) : Option Local :=
  rs.locals.find? fun l ↦ l.name == name

/-- Whether the locals end at or below the first free register, which is at most one above the
highest register ever taken, and that one can be named. -/
def marksInOrder (rs : Registers) : Bool :=
  rs.numLocals ≤ rs.next && rs.next ≤ rs.high && rs.high ≤ limit

/-- Note whether a step was in order, and left the marks in order. -/
def note (rs : Registers) (stepInOrder : Bool) : Registers :=
  { rs with inOrder := rs.inOrder && stepInOrder && rs.marksInOrder }

def take (rs : Registers) : Registers :=
  { rs with next := rs.next + 1, high := max rs.high (rs.next + 1) }.note true

/-- One less on a counter of 32 bits. From zero it goes round. -/
def previous (n : Nat) : Nat := if n = 0 then UInt32.size - 1 else n - 1

@[simp] theorem previous_succ (n : Nat) : previous (n + 1) = n := rfl

/-- Release a temporary. Locals are never released. -/
def release (rs : Registers) (register : Nat) : Registers :=
  if rs.numLocals ≤ register then
    { rs with next := previous rs.next }.note (rs.next == register + 1)
  else rs

def releaseDownTo (rs : Registers) (level : Nat) : Registers :=
  if level ≤ rs.next then { rs with next := level }.note true else rs

def bind (rs : Registers) (name : String) (register : Nat) (isConst : Bool) : Registers :=
  { rs with locals := ⟨name, register, isConst⟩ :: rs.locals }.note (register == rs.numLocals)

/-- The end of a statement, where every temporary has been released. -/
def settle (rs : Registers) : Registers := rs.note (rs.next == rs.numLocals)

theorem find?_bind (rs : Registers) (name : String) (register : Nat) (isConst : Bool)
    (x : String) :
    (rs.bind name register isConst).find? x =
      if name = x then some ⟨name, register, isConst⟩ else rs.find? x := by
  by_cases h : name = x <;> simp [find?, bind, note, h]

end Registers

end LuaLower
