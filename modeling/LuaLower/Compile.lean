import LuaLower.Chunk.Write
import LuaLower.Lowering.Body

/-!
# Compilation

From a syntax tree to the prototype of its main function, and on to the bytes of a chunk.
-/

namespace LuaLower

structure Options where
  source : Option String := none
  /-- Leave the source name out of the chunk. -/
  strip : Bool := false
  deriving DecidableEq, Repr, Inhabited

def compileBody (types : TypeOracle) (options : Options) (body : List Stmt) :
    Except Failure Prototype :=
  match Lower.block types body (Session.main options.source) with
  | .ok _ s => s.close
  | .error e _ => .error e

theorem compileBody_eq_ok_iff {types : TypeOracle} {options : Options} {body : List Stmt}
    {p : Prototype} : compileBody types options body = .ok p ↔
      ∃ s, Lower.block types body (.main options.source) = .ok () s ∧ s.close = .ok p := by
  cases h : Lower.block types body (.main options.source) <;> simp [compileBody, h]

/-- The chunk of a root. Only a single program can be compiled. -/
def compile (types : TypeOracle) (options : Options) : Root → Except Failure (List UInt8)
  | .program body => do Chunk.write options.strip (← compileBody types options body)
  | .bundle _ => .error (.unimplemented .bundledRoot)
  | .unparsed _ => .error (.unimplemented .unparsedRoot)

/-- Lower bodies one after the other in one session. A failure does not keep the next body from
being lowered. -/
def lowerBlocks (types : TypeOracle) :
    List (List Stmt) → Session → List (Except Failure Unit) × Session
  | [], s => ([], s)
  | body :: bodies, s =>
    match Lower.block types body s with
    | .ok _ s =>
      let (outcomes, s) := lowerBlocks types bodies s
      (.ok () :: outcomes, s)
    | .error e s =>
      let (outcomes, s) := lowerBlocks types bodies s
      (.error e :: outcomes, s)

end LuaLower
