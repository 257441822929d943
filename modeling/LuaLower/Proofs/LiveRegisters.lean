import LuaLower.Proofs.Lowering.Body
import LuaLower.Proofs.Semantics.Effects

/-!
# Live registers

The code of an expression leaves alone what is in use before it: it writes registers that are free,
and those of locals that the expression assigns. Hence whatever a register held that is neither, it
still holds after any run through that code.
-/

namespace LuaLower

variable {V : Type}

/-! ## Runs through a piece of code -/

/-- What instructions do to the registers of their function: anything to those that they write, and
nothing to the others. In particular no other function writes them through an upvalue. -/
structure RegisterEffects (V : Type) where
  step : Instruction → (Nat → V) → (Nat → V) → Prop
  keeps : ∀ i ρ σ, step i ρ σ → ∀ r, i.writes r = false → σ r = ρ r

namespace RegisterEffects

/-- The registers after any number of instructions of a piece of code, in any order. -/
def Runs (effects : RegisterEffects V) (code : List Instruction) : (Nat → V) → (Nat → V) → Prop :=
  Relation.ReflTransGen fun ρ σ ↦ ∃ i ∈ code, effects.step i ρ σ

variable {effects : RegisterEffects V} {code : List Instruction} {ρ σ : Nat → V} {r : Nat}

theorem Runs.keeps (h : effects.Runs code ρ σ) (hr : ∀ i ∈ code, i.writes r = false) :
    σ r = ρ r := by
  induction h with
  | refl => rfl
  | tail _ hstep ih =>
    obtain ⟨i, hi, hstep⟩ := hstep
    exact (effects.keeps i _ _ hstep r (hr i hi)).trans ih

end RegisterEffects

namespace Machine

def effects (m : Meaning V) (frame : Frame V) : RegisterEffects V where
  step i ρ σ := ∃ pc pc', exec m frame pc ρ i = some (.next ⟨pc', σ⟩)
  keeps := by
    rintro i ρ σ ⟨pc, pc', h⟩ r hr
    exact (exec_next h).2 r hr

end Machine

/-! ## Expressions -/

variable {s t : Session}

/-- The registers that the code of an expression may write: those that are free, and those of the
locals that the expression assigns. -/
def Session.MayWrite (s : Session) (e : Expr) (r : Nat) : Prop :=
  s.current.registers.next ≤ r ∨
    ∃ name ∈ e.assignedNames, ∃ l, s.current.local? name = some l ∧ l.register = r

theorem Session.covers_mayWrite (s : Session) (e : Expr) :
    s.Covers (s.MayWrite e) e.assignedNames where
  free _ hr := .inl hr
  assigned name hname l hl := .inr ⟨name, hname, l, hl, rfl⟩

/-- A temporary that is in use belongs to no local. -/
theorem Session.Ready.not_mayWrite_temporary (hs : s.Ready) (e : Expr) {r : Nat}
    (hlocal : s.current.registers.numLocals ≤ r) (hnext : r < s.current.registers.next) :
    ¬ s.MayWrite e r := by
  rintro (hfree | ⟨name, _, l, hl, rfl⟩)
  · omega
  · have hlt := hs.tidy.find?_lt hl
    omega

theorem Session.Ready.not_mayWrite_local (hs : s.Ready) {e : Expr} {l : Local}
    (hl : l ∈ s.current.registers.locals)
    (hkept : ∀ name ∈ e.assignedNames, s.current.local? name ≠ some l) :
    ¬ s.MayWrite e l.register := by
  have hlt := hs.tidy.register_lt hl
  have hnext := hs.tidy.numLocals_le
  rintro (hfree | ⟨name, hname, l', hl', hregister⟩)
  · omega
  · have hsame : l' = l := hs.tidy.local_eq (List.mem_of_find?_eq_some hl') hl hregister
    exact hkept name hname (hsame ▸ hl')

theorem exists_expr_block (types : TypeOracle) (e : Expr) (hs : s.Ready) {v : Value}
    (hrun : Lower.expr types e s = .ok v t) :
    s.current.Emitted (s.MayWrite e) false t.current := by
  have h := translates_expr types closesTo_trivial.block e (s.MayWrite e) 0 s (s.covers_mayWrite e)
    hs (Nat.zero_le _)
  exact (h.result hrun).2.1

/-- The code of an expression writes free registers and locals that the expression assigns, and no
others. So other registers in use are the same after any run through it. -/
theorem expr_keeps_live_registers (types : TypeOracle) (e : Expr) (s t : Session) (v : Value)
    (hs : s.Ready) (hrun : Lower.expr types e s = .ok v t) :
    ∃ code : List Instruction, t.current.proto.code = s.current.proto.code ++ code.toArray ∧
      (∀ i ∈ code, ∀ r, i.writes r = true → s.current.registers.next ≤ r ∨
        ∃ name ∈ e.assignedNames, ∃ l, s.current.local? name = some l ∧ l.register = r) ∧
      ∀ (V : Type) (effects : RegisterEffects V) (ρ σ : Nat → V), effects.Runs code ρ σ →
        (∀ r, s.current.registers.numLocals ≤ r → r < s.current.registers.next → σ r = ρ r) ∧
        ∀ l ∈ s.current.registers.locals,
          (∀ name ∈ e.assignedNames, s.current.local? name ≠ some l) →
          σ l.register = ρ l.register := by
  obtain ⟨code, hcode, hblock⟩ := exists_expr_block types e hs hrun
  refine ⟨code, hcode, hblock.writes, fun V effects ρ σ hruns ↦ ?_⟩
  have hkeeps (r : Nat) (hr : ¬ s.MayWrite e r) : σ r = ρ r := by
    refine hruns.keeps fun i hi ↦ ?_
    by_contra hwrites
    exact hr (hblock.writes i hi r (by simpa using hwrites))
  constructor
  · intro r hlocal hnext
    exact hkeeps r (hs.not_mayWrite_temporary e hlocal hnext)
  · intro l hl hkept
    exact hkeeps l.register (hs.not_mayWrite_local hl hkept)

/-- A function with the locals `a` and `b`, in the middle of an expression that holds one
temporary. -/
def Session.twoLocals : Session where
  current :=
    { proto := { upvalues := [⟨envName, true, 0⟩] }
      registers :=
        { locals := [⟨"b", 1, false⟩, ⟨"a", 0, false⟩], next := 3, high := 3 } }

/-- `b = a(a && { x: b == a }, function () { a = b; })` -/
def assignedCall : Expr :=
  .assign .plain (.identifier "b")
    (.call (.identifier "a")
      [.binary .and (.identifier "a")
        (.object [⟨.identifier "x", .binary .eq (.identifier "b") (.identifier "a")⟩]),
       .function none [] [.expression (.assign .plain (.identifier "a") (.identifier "b"))]])

/-- Of the registers in use, only that of `b` is written: neither the assignment to `a` in the
nested function nor the call touches the register of `a` or the temporary. -/
theorem expr_keeps_live_registers_assignedCall :
    Session.twoLocals.Ready ∧
    ∃ v t, Lower.expr (SyntaxOracle.oracle {}) assignedCall Session.twoLocals = .ok v t ∧
      ∃ code : List Instruction, t.current.proto.code = code.toArray ∧
        (∀ i ∈ code, ∀ r, i.writes r = true → 3 ≤ r ∨ r = 1) ∧
        ∀ (V : Type) (m : Meaning V) (frame : Machine.Frame V) (ρ σ : Nat → V),
          (Machine.effects m frame).Runs code ρ σ → σ 2 = ρ 2 ∧ σ 0 = ρ 0 := by
  have hready : Session.twoLocals.Ready := ⟨rfl, rfl, by decide, le_refl 3, by decide⟩
  refine ⟨hready, ?_⟩
  have hok : (match Lower.expr (SyntaxOracle.oracle {}) assignedCall Session.twoLocals with
      | .ok .. => true
      | .error .. => false) = true := by decide +kernel
  cases hrun : Lower.expr (SyntaxOracle.oracle {}) assignedCall Session.twoLocals with
  | error e t =>
    rw [hrun] at hok
    cases hok
  | ok v t =>
    obtain ⟨code, hcode, hwrites, hkeeps⟩ :=
      expr_keeps_live_registers _ assignedCall Session.twoLocals t v hready hrun
    refine ⟨v, t, rfl, code, ?_, ?_, fun V m frame ρ σ hruns ↦ ?_⟩
    · simpa [Session.twoLocals] using hcode
    · intro i hi r hr
      obtain hfree | ⟨name, hname, l, hl, rfl⟩ := hwrites i hi r hr
      · exact .inl hfree
      · obtain rfl : name = "b" := List.mem_singleton.mp hname
        cases hl
        exact .inr rfl
    · obtain ⟨htemporary, hlocal⟩ := hkeeps V (Machine.effects m frame) ρ σ hruns
      refine ⟨htemporary 2 (le_refl 2) (by decide), hlocal ⟨"a", 0, false⟩ (by decide) ?_⟩
      decide

end LuaLower
