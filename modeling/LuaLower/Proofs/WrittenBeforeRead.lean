import LuaLower.Proofs.ControlFlow
import LuaLower.Proofs.Supply.Body

/-!
# Every register is written before it is read

The code of a body is supplied from its parameters on, and a function that is nested in it reads no
other registers than its own parameters, what it writes itself, and the variables that it captures.
-/

namespace LuaLower

open OpenFunction

theorem Instruction.exists_effect (i : Instruction) (d : Int) (x : Progress) :
    ∃ y, i.Effect d x y := by
  let top := i.openResults?.getD x.top
  refine ⟨⟨fun r ↦ x.written r ∨ i.assigns d top r, top⟩, fun r ↦ Iff.rfl, ?_⟩
  cases hopen : i.openResults? <;> simp [top, hopen]

/-- Wherever an execution may have got, a path leads. -/
theorem Prototype.Reaches.exists_path {p : Prototype} {steps pc : Nat} (h : p.Reaches steps pc) :
    ∃ x, p.Path pc x := by
  induction h with
  | start => exact ⟨_, .start 0⟩
  | step _ hi hnext ih =>
    obtain ⟨x, hpath⟩ := ih
    obtain ⟨y, heffect⟩ := Instruction.exists_effect _ _ x
    exact ⟨y, .step hpath hi hnext heffect⟩

/-- On every path through the code of a compiled function, a register that an instruction reads, be
it named, in a range or captured, is a parameter or was written on the way. -/
theorem compileBody_reads_written (types : TypeOracle) (options : Options) (body : List Stmt)
    (p q : Prototype) (hp : compileBody types options body = .ok p) (hq : p.Contains q) :
    q.ReadsWritten ∧ ∀ steps pc, q.Reaches steps pc → ∃ x, q.Path pc x := by
  refine ⟨?_, fun _ _ hreaches ↦ hreaches.exists_path⟩
  obtain ⟨t, hrun, rfl⟩ := compileBody_eq_ok hp
  have hmain : LowersBody types options body [] body _ := .main
  have hsettled := hmain.encounters.settled rfl
  have hfresh : Fresh 0 ((Session.main options.source).hoisted body).current :=
    fresh_main options.source
  have hallows := Session.allows_all hmain.encounters.linked
  obtain ⟨-, hsupplied⟩ := (supplies_statements types body _ _ _ hallows (fun _ _ _ _ ↦ trivial)
    hsettled.1 hsettled.2).result hrun
  have hgrows := (proceeds_statements types closesTo_trivial.block body 0 _ hsettled.1 hsettled.2
    (Nat.zero_le _)).result hrun
  have hparams := (hgrows.1.current.sound hfresh.sound).numParams
  exact hsupplied.readsWritten hfresh hparams q hq

/-- `let a = true; function pick(b) { return b && a; } let c = pick(a, pick(a));` -/
def capturedChoice : List Stmt :=
  [.declaration .let [⟨"a", some (.literal (.boolean true))⟩],
   .function "pick" ["b"]
    [.ret (some (.binary .and (.identifier "b") (.identifier "a")))],
   .declaration .let
    [⟨"c", some (.call (.identifier "pick")
      [.identifier "a", .call (.identifier "pick") [.identifier "a"]])⟩]]

/-- The main function makes a closure that captures its local `a` and passes on open results, and
the function `pick` has two paths to its return. -/
theorem compileBody_reads_written_capturedChoice :
    ∃ p q, compileBody (SyntaxOracle.oracle {}) {} capturedChoice = .ok p ∧ p.children = [q] ∧
      p.ReadsWritten ∧ q.ReadsWritten := by
  have hchildren : (match compileBody (SyntaxOracle.oracle {}) {} capturedChoice with
      | .ok p => p.children.length
      | .error _ => 0) = 1 := by decide +kernel
  cases hp : compileBody (SyntaxOracle.oracle {}) {} capturedChoice with
  | error e =>
    rw [hp] at hchildren
    cases hchildren
  | ok p =>
    rw [hp] at hchildren
    obtain ⟨q, hq⟩ := List.length_eq_one_iff.mp hchildren
    have hcontains : p.Contains q := .nested (by rw [hq]; exact List.mem_singleton_self q) (.self q)
    exact ⟨p, q, rfl, hq, (compileBody_reads_written _ _ _ p p hp (.self p)).1,
      (compileBody_reads_written _ _ _ p q hp hcontains).1⟩

end LuaLower
