import LuaLower.Proofs.Lowering.Body

/-!
# The discipline of registers

Statements give back every temporary, expressions hold exactly the temporaries above those that were
in use, and nothing that happens to the registers on the way is out of order, not even in a step
that fails.
-/

namespace LuaLower

/-- Whether the registers of the innermost function, and of all functions nested in it so far, have
been used in order. -/
def Session.inOrder (s : Session) : Bool := s.current.registers.inOrder

variable {b : Nat} {s t : Session}

theorem Session.Kept.inOrder_eq (h : Session.Kept b s t) : t.inOrder = s.inOrder :=
  h.current.inOrder

theorem statement_balanced (types : TypeOracle) (stmt : Stmt) (hs : s.Ready)
    (hsettled : s.Settled) :
    Yields (Lower.statement types stmt) s
      (fun _ t ↦ t.Ready ∧ t.Settled ∧ t.inOrder = s.inOrder)
      (fun _ t ↦ t.inOrder = s.inOrder) := by
  have hstatement := advances_statement types closesTo_trivial stmt 0 s hs hsettled (Nat.zero_le _)
  refine hstatement.mono ?_ ?_
  · rintro - t ⟨hst, ht⟩
    exact ⟨hst.ready hs, ht, (hst.kept (Nat.zero_le _)).inOrder_eq⟩
  · intro e t hkept
    exact hkept.inOrder_eq

theorem expression_balanced (types : TypeOracle) (e : Expr) (hs : s.Ready) :
    Yields (Lower.expr types e) s
      (fun v t ↦ t.Ready ∧ t.current.registers.locals = s.current.registers.locals ∧
        s.current.registers.next ≤ t.current.registers.next ∧
        v.temporaries s.current.registers.numLocals = List.range' s.current.registers.next
          (t.current.registers.next - s.current.registers.next) ∧
        t.inOrder = s.inOrder)
      (fun _ t ↦ t.inOrder = s.inOrder) := by
  have hexpr := lowers_expr types closesTo_trivial e 0 s hs (Nat.zero_le _)
  refine hexpr.mono ?_ ?_
  · rintro v t ⟨hst, hv⟩
    have hlo := hst.numLocals.trans_le hs.tidy.numLocals_le
    have htemporaries := hv.temporaries hlo
    rw [hst.numLocals] at htemporaries
    exact ⟨hst.ready hs, hst.locals, hv.le, htemporaries, (hst.kept (Nat.zero_le _)).inOrder_eq⟩
  · intro e t hkept
    exact hkept.inOrder_eq

theorem block_balanced (types : TypeOracle) (body : List Stmt) (hs : s.Ready)
    (hsettled : s.Settled) :
    Yields (Lower.block types body) s
      (fun _ t ↦ t.Ready ∧ t.Settled ∧ t.inOrder = s.inOrder)
      (fun _ t ↦ t.inOrder = s.inOrder) := by
  have hbody := advances_body (b := 0) (advances_statements types closesTo_trivial body) hs hsettled
    (Nat.zero_le _)
  refine hbody.mono ?_ ?_
  · rintro - t ⟨hst, ht⟩
    exact ⟨hst.ready hs, ht, (hst.kept (Nat.zero_le _)).inOrder_eq⟩
  · intro e t hkept
    exact hkept.inOrder_eq

theorem program_inOrder (types : TypeOracle) (body : List Stmt) (source : Option String) :
    Yields (Lower.block types body) (Session.main source) (fun _ t ↦ t.inOrder = true)
      (fun _ t ↦ t.inOrder = true) := by
  have hready : (Session.main source).Ready := ⟨rfl, Registers.tidy_empty⟩
  exact (block_balanced types body hready rfl).mono (fun _ _ ht ↦ ht.2.2) fun _ _ ht ↦ ht

/-- Registers are a stack. Statements give back their temporaries, the value of an expression holds
those from the first free register on, and every release is of the last one taken, whatever the
outcome. -/
theorem register_stack_discipline (types : TypeOracle) :
    (∀ (stmt : Stmt) (s : Session), s.Ready → s.Settled →
      Yields (Lower.statement types stmt) s
        (fun _ t ↦ t.Ready ∧ t.Settled ∧ t.inOrder = s.inOrder)
        (fun _ t ↦ t.inOrder = s.inOrder)) ∧
    (∀ (e : Expr) (s : Session), s.Ready →
      Yields (Lower.expr types e) s
        (fun v t ↦ t.Ready ∧ t.current.registers.locals = s.current.registers.locals ∧
          s.current.registers.next ≤ t.current.registers.next ∧
          v.temporaries s.current.registers.numLocals = List.range' s.current.registers.next
            (t.current.registers.next - s.current.registers.next) ∧
          t.inOrder = s.inOrder)
        (fun _ t ↦ t.inOrder = s.inOrder)) ∧
    (∀ (body : List Stmt) (source : Option String),
      Yields (Lower.block types body) (Session.main source) (fun _ t ↦ t.inOrder = true)
        (fun _ t ↦ t.inOrder = true)) :=
  ⟨fun stmt _ hs hsettled ↦ statement_balanced types stmt hs hsettled,
    fun e _ hs ↦ expression_balanced types e hs, program_inOrder types⟩

/-- A function with the one local `a`, before its next statement. -/
def Session.oneLocal : Session where
  current :=
    { proto := { upvalues := [⟨envName, true, 0⟩] }
      registers := { locals := [⟨"a", 0, false⟩], next := 1, high := 1 } }

theorem register_stack_discipline_oneLocal :
    Session.oneLocal.Ready ∧ Session.oneLocal.Settled ∧
    -- The statement `a = a(a.b)`.
    Yields (Lower.statement (SyntaxOracle.oracle {})
        (.expression (.assign .plain (.identifier "a")
          (.call (.identifier "a") [.member (.identifier "a") "b"])))) Session.oneLocal
      (fun _ t ↦ t.Ready ∧ t.Settled ∧ t.inOrder = true) (fun _ t ↦ t.inOrder = true) ∧
    -- The expression `a.b[a.c]`, whose value holds two temporaries.
    Yields (Lower.expr (SyntaxOracle.oracle {})
        (.index (.member (.identifier "a") "b") (.member (.identifier "a") "c"))) Session.oneLocal
      (fun v t ↦ t.Ready ∧ t.current.registers.locals = [⟨"a", 0, false⟩] ∧
        1 ≤ t.current.registers.next ∧
        v.temporaries 1 = List.range' 1 (t.current.registers.next - 1) ∧ t.inOrder = true)
      (fun _ t ↦ t.inOrder = true) := by
  have hready : Session.oneLocal.Ready := ⟨rfl, rfl, le_refl 1, le_refl 1, by decide⟩
  have hsettled : Session.oneLocal.Settled := rfl
  have h := register_stack_discipline (SyntaxOracle.oracle {})
  exact ⟨hready, hsettled, h.1 _ _ hready hsettled, h.2.1 _ _ hready⟩

end LuaLower
