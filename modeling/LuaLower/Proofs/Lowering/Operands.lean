import LuaLower.Proofs.LiveRegisters
import LuaLower.Proofs.Lowering.Origins

/-!
# Evaluated operands

An expression is evaluated for an instruction in two steps. It is lowered, and its value is put
where the instruction finds it: into a new register, or into an operand. What has been evaluated
stays in the code that follows, and its code writes no register that is in use.
-/

namespace LuaLower

open OpenFunction Build

variable {types : TypeOracle} {e : Expr} {r x : Nat} {v : Value} {s t u : Session}

/-- Between two sessions an expression is evaluated into a new register. The results of a call may
stay there as they are, however many they are. -/
inductive EvaluatesInto (types : TypeOracle) : Expr → Nat → Session → Session → Prop
  | loaded {e : Expr} {v : Value} {r : Nat} {s t u : Session} : Lower.expr types e s = .ok v t →
    Lower.onCurrent (inNewRegister v) t = .ok r u → EvaluatesInto types e r s u
  | forwarded {callee : Expr} {args : List Expr} {r : Nat} {s t : Session} :
    Lower.callWith (Lower.expr types callee) (Lower.arguments types args) args.length .forward s =
      .ok r t →
    EvaluatesInto types (.call callee args) r s t

/-- Between two sessions an expression is evaluated, and `x` is the operand for its value. -/
inductive EvaluatesTo (types : TypeOracle) : Expr → Nat → Session → Session → Prop
  | register {e : Expr} {r : Nat} {s t : Session} : EvaluatesInto types e r s t →
    EvaluatesTo types e r s t
  | operand {e : Expr} {v : Value} {x : Nat} {s t u : Session} : Lower.expr types e s = .ok v t →
    Lower.onCurrent (toOperand v) t = .ok x u → EvaluatesTo types e x s u
  | held {e : Expr} {v : Value} {r : Nat} {s t u : Session} : Lower.expr types e s = .ok v t →
    Lower.onCurrent (inRegister v) t = .ok r u → EvaluatesTo types e r s u

theorem onCurrent_bind_eq_ok {α β : Type} {y : Build α} {k : α → Build β} {b : β}
    (h : Lower.onCurrent (y >>= k) s = .ok b u) :
    ∃ a t, Lower.onCurrent y s = .ok a t ∧ Lower.onCurrent (k a) t = .ok b u := by
  rw [Lower.onCurrent_bind] at h
  exact bind_eq_ok h

theorem evaluatesTo_place {pending : Pending} (hexpr : Lower.expr types e s = .ok v t)
    (hplace : Lower.onCurrent (pending.place v) t = .ok x u) : EvaluatesTo types e x s u := by
  cases pending with
  | concat => exact .register (.loaded hexpr hplace)
  | _ => exact .operand hexpr hplace

/-- The steps of a binary operation that always evaluates its right operand. -/
theorem binary_eq_ok {left right : Lower Value} {op : BinaryOp} {isString : Bool} {w : Value}
    (hop : op.logical? = none) (h : Lower.binary op isString left right s = .ok w t) :
    ∃ (v : Value) (s₁ : Session) (pending : Pending) (s₂ : Session) (v' : Value) (s₃ : Session)
      (y : Nat) (u : Session), left s = .ok v s₁ ∧ pending.IsPlain ∧
      Lower.onCurrent (pending.place v) s₁ = .ok pending.left s₂ ∧ right s₂ = .ok v' s₃ ∧
      Lower.onCurrent (pending.place v') s₃ = .ok y u ∧
      Lower.onCurrent (pending.conclude y) u = .ok w t := by
  obtain ⟨v, s₁, hleft, h⟩ := bind_eq_ok h
  obtain ⟨pending, s₂, hbegin, h⟩ := bind_eq_ok h
  obtain ⟨v', s₃, hright, h⟩ := bind_eq_ok h
  obtain ⟨hbegin, hs₂⟩ := Lower.onCurrent_eq_ok hbegin
  obtain ⟨hplain, hplace⟩ := beginBinary_eq_ok hop hbegin
  have hfinish : Lower.onCurrent (pending.place v' >>= pending.conclude) s₃ = .ok w t :=
    Pending.finishBinary_eq hplain v' ▸ h
  obtain ⟨y, u, hplace', hconclude⟩ := onCurrent_bind_eq_ok hfinish
  refine ⟨v, s₁, pending, s₂, v', s₃, y, u, hleft, hplain, ?_, hright, hplace', hconclude⟩
  rw [hs₂]
  exact Lower.onCurrent_of_ok hplace

def Expr.isCall : Expr → Bool
  | .call .. => true
  | _ => false

theorem arguments_cons_eq_ok {arg : Expr} {args : List Expr} {isOpen : Bool}
    (h : Lower.arguments types (arg :: args) s = .ok isOpen t) :
    (∃ r u, EvaluatesInto types arg r s u ∧ Lower.arguments types args u = .ok isOpen t ∧
      ¬(args = [] ∧ arg.isCall = true)) ∨
    ∃ callee inner base, arg = .call callee inner ∧ args = [] ∧ isOpen = true ∧
      Lower.callWith (Lower.expr types callee) (Lower.arguments types inner) inner.length
        .forward s = .ok base t := by
  by_cases hcall : args = [] ∧ arg.isCall = true
  · obtain ⟨rfl, hcall⟩ := hcall
    cases arg with
    | call callee inner =>
      rw [Lower.arguments] at h
      obtain ⟨base, _, h, ⟨⟩⟩ := bind_eq_ok h
      exact .inr ⟨callee, inner, base, rfl, rfl, rfl, h⟩
    | _ => cases hcall
  · left
    have hcons : Lower.arguments types (arg :: args) = (do
        item (← Lower.expr types arg)
        Lower.arguments types args) := by
      cases arg with
      | call callee inner =>
        cases args with
        | nil => exact absurd ⟨rfl, rfl⟩ hcall
        | cons _ _ => rfl
      | _ => rfl
    rw [hcons] at h
    obtain ⟨v, u, hexpr, h⟩ := bind_eq_ok h
    obtain ⟨_, _, hitem, hrest⟩ := bind_eq_ok h
    obtain ⟨r, w, hplace, ⟨⟩⟩ := onCurrent_bind_eq_ok hitem
    exact ⟨r, w, .loaded hexpr hplace, hrest, hcall⟩

/-! ## The code that follows -/

theorem continues_expr (h : Lower.expr types e s = .ok v t) :
    s.current.Continues (fun _ ↦ True) t.current :=
  (Task.expr e).continues types s v t h

theorem continues_onCurrent {α : Type} {step : Build α} {a : α} (hstep : step.CallFree)
    (h : Lower.onCurrent step s = .ok a t) : s.current.Continues (fun _ ↦ True) t.current :=
  (hstep (Lower.onCurrent_eq_ok h).1).toContinues

theorem continues_calling {callee : Expr} {args : List Expr} {use : ResultUse}
    (h : Lower.callWith (Lower.expr types callee) (Lower.arguments types args) args.length use s =
      .ok r t) : s.current.Continues (fun _ ↦ True) t.current := by
  obtain ⟨v, t₁, t₂, isOpen, t₃, hcallee, hbase, hargs, hcall⟩ := callWith_eq_ok h
  have hlast : Works True (fun _ ↦ True) t₃.current t.current :=
    works_call trivial (Lower.onCurrent_eq_ok hcall).1
  have hcallee' := (continues_expr hcallee).trans
    (continues_onCurrent (callFree_inNewRegister v) hbase)
  have hargs' := (Task.arguments args).continues types _ _ _ hargs
  exact hcallee'.trans (hargs'.trans hlast.toContinues)

theorem EvaluatesInto.continues (h : EvaluatesInto types e r s t) :
    s.current.Continues (fun _ ↦ True) t.current := by
  cases h with
  | loaded hexpr hplace =>
    exact (continues_expr hexpr).trans (continues_onCurrent (callFree_inNewRegister _) hplace)
  | forwarded hcall => exact continues_calling hcall

theorem EvaluatesTo.continues (h : EvaluatesTo types e x s t) :
    s.current.Continues (fun _ ↦ True) t.current := by
  cases h with
  | register h => exact h.continues
  | operand hexpr hplace =>
    exact (continues_expr hexpr).trans (continues_onCurrent (callFree_toOperand _) hplace)
  | held hexpr hplace =>
    exact (continues_expr hexpr).trans (continues_onCurrent (callFree_inRegister _) hplace)

/-- The code that a session has from a position on stands in the finished code of the function. -/
def Session.StaysIn (t : Session) (start : Nat) (code : Array Instruction) : Prop :=
  ∀ j, start ≤ j → j < t.size → code[j]? = t.current.proto.code[j]?

theorem Session.StaysIn.mono {start later : Nat} {code : Array Instruction}
    (h : t.StaysIn start code) (hle : start ≤ later) : t.StaysIn later code :=
  fun j hj ↦ h j (hle.trans hj)

theorem Session.StaysIn.earlier {start : Nat} {code : Array Instruction} (h : t.StaysIn start code)
    (hut : u.current.Continues (fun _ ↦ True) t.current) : u.StaysIn start code :=
  fun j hj hu ↦ (h j hj (hu.trans_le hut.size_le)).trans (hut.code j trivial hu)

/-- What is lowered for a function stands in the code of its prototype. -/
theorem Completes.staysIn {options : Options} {program body : List Stmt} {entry last : Session}
    {q : Prototype} {task : Task} {b : task.Result}
    (h : Completes types options program body entry last q)
    (hvisits : Visits types (.statements body) entry task s)
    (hdepth : s.enclosing.length = entry.enclosing.length) (hrun : task.lower types s = .ok b t) :
    t.StaysIn s.size q.code := by
  obtain ⟨-, hlast⟩ := hvisits.continues hdepth h.lowered hrun
  intro j hj hlt
  have hlt' : j < last.current.proto.code.size := hlt.trans_le hlast.size_le
  rw [← h.close_eq, OpenFunction.close, Array.getElem?_push, if_neg hlt'.ne]
  exact hlast.code j hj hlt

/-! ## The registers that the code writes -/

/-- The code that has been appended since a session writes registers of `W` only, and the locals are
as before. -/
structure Session.Appends (s : Session) (W : Nat → Prop) (t : Session) : Prop where
  ready : t.Ready
  locals : t.current.registers.locals = s.current.registers.locals
  code : ∃ is : List Instruction, t.current.proto.code = s.current.proto.code ++ is.toArray ∧
    ∀ i ∈ is, ∀ r, i.writes r = true → W r

namespace Session.Appends

variable {W : Nat → Prop}

theorem trans (hst : s.Appends W t) (htu : t.Appends W u) : s.Appends W u := by
  obtain ⟨is, his, hwrites⟩ := hst.code
  obtain ⟨js, hjs, hwrites'⟩ := htu.code
  refine ⟨htu.ready, htu.locals.trans hst.locals, is ++ js, ?_, ?_⟩
  · simp [hjs, his, Array.append_assoc]
  · exact List.forall_mem_append.mpr ⟨hwrites, hwrites'⟩

theorem of_emitted {Nested : ParamTree → Prototype → Prop} {b : Nat} {ts : List ParamTree}
    {isOpen : Bool} (hs : s.Ready) (hst : s.Extends Nested b ts t)
    (hcode : s.current.Emitted W isOpen t.current) : s.Appends W t := by
  obtain ⟨is, his, hblock⟩ := hcode
  exact ⟨hst.ready hs, hst.locals, is, his, hblock.writes⟩

theorem numLocals (h : s.Appends W t) :
    t.current.registers.numLocals = s.current.registers.numLocals := by
  rw [Registers.numLocals, h.locals, Registers.numLocals]

theorem writes {j : Nat} {i : Instruction} (h : s.Appends W t) (hj : s.size ≤ j)
    (hi : t.current.proto.code[j]? = some i) (hr : i.writes r = true) : W r := by
  obtain ⟨is, his, hwrites⟩ := h.code
  rw [his, Array.getElem?_append_right hj, List.getElem?_toArray] at hi
  exact hwrites i (List.mem_of_getElem? hi) r hr

end Session.Appends

/-- Whatever is assigned, the temporaries in use are not. -/
theorem Session.Ready.covers_outside (hs : s.Ready) (names : List String) :
    s.Covers (fun r ↦ r < s.current.registers.numLocals ∨ s.current.registers.next ≤ r) names where
  free _ hr := .inr hr
  assigned _ _ _ hl := .inl (hs.tidy.find?_lt hl)

variable {W : Nat → Prop}

theorem appends_expr (hs : s.Ready) (hW : s.Covers W e.assignedNames)
    (h : Lower.expr types e s = .ok v t) :
    s.Appends W t ∧
      t.current.Holds v s.current.registers.next t.current.registers.next := by
  have hexpr := translates_expr types closesTo_trivial.block e W 0 s hW hs (Nat.zero_le _)
  obtain ⟨hst, hcode, hv⟩ := hexpr.result h
  exact ⟨.of_emitted hs hst hcode, hv⟩

theorem appends_onCurrent {α : Type} {step : Build α} {a : α} {P : α → OpenFunction → Prop}
    (hs : s.Ready) (hstep : Emits (fun _ _ ↦ True) W 0 step s.current P)
    (h : Lower.onCurrent step s = .ok a t) : s.Appends W t ∧ P a t.current := by
  obtain ⟨hst, hcode, hP⟩ :=
    ((Translates.onCurrent hstep : Translates _ W 0 _ s [] _) hs (Nat.zero_le _)).result h
  exact ⟨.of_emitted hs hst hcode, hP⟩

theorem appends_arguments {args : List Expr} {isOpen : Bool} (hs : s.Ready)
    (hW : s.Covers W (argumentsAssignedNames args))
    (h : Lower.arguments types args s = .ok isOpen t) :
    s.Appends W t ∧ t.current.registers.next = s.current.registers.next + args.length := by
  have hargs := translates_arguments types closesTo_trivial.block args W 0 s hW hs (Nat.zero_le _)
  obtain ⟨hst, hcode, hnext⟩ := hargs.result h
  exact ⟨.of_emitted hs hst hcode, hnext⟩

theorem EvaluatesInto.appends (h : EvaluatesInto types e r s t) (hs : s.Ready)
    (hW : s.Covers W e.assignedNames) :
    s.Appends W t ∧ r = s.current.registers.next ∧
      t.current.registers.next = s.current.registers.next + 1 := by
  cases h with
  | @loaded _ v _ _ u _ hexpr hplace =>
    obtain ⟨hsu, hv⟩ := appends_expr hs hW hexpr
    have hlo : u.current.registers.numLocals ≤ s.current.registers.next :=
      hsu.numLocals.trans_le hs.tidy.numLocals_le
    obtain ⟨hut, rfl, ht⟩ :=
      appends_onCurrent hsu.ready (emits_inNewRegister hlo hW.next hv) hplace
    refine ⟨hsu.trans hut, rfl, ?_⟩
    rw [ht]
    rfl
  | @forwarded callee args r _ _ hcall =>
    rw [Expr.assignedNames] at hW
    have hlowers := lowers_callWith (b := 0) .forward
      (translates_expr types closesTo_trivial.block callee)
      (translates_arguments types closesTo_trivial.block args) hW
    obtain ⟨hst, hcode, rfl, hnext⟩ := (hlowers hs (Nat.zero_le _)).result hcall
    exact ⟨.of_emitted hs hst hcode, rfl, hnext⟩

theorem EvaluatesTo.appends (h : EvaluatesTo types e x s t) (hs : s.Ready)
    (hW : s.Covers W e.assignedNames) :
    s.Appends W t ∧
      t.current.HoldsOperand x s.current.registers.next t.current.registers.next := by
  cases h with
  | register h =>
    obtain ⟨hst, rfl, hnext⟩ := h.appends hs hW
    exact ⟨hst, .inr (.inr ⟨rfl, hnext⟩)⟩
  | @operand v _ _ u _ hexpr hplace =>
    obtain ⟨hsu, hv⟩ := appends_expr hs hW hexpr
    have hlo : u.current.registers.numLocals ≤ s.current.registers.next :=
      hsu.numLocals.trans_le hs.tidy.numLocals_le
    obtain ⟨hut, hplaced⟩ := appends_onCurrent hsu.ready (emits_toOperand hlo hW.next hv) hplace
    exact ⟨hsu.trans hut, hplaced.holds hv⟩
  | @held v _ _ u _ hexpr hplace =>
    obtain ⟨hsu, hv⟩ := appends_expr hs hW hexpr
    have hlo : u.current.registers.numLocals ≤ s.current.registers.next :=
      hsu.numLocals.trans_le hs.tidy.numLocals_le
    obtain ⟨hut, hplaced⟩ := appends_onCurrent hsu.ready (emits_inRegister hlo hW.next hv) hplace
    exact ⟨hsu.trans hut, .inr (hplaced.holds hv)⟩

end LuaLower
