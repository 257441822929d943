import LuaLower.Proofs.DeclaredVariables
import LuaLower.Proofs.EvaluationOrder
import LuaLower.Proofs.NearestVariable

/-!
# Operands that wait

An operand that has been evaluated waits until the operands after it have been evaluated too, and an
instruction takes them all. A temporary is safe while it waits. A local is not copied: it waits in
its own register, and an assignment to it in one of the later operands is seen by the instruction. A
captured variable that is the table of a member access is not even read before.
-/

namespace LuaLower

open OpenFunction Build

variable {types : TypeOracle} {options : Options} {program : List Stmt} {p : Prototype}
  {e first right : Expr} {es fs later : List Expr} {x y : Nat} {v : Value} {s t u w : Session}

/-! ## Registers that are spared -/

/-- An expression assigns the local in a register. -/
def Session.Assigns (s : Session) (e : Expr) (r : Nat) : Prop :=
  ∃ name ∈ e.assignedNames, ∃ l, s.current.local? name = some l ∧ l.register = r

/-- The code from one session to another writes a register only if one of the expressions assigns
the local in it. -/
def Session.Spares (u w : Session) (es : List Expr) (r : Nat) : Prop :=
  ∀ j i, u.size ≤ j → j < w.size → w.current.proto.code[j]? = some i → i.writes r = true →
    ∃ e ∈ es, u.Assigns e r

namespace Session.Spares

variable {r : Nat}

theorem append (huw : u.Spares w es r) (hwt : w.Spares t fs r)
    (hlocals : w.current.registers.locals = u.current.registers.locals)
    (hcontinues : w.current.Continues (fun _ ↦ True) t.current) : u.Spares t (es ++ fs) r := by
  intro j i hj hlt hi hwrites
  rcases Nat.lt_or_ge j w.size with hbefore | hafter
  · rw [hcontinues.code j trivial hbefore] at hi
    obtain ⟨e, he, hassigns⟩ := huw j i hj hbefore hi hwrites
    exact ⟨e, List.mem_append_left fs he, hassigns⟩
  · obtain ⟨e, he, name, hname, l, hl, hregister⟩ := hwt j i hafter hlt hi hwrites
    rw [OpenFunction.local?, Registers.find?, hlocals] at hl
    exact ⟨e, List.mem_append_right es he, name, hname, l, hl, hregister⟩

end Session.Spares

theorem EvaluatesTo.spares {r : Nat} (h : EvaluatesTo types e x s t) (hs : s.Ready)
    (hr : r < s.current.registers.next) : s.Spares t [e] r := by
  intro j i hj _ hi hwrites
  obtain hfree | hassigns := (h.appends hs (s.covers_mayWrite e)).1.writes hj hi hwrites
  · omega
  · exact ⟨e, List.mem_singleton_self e, hassigns⟩

/-- An operand is a constant, or a register below those that are free. -/
theorem EvaluatesTo.isConstant_or_lt (h : EvaluatesTo types e x s t) (hs : s.Ready) :
    RK.isConstant x = true ∨ x < t.current.registers.next := by
  obtain ⟨hst, hholds⟩ := h.appends hs (s.covers_mayWrite e)
  rcases hholds with ⟨k, -, -, rfl, -⟩ | ⟨hlocal, -⟩ | ⟨rfl, hnext⟩
  · exact .inl (RK.isConstant_constant k)
  · exact .inr (hlocal.trans_le hst.ready.tidy.numLocals_le)
  · right
    omega

theorem EvaluatesTo.next_le (h : EvaluatesTo types e x s t) (hs : s.Ready) :
    s.current.registers.next ≤ t.current.registers.next :=
  (h.appends hs (s.covers_mayWrite e)).2.le

/-! ## Instructions that take operands -/

/-- The operands of an operation, of an access to a table, or of a store into one. -/
def Instruction.operands : Instruction → List Nat
  | .abc op a b c => if op = .setTable then [a, b, c] else [b, c]
  | _ => []

theorem Instruction.mem_operands (op : Opcode) (a b c : Nat) :
    b ∈ (Instruction.abc op a b c).operands ∧ c ∈ (Instruction.abc op a b c).operands := by
  rw [operands]
  split <;> simp

/-- The expression `first` is evaluated, then the later ones, and then an instruction takes their
values. While it waits, the operand of the first one is written only by an assignment in a later
one. -/
structure Waiting (types : TypeOracle) (first : Expr) (later : List Expr) (s t : Session) (x : Nat)
    (u w : Session) (i : Instruction) : Prop where
  evaluates : ∃ start, s.current.Continues (fun _ ↦ True) start.current ∧
    EvaluatesTo types first x start u
  ready : u.Ready
  others : Timeline types u later w
  stays : w.current.Continues (fun _ ↦ True) t.current
  instruction : t.current.proto.code[w.size]? = some i
  takes : x ∈ i.operands
  spares : RK.isConstant x = true ∨ u.Spares w later x

namespace Waiting

variable {i : Instruction}

theorem extend (h : Waiting types first later s t x u w i) {t' : Session}
    (ht : t.current.Continues (fun _ ↦ True) t'.current) :
    Waiting types first later s t' x u w i :=
  { h with
    stays := h.stays.trans ht
    instruction := ht.getElem?_eq h.instruction }

/-- A temporary is safe, and so is a local that is not assigned. -/
theorem not_writes (h : Waiting types first later s t x u w i) (hx : RK.isConstant x = false)
    (hsafe : u.current.registers.numLocals ≤ x ∨ ∀ e ∈ later, ¬u.Assigns e x) {j : Nat}
    {i' : Instruction} (hj : u.size ≤ j) (hi' : w.current.proto.code[j]? = some i') :
    i'.writes x = false := by
  have hspares : u.Spares w later x := h.spares.resolve_left (by simp [hx])
  by_contra hwrites
  obtain ⟨e, he, hassigns⟩ :=
    hspares j i' hj (Array.getElem?_eq_some_iff.mp hi').1 hi' (by simpa using hwrites)
  rcases hsafe with htemporary | hkept
  · obtain ⟨name, -, l, hl, rfl⟩ := hassigns
    have hlt := h.ready.tidy.find?_lt hl
    omega
  · exact hkept e he hassigns

end Waiting

/-- One later operand. -/
theorem waiting_pair {i : Instruction} (hs : s.Ready) (hfirst : EvaluatesTo types first x s u)
    (hright : EvaluatesTo types right y u w)
    (hstays : w.current.Continues (fun _ ↦ True) t.current)
    (hi : t.current.proto.code[w.size]? = some i) (htakes : x ∈ i.operands) :
    Waiting types first [right] s t x u w i where
  evaluates := ⟨s, .refl _, hfirst⟩
  ready := (hfirst.appends hs (s.covers_mayWrite first)).1.ready
  others := .evaluate hright (.refl w)
  stays := hstays
  instruction := hi
  takes := htakes
  spares := (hfirst.isConstant_or_lt hs).imp_right fun hlt ↦
    hright.spares (hfirst.appends hs (s.covers_mayWrite first)).1.ready hlt

/-! ## Steps without code -/

/-- A step that does not add code. -/
def Build.Silent {α : Type} (step : Build α) : Prop :=
  ∀ ⦃f a g⦄, step f = .ok a g → g.proto.code = f.proto.code

namespace Build

variable {α β : Type}

theorem silent_pure (a : α) : Silent (pure a) := by
  rintro f _ _ ⟨⟩
  rfl

theorem silent_bind {step : Build α} {k : α → Build β} (hstep : Silent step)
    (hk : ∀ a, Silent (k a)) : Silent (step >>= k) := by
  intro f b h hrun
  obtain ⟨a, g, hfg, hgh⟩ := bind_eq_ok hrun
  exact (hk a hgh).trans (hstep hfg)

theorem silent_release (r : Nat) : Silent (release r) := by
  rintro f _ _ ⟨⟩
  rfl

theorem silent_takeRegister : Silent takeRegister := by
  intro f r g h
  rw [(takeRegister_eq_ok h).2]

theorem silent_releaseBoth (r q : Nat) : Silent (releaseBoth r q) :=
  silent_bind (silent_release _) fun _ ↦ silent_release _

theorem silent_releaseOperands (x y : Nat) : Silent (releaseOperands x y) := by
  unfold releaseOperands releaseOperand
  split
  · split
    · exact silent_pure _
    · exact silent_release y
  · split
    · exact silent_release x
    · exact silent_releaseBoth x y

theorem silent_resultRegister (x y : Nat) : Silent (resultRegister x y) :=
  silent_bind (silent_releaseOperands x y) fun _ ↦ silent_takeRegister

end Build

/-! ## Binary operations -/

theorem Pending.takes_of_conclude {pending : Pending} {f g : OpenFunction}
    (hplain : pending.IsPlain) (h : pending.conclude y f = .ok v g) :
    ∃ i, g.proto.code[f.proto.code.size]? = some i ∧ pending.left ∈ i.operands := by
  cases pending with
  | logical dst jump => exact hplain.elim
  | comparison test left =>
    obtain ⟨dst, f', hdst, h⟩ := bind_eq_ok h
    rw [bind_of_ok (pushComparison_apply _ _ _ _ _)] at h
    cases h
    rw [← silent_resultRegister left y hdst, OpenFunction.emit]
    refine ⟨if test.swapped then .abc test.op test.holdsOn y left
      else .abc test.op test.holdsOn left y, by simp [Comparison.code], ?_⟩
    split
    · exact (Instruction.mem_operands _ _ _ _).2
    · exact (Instruction.mem_operands _ _ _ _).1
  | concat left =>
    obtain ⟨_, f', hrelease, h⟩ := bind_eq_ok h
    obtain ⟨dst, f'', htake, h⟩ := bind_eq_ok h
    rw [bind_of_ok (push_apply _ _)] at h
    cases h
    rw [← silent_releaseBoth left y hrelease, ← silent_takeRegister htake, OpenFunction.emit]
    exact ⟨.abc .concat dst left y, by simp, (Instruction.mem_operands _ _ _ _).1⟩
  | arithmetic op left =>
    obtain ⟨dst, f', hdst, h⟩ := bind_eq_ok h
    rw [bind_of_ok (push_apply _ _)] at h
    cases h
    rw [← silent_resultRegister left y hdst, OpenFunction.emit]
    exact ⟨.abc op dst left y, by simp, (Instruction.mem_operands _ _ _ _).1⟩

theorem waiting_binary {left : Lower Value} {op : BinaryOp} {isString : Bool} (hs : s.Ready)
    (hop : op.logical? = none)
    (hleft : ∀ v s', left s = .ok v s' → Lower.expr types first s = .ok v s')
    (h : Lower.binary op isString left (Lower.expr types right) s = .ok v t) :
    ∃ x u w i, Waiting types first [right] s t x u w i := by
  obtain ⟨v₁, s₁, pending, u, v₂, s₂, y, w, hrun, hplain, hplace, hright, hplace', hconclude⟩ :=
    binary_eq_ok hop h
  have hstays := continues_onCurrent (Pending.callFree_conclude hplain y) hconclude
  obtain ⟨i, hi, htakes⟩ :=
    Pending.takes_of_conclude hplain (Lower.onCurrent_eq_ok hconclude).1
  exact ⟨pending.left, u, w, i, waiting_pair hs (evaluatesTo_place (hleft _ _ hrun) hplace)
    (evaluatesTo_place hright hplace') hstays hi htakes⟩

/-! ## Stores and accesses -/

/-- An instruction that is pushed is found where the code ended before. -/
theorem getElem?_of_push {α : Type} {i : Instruction} {k : Unit → Build α} {a : α}
    {f g : OpenFunction} (h : (push i >>= k) f = .ok a g) (hk : CallFree (k ())) :
    g.proto.code[f.proto.code.size]? = some i ∧ f.Continues (fun _ ↦ True) g := by
  rw [bind_of_ok (push_apply i f)] at h
  have hemit : f.Continues (fun _ ↦ True) (f.emit [i]) := .emit f [i]
  have hrest := (hk h).toContinues
  exact ⟨hrest.getElem?_eq (by simp [OpenFunction.emit]), hemit.trans hrest⟩

namespace Place

/-- The instruction that reads a field of a table into a register. -/
def reading (owner : Place) (dst key : Nat) : Instruction :=
  match owner with
  | .register t => .abc .getTable dst t key
  | .upvalue n => .abc .getTabUp dst n key

/-- The instruction that writes an operand to a field of a table. -/
def storing (owner : Place) (key value : Nat) : Instruction :=
  match owner with
  | .register t => .abc .setTable t key value
  | .upvalue n => .abc .setTabUp n key value

end Place

variable {owner : Place} {f g : OpenFunction}

theorem assign_member_eq_ok {key : Nat} (h : (Target.member owner key).assign v f = .ok () g) :
    ∃ z f', toOperand v f = .ok z f' ∧ f'.Continues (fun _ ↦ True) g ∧
      g.proto.code[f'.proto.code.size]? = some (owner.storing key z) := by
  have hstore (z : Nat) : Target.writeField owner key z = push (owner.storing key z) := by
    cases owner <;> rfl
  obtain ⟨_, f₂, hwrite, hrelease⟩ := bind_eq_ok h
  obtain ⟨z, f', hplace, hwrite⟩ := bind_eq_ok hwrite
  rw [hstore] at hwrite
  obtain ⟨hi, hcontinues⟩ := getElem?_of_push hwrite (callFree_releaseOperand z)
  have hlast := (callFree_releaseTarget _ hrelease).toContinues
  exact ⟨z, f', hplace, hcontinues.trans hlast, hlast.getElem?_eq hi⟩

theorem assignValue_member_eq_ok {key : Nat} {v' : Value}
    (h : (Target.member owner key).assignValue v f = .ok v' g) :
    ∃ z f', inRegister v f = .ok z f' ∧ f'.Continues (fun _ ↦ True) g ∧
      g.proto.code[f'.proto.code.size]? = some (owner.storing key z) := by
  obtain ⟨r, f₁, hplace, h⟩ := bind_eq_ok h
  obtain ⟨_, f₂, hassign, h⟩ := bind_eq_ok h
  obtain ⟨z, f', hz, hcontinues, hi⟩ := assign_member_eq_ok hassign
  cases hz
  have hrest : CallFree (do
      if r < (← get).registers.numLocals then
        return Value.register r
      else
        let dst ← takeRegister
        load (.register r) dst
        return .register dst) := by
    apply callFree_bind callFree_get
    intro f
    split
    · exact callFree_pure _
    · exact callFree_bind callFree_takeRegister fun dst ↦
        callFree_bind (callFree_load _ dst) fun _ ↦ callFree_pure _
  have hlast := (hrest h).toContinues
  exact ⟨r, f₁, hplace, hcontinues.trans hlast, hlast.getElem?_eq hi⟩

theorem toTable_eq_ok (h : toTable v f = .ok owner g) :
    (∃ r, owner = .register r ∧ inRegister v f = .ok r g) ∨
      ∃ n, owner = .upvalue n ∧ v = .upvalue n ∧ g = f := by
  cases v with
  | register r =>
    cases h
    exact .inl ⟨r, rfl, rfl⟩
  | upvalue n =>
    cases h
    exact .inr ⟨n, rfl, rfl, rfl⟩
  | _ =>
    obtain ⟨r, _, hplace, ⟨⟩⟩ := bind_eq_ok h
    exact .inl ⟨r, rfl, hplace⟩

theorem toKey_eq_ok {key : Value} (h : toKey v f = .ok key g) :
    toOperand v f = .ok key.rk g ∧ key.IsKey := by
  cases v with
  | constant k =>
    rw [toKey] at h
    rw [toOperand]
    split at h
    case isTrue hk =>
      cases h
      rw [if_pos hk]
      exact ⟨rfl, hk⟩
    case isFalse hk =>
      obtain ⟨r, _, hplace, ⟨⟩⟩ := bind_eq_ok h
      rw [if_neg hk]
      exact ⟨hplace, trivial⟩
  | _ =>
    obtain ⟨r, _, hplace, ⟨⟩⟩ := bind_eq_ok h
    exact ⟨hplace, trivial⟩

/-- A field is read when its value is loaded. -/
theorem load_member_eq_ok {key : Value} (hkey : key.IsKey)
    (h : load (.member owner.toValue key) x f = .ok () g) :
    f.Continues (fun _ ↦ True) g ∧
      g.proto.code[f.proto.code.size]? = some (owner.reading x key.rk) := by
  have hload : load (.member owner.toValue key) x = push (owner.reading x key.rk) := by
    rw [load, Value.operand_eq hkey]
    cases owner <;> rfl
  rw [hload] at h
  cases h
  exact ⟨.emit f [owner.reading x key.rk], by simp⟩

/-! ## Properties -/

theorem waiting_property {table : Nat} {key : PropertyKey} (hs : s.Ready)
    (h : Lower.property table (Lower.propertyKey types key) (Lower.expr types right) s = .ok () t) :
    ∃ x u w i, Waiting types key.expr [right] s t x u w i := by
  obtain ⟨k, s₁, hkey, h⟩ := bind_eq_ok h
  obtain ⟨x, u, hx, h⟩ := bind_eq_ok h
  obtain ⟨v, s₂, hvalue, h⟩ := bind_eq_ok h
  obtain ⟨y, w, hy, hfield⟩ := bind_eq_ok h
  have hpush : (push (.abc .setTable table x y) >>= fun _ ↦ releaseOperands x y) w.current =
    .ok () t.current := (Lower.onCurrent_eq_ok hfield).1
  obtain ⟨hi, hstays⟩ := getElem?_of_push hpush (callFree_releaseOperands x y)
  exact ⟨x, u, w, _, waiting_pair hs (.operand (expr_of_propertyKey hkey) hx) (.operand hvalue hy)
    hstays hi (Instruction.mem_operands _ _ _ _).1⟩

/-! ## Tables -/

/-- The table of a member access waits like any other operand, unless it is a captured variable:
that is read by the instruction itself. -/
inductive OwnerWaits (types : TypeOracle) (object : Expr) (later : List Expr) (s t : Session) : Prop
  | register {x : Nat} {u w : Session} {i : Instruction} :
    Waiting types object later s t x u w i → OwnerWaits types object later s t
  | captured {n : Nat} {u w : Session} {i : Instruction} :
    Lower.expr types object s = .ok (.upvalue n) u → Timeline types u later w →
    t.current.proto.code[w.size]? = some i → n ∈ i.upvalues → OwnerWaits types object later s t

variable {object key value : Expr} {s₁ s₂ : Session}

theorem ownerWaits_of_toTable {i : Instruction} (hs : s.Ready)
    (hobject : Lower.expr types object s = .ok v s₁)
    (howner : Lower.onCurrent (toTable v) s₁ = .ok owner u) (hothers : Timeline types u later w)
    (hspares : u.Ready → ∀ r, r < u.current.registers.next → u.Spares w later r)
    (hstays : w.current.Continues (fun _ ↦ True) t.current)
    (hi : t.current.proto.code[w.size]? = some i)
    (hregister : ∀ r, owner = .register r → r ∈ i.operands)
    (hupvalue : ∀ n, owner = .upvalue n → n ∈ i.upvalues) :
    OwnerWaits types object later s t := by
  obtain ⟨htable, hu⟩ := Lower.onCurrent_eq_ok howner
  obtain ⟨r, rfl, hplace⟩ | ⟨n, rfl, rfl, hsame⟩ := toTable_eq_ok htable
  · have hplace : Lower.onCurrent (inRegister v) s₁ = .ok r u := by
      rw [hu]
      exact Lower.onCurrent_of_ok hplace
    have heval : EvaluatesTo types object r s u := .held hobject hplace
    have hready := (heval.appends hs (s.covers_mayWrite object)).1.ready
    exact .register {
      evaluates := ⟨s, .refl _, heval⟩
      ready := hready
      others := hothers
      stays := hstays
      instruction := hi
      takes := hregister r rfl
      spares := (heval.isConstant_or_lt hs).imp_right (hspares hready r) }
  · rw [hsame] at hu
    subst hu
    exact .captured hobject hothers hi (hupvalue n rfl)

theorem expr_index_eq_ok (h : Lower.expr types (.index object key) s = .ok v t) :
    ∃ v₁ s₁ owner u v₂ s₂ k, Lower.expr types object s = .ok v₁ s₁ ∧
      Lower.onCurrent (toTable v₁) s₁ = .ok owner u ∧ Lower.expr types key u = .ok v₂ s₂ ∧
      Lower.onCurrent (toKey v₂) s₂ = .ok k t ∧ v = .member owner.toValue k := by
  rw [Lower.expr] at h
  obtain ⟨v₁, s₁, hobject, h⟩ := bind_eq_ok h
  obtain ⟨owner, u, howner, h⟩ := bind_eq_ok h
  obtain ⟨v₂, s₂, hkey, h⟩ := bind_eq_ok h
  obtain ⟨k, _, hk, ⟨⟩⟩ := bind_eq_ok h
  exact ⟨v₁, s₁, owner, u, v₂, s₂, k, hobject, howner, hkey, hk, rfl⟩

/-- The field is read by the instruction that loads it, which may come after steps that add no
code. -/
theorem ownerWaits_index {dst : Nat} {w' : Session} (hs : s.Ready)
    (h : Lower.expr types (.index object key) s = .ok v w)
    (hcode : w'.current.proto.code = w.current.proto.code)
    (hw' : w.current.Continues (fun _ ↦ True) w'.current)
    (hload : Lower.onCurrent (load v dst) w' = .ok () t) : OwnerWaits types object [key] s t := by
  obtain ⟨v₁, s₁, owner, u, v₂, s₂, k, hobject, howner, hkey, hk, rfl⟩ := expr_index_eq_ok h
  obtain ⟨hk', hw⟩ := Lower.onCurrent_eq_ok hk
  obtain ⟨hoperand, hisKey⟩ := toKey_eq_ok hk'
  have heval : EvaluatesTo types key k.rk u w := by
    refine .operand hkey ?_
    rw [hw]
    exact Lower.onCurrent_of_ok hoperand
  obtain ⟨hstays, hi⟩ := load_member_eq_ok hisKey (Lower.onCurrent_eq_ok hload).1
  rw [hcode] at hi
  refine ownerWaits_of_toTable hs hobject howner (.evaluate heval (.refl w))
    (fun hu r hr ↦ heval.spares hu hr) (hw'.trans hstays) hi ?_ ?_
  · rintro r rfl
    exact (Instruction.mem_operands _ _ _ _).1
  · rintro n rfl
    exact List.mem_singleton_self n

/-! ## Assignments -/

/-- The operator and the two sides of the assignment that a task is. -/
def Task.assignment? : Task → Option (AssignOp × Expr × Expr)
  | expr (.assign op left right) => some (op, left, right)
  | statement (.expression (.assign op left right)) => some (op, left, right)
  | _ => none

variable {task : Task} {op : AssignOp} {left : Expr}

theorem assignment_of_lower {b : task.Result} (htask : task.assignment? = some (op, left, right))
    (h : task.lower types s = .ok b t) :
    ∃ compound target v u, op.compound types left right = .ok compound ∧
      Lower.assignment (Lower.target types left) compound (Lower.expr types right) s =
        .ok (target, v) u ∧
      ((∃ v', Lower.onCurrent (target.assignValue v) u = .ok v' t) ∨
        Lower.onCurrent (target.assign v) u = .ok () t) := by
  unfold Task.assignment? at htask
  split at htask <;> cases htask
  · rw [Task.lower, Lower.expr] at h
    obtain ⟨compound, _, hexcept, hrest⟩ := bind_eq_ok h
    obtain ⟨hcompound, rfl⟩ := ofExcept_eq_ok hexcept
    obtain ⟨⟨target, v⟩, u, hassignment, hend⟩ := bind_eq_ok hrest
    exact ⟨compound, target, v, u, hcompound, hassignment, .inl ⟨_, hend⟩⟩
  · rw [Task.lower, Lower.statement] at h
    obtain ⟨compound, _, hexcept, hrest⟩ := bind_eq_ok h
    obtain ⟨hcompound, rfl⟩ := ofExcept_eq_ok hexcept
    obtain ⟨⟨target, v⟩, u, hassignment, hend⟩ := bind_eq_ok hrest
    exact ⟨compound, target, v, u, hcompound, hassignment, .inr hend⟩

/-- Into a field the value is written when it has been placed. -/
theorem evaluatesTo_of_store {y : Nat} (hvalue : Lower.expr types value w = .ok v u)
    (hend : (∃ v', Lower.onCurrent ((Target.member owner y).assignValue v) u = .ok v' t) ∨
      Lower.onCurrent ((Target.member owner y).assign v) u = .ok () t) :
    ∃ z w', EvaluatesTo types value z w w' ∧ w'.current.Continues (fun _ ↦ True) t.current ∧
      t.current.proto.code[w'.size]? = some (owner.storing y z) := by
  obtain ⟨v', hend⟩ | hend := hend
  · obtain ⟨z, f, hplace, hstays, hi⟩ := assignValue_member_eq_ok (Lower.onCurrent_eq_ok hend).1
    exact ⟨z, { u with current := f }, .held hvalue (Lower.onCurrent_of_ok hplace), hstays, hi⟩
  · obtain ⟨z, f, hplace, hstays, hi⟩ := assign_member_eq_ok (Lower.onCurrent_eq_ok hend).1
    exact ⟨z, { u with current := f }, .operand hvalue (Lower.onCurrent_of_ok hplace), hstays, hi⟩

/-- The parts of an assignment to a field are evaluated from left to right. -/
theorem store_of_lower {b : task.Result}
    (htask : task.assignment? = some (.plain, .index object key, value))
    (h : task.lower types s = .ok b t) :
    ∃ v s₁ owner u y w z w', Lower.expr types object s = .ok v s₁ ∧
      Lower.onCurrent (toTable v) s₁ = .ok owner u ∧ EvaluatesTo types key y u w ∧
      EvaluatesTo types value z w w' ∧ w'.current.Continues (fun _ ↦ True) t.current ∧
      t.current.proto.code[w'.size]? = some (owner.storing y z) := by
  obtain ⟨compound, target, v₂, u₂, hcompound, hassignment, hend⟩ := assignment_of_lower htask h
  cases hcompound
  obtain ⟨target', w, htarget, hassignment⟩ := bind_eq_ok hassignment
  obtain ⟨v₂', _, hvalue, ⟨⟩⟩ := bind_eq_ok hassignment
  rw [Lower.target] at htarget
  obtain ⟨v, s₁, hobject, htarget⟩ := bind_eq_ok htarget
  obtain ⟨owner, u, howner, htarget⟩ := bind_eq_ok htarget
  obtain ⟨v₁, s₂, hkey, htarget⟩ := bind_eq_ok htarget
  obtain ⟨y, _, hy, ⟨⟩⟩ := bind_eq_ok htarget
  obtain ⟨z, w', heval, hstays, hi⟩ := evaluatesTo_of_store hvalue hend
  exact ⟨v, s₁, owner, u, y, w, z, w', hobject, howner, .operand hkey hy, heval, hstays, hi⟩

theorem ownerWaits_store {b : task.Result} (hs : s.Ready)
    (htask : task.assignment? = some (.plain, .index object key, value))
    (h : task.lower types s = .ok b t) : OwnerWaits types object [key, value] s t := by
  obtain ⟨v, s₁, owner, u, y, w, z, w', hobject, howner, hkey, hvalue, hstays, hi⟩ :=
    store_of_lower htask h
  refine ownerWaits_of_toTable hs hobject howner (.evaluate hkey (.evaluate hvalue (.refl w')))
    (fun hu r hr ↦ ?_) hstays hi ?_ ?_
  · have huw := (hkey.appends hu (u.covers_mayWrite key)).1
    have hrw : r < w.current.registers.next := hr.trans_le (hkey.next_le hu)
    exact (hkey.spares hu hr).append (hvalue.spares huw.ready hrw) huw.locals hvalue.continues
  · rintro r rfl
    exact List.mem_cons_self
  · rintro n rfl
    exact List.mem_singleton_self n

theorem waiting_storeKey {b : task.Result} (hs : s.Ready)
    (htask : task.assignment? = some (.plain, .index object key, value))
    (h : task.lower types s = .ok b t) : ∃ x u w i, Waiting types key [value] s t x u w i := by
  obtain ⟨v, s₁, owner, u, y, w, z, w', hobject, howner, hkey, hvalue, hstays, hi⟩ :=
    store_of_lower htask h
  obtain ⟨hst₁, hv⟩ := appends_expr hs (s.covers_mayWrite object) hobject
  have hlo := hst₁.numLocals.trans_le hs.tidy.numLocals_le
  have hu : u.Ready :=
    (appends_onCurrent hst₁.ready (emits_toTable hlo trivial hv : Emits _ (fun _ ↦ True) 0 _ _ _)
      howner).1.ready
  have hpair := waiting_pair hu hkey hvalue hstays hi (by cases owner <;> simp [Place.storing,
    Instruction.operands])
  have hbefore := (continues_expr hobject).trans (continues_onCurrent (callFree_toTable v) howner)
  exact ⟨y, w, w', _, { hpair with evaluates := ⟨u, hbefore, hkey⟩ }⟩

theorem nameTarget_of_local {name : String} {l : Local} {target : Target}
    (hl : s.current.local? name = some l) (h : Lower.nameTarget name s = .ok target t) :
    target = .register l.register ∧ t = s := by
  rw [Lower.nameTarget, get_bind] at h
  split at h
  · cases h
  · rw [bind_of_ok (place?_of_local hl)] at h
    cases h
    exact ⟨rfl, rfl⟩

theorem AssignOp.exists_of_compound {compound : Option (BinaryOp × Bool)}
    (hop : op.binary?.isSome = true) (h : op.compound types left right = .ok compound) :
    ∃ o isString, compound = some (o, isString) := by
  obtain ⟨o, ho⟩ := Option.isSome_iff_exists.mp hop
  simp only [AssignOp.compound, ho] at h
  split at h
  · cases h
  · cases h
    exact ⟨_, _, rfl⟩

/-- The old value of a local that is combined with another one is the value of its name. -/
theorem waiting_compound {b : task.Result} {name : String} {l : Local} (hs : s.Ready)
    (htask : task.assignment? = some (op, .identifier name, right))
    (hop : op.binary?.isSome = true) (hl : s.current.local? name = some l)
    (h : task.lower types s = .ok b t) :
    ∃ x u w i, Waiting types (.identifier name) [right] s t x u w i := by
  obtain ⟨compound, target, v, u, hcompound, hassignment, hend⟩ := assignment_of_lower htask h
  have hlast : u.current.Continues (fun _ ↦ True) t.current := by
    obtain ⟨v', hend⟩ | hend := hend
    · exact continues_onCurrent (callFree_assignValue target v) hend
    · exact continues_onCurrent (callFree_assign target v) hend
  obtain ⟨target', s', htarget, hrest⟩ := bind_eq_ok hassignment
  rw [Lower.target] at htarget
  obtain ⟨rfl, rfl⟩ := nameTarget_of_local hl htarget
  obtain ⟨v', _, hvalue, ⟨⟩⟩ := bind_eq_ok hrest
  obtain ⟨o, isString, rfl⟩ := AssignOp.exists_of_compound hop hcompound
  have hread : ∀ v s'', Lower.onCurrent (Target.register l.register).read s' = .ok v s'' →
      Lower.expr types (.identifier name) s' = .ok v s'' := by
    rintro v s'' ⟨⟩
    rw [Lower.expr]
    exact lookup_of_some hs.owners (place?_of_local hl)
  obtain ⟨x, u', w, i, hwaiting⟩ :=
    waiting_binary hs (AssignOp.logical?_of_compound hcompound) hread hvalue
  exact ⟨x, u', w, i, hwaiting.extend hlast⟩

/-! ## Compiled programs -/

/-- In a task, an expression is evaluated whose value an instruction takes only when the later ones
have been evaluated too. -/
inductive Delays (s : Session) : Task → Expr → List Expr → Prop
  | binary {op : BinaryOp} {left right : Expr} : op.logical? = none →
    Delays s (.expr (.binary op left right)) left [right]
  | property {table : Nat} {key : PropertyKey} {value : Expr} {rest : List Property} :
    Delays s (.objectProperties table (⟨key, value⟩ :: rest)) key.expr [value]
  | compound {task : Task} {op : AssignOp} {name : String} {l : Local} {right : Expr} :
    task.assignment? = some (op, .identifier name, right) → op.binary?.isSome = true →
    s.current.local? name = some l → Delays s task (.identifier name) [right]
  | key {task : Task} {object key value : Expr} :
    task.assignment? = some (.plain, .index object key, value) → Delays s task key [value]

theorem Delays.exists_waiting {b : task.Result} (h : Delays s task first later) (hs : s.Ready)
    (hrun : task.lower types s = .ok b t) :
    ∃ x u w i, Waiting types first later s t x u w i := by
  cases h with
  | binary hop =>
    rw [Task.lower, Lower.expr] at hrun
    exact waiting_binary hs hop (fun _ _ h ↦ h) hrun
  | property =>
    rw [Task.lower, Lower.objectProperties] at hrun
    obtain ⟨_, t', hproperty, hrest⟩ := bind_eq_ok hrun
    obtain ⟨x, u, w, i, hwaiting⟩ := waiting_property hs hproperty
    exact ⟨x, u, w, i, hwaiting.extend (Task.continues types (.objectProperties _ _) _ _ _ hrest)⟩
  | compound htask hop hl => exact waiting_compound hs htask hop hl hrun
  | key htask => exact waiting_storeKey hs htask hrun

/-- An operand that waits for later ones is overwritten meanwhile only if it is a local that one of
these assigns. The table of a member access waits likewise, unless it is captured. -/
theorem first_operand_waits (types : TypeOracle) (options : Options) (program : List Stmt)
    (p : Prototype) (hp : compileBody types options program = .ok p) (task : Task) (s : Session)
    (htask : Encounters types options program task s) :
    (∃ (q : Prototype) (b : task.Result) (t : Session), p.Contains q ∧
      task.lower types s = .ok b t ∧ t.StaysIn s.size q.code ∧
      (∀ first later, Delays s task first later →
        ∃ x u w i, Waiting types first later s t x u w i) ∧
      ∀ object key value, task.assignment? = some (.plain, .index object key, value) →
        OwnerWaits types object [key, value] s t) ∧
    (∀ object key, task = .expr (.index object key) →
      ∃ v w, Lower.expr types (.index object key) s = .ok v w ∧
        ∀ dst w' t, w'.current.proto.code = w.current.proto.code →
          w.current.Continues (fun _ ↦ True) w'.current →
          Lower.onCurrent (load v dst) w' = .ok () t → OwnerWaits types object [key] s t) ∧
    ∀ first later t x u w i, Waiting types first later s t x u w i → RK.isConstant x = false →
      u.current.registers.numLocals ≤ x ∨ (∀ e ∈ later, ¬u.Assigns e x) →
      (∀ i' ∈ w.current.proto.code.toList.drop u.size, i'.writes x = false) ∧
      ∀ (V : Type) (effects : RegisterEffects V) (ρ σ : Nat → V),
        effects.Runs (w.current.proto.code.toList.drop u.size) ρ σ → σ x = ρ x := by
  have hs := htask.ready hp
  obtain ⟨q, body, entry, last, hq, hcompletes, hvisits, hdepth⟩ := htask.exists_completes hp
  obtain ⟨b, t, hrun⟩ := htask.succeeds hp
  refine ⟨⟨q, b, t, hq, hrun, hcompletes.staysIn hvisits hdepth hrun, ?_, ?_⟩, ?_, ?_⟩
  · exact fun first later hdelays ↦ hdelays.exists_waiting hs hrun
  · exact fun object key value hstore ↦ ownerWaits_store hs hstore hrun
  · rintro object key rfl
    exact ⟨b, t, hrun, fun dst w' t' ↦ ownerWaits_index hs hrun⟩
  · intro first later t x u w i hwaiting hx hsafe
    have hkept (i' : Instruction) (hi' : i' ∈ w.current.proto.code.toList.drop u.size) :
        i'.writes x = false := by
      obtain ⟨j, hj⟩ := List.mem_iff_getElem?.mp hi'
      rw [List.getElem?_drop, Array.getElem?_toList] at hj
      exact hwaiting.not_writes hx hsafe (Nat.le_add_right _ j) hj
    exact ⟨hkept, fun V effects ρ σ hruns ↦ hruns.keeps hkept⟩

/-- `f[g] = f == g; function f() {} function g() {}` -/
def comparedStore : List Stmt :=
  [.expression (.assign .plain (.index (.identifier "f") (.identifier "g"))
    (.binary .eq (.identifier "f") (.identifier "g"))),
   .function "f" [] [],
   .function "g" [] []]

/-- The table and the key wait for the comparison, each in a register of its own that the comparison
does not touch. -/
theorem first_operand_waits_comparedStore :
    ∃ (p : Prototype) (s t : Session),
      compileBody (SyntaxOracle.oracle {}) {} comparedStore = .ok p ∧
      OwnerWaits (SyntaxOracle.oracle {}) (.identifier "f")
        [.identifier "g", .binary .eq (.identifier "f") (.identifier "g")] s t ∧
      ∃ x u w i, Waiting (SyntaxOracle.oracle {}) (.identifier "g")
          [.binary .eq (.identifier "f") (.identifier "g")] s t x u w i ∧
        (RK.isConstant x = false →
          ∀ i' ∈ w.current.proto.code.toList.drop u.size, i'.writes x = false) := by
  obtain ⟨p, hp⟩ : ∃ p, compileBody (SyntaxOracle.oracle {}) {} comparedStore = .ok p :=
    exists_ok_of_isOk (by decide +kernel)
  obtain ⟨⟨q, -, t, -, -, -, hdelays, hstore⟩, -, hkept⟩ :=
    first_operand_waits _ _ _ p hp (.statement (comparedStore.head (by decide))) _
      (.inside (.part _ _ _) (.self _ _))
  obtain ⟨x, u, w, i, hwaiting⟩ := hdelays _ _ (.key rfl)
  refine ⟨p, _, t, hp, hstore _ _ _ rfl, x, u, w, i, hwaiting, fun hx ↦ ?_⟩
  have hassigns : ∀ e ∈ [Expr.binary .eq (.identifier "f") (.identifier "g")],
      ¬u.Assigns e x := by
    rintro e he ⟨name, hname, -⟩
    obtain rfl := List.mem_singleton.mp he
    exact absurd hname List.not_mem_nil
  exact (hkept _ _ t x u w i hwaiting hx (.inr hassigns)).1

/-- `let x = 1; let y = x + (x = 2);` -/
def assignedOperand : List Stmt :=
  [.declaration .let [⟨"x", some (.literal (.number .one))⟩],
   .declaration .let
    [⟨"y", some (.binary .add (.identifier "x")
      (.assign .plain (.identifier "x") (.literal (.number ⟨0x4000000000000000⟩))))⟩]]

/-- The sum takes the register of `x` for both operands, after the assignment has written it. -/
theorem waiting_local_overwritten_assignedOperand :
    ∃ p, compileBody (SyntaxOracle.oracle {}) {} assignedOperand = .ok p ∧
      p.code.toList = [.abx .loadK 0 0, .abx .loadK 0 1, .abc .add 1 0 0, .abc .ret 0 1 0] :=
  exists_ok_of_toOption (by decide +kernel)

end LuaLower
