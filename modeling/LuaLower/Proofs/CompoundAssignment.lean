import LuaLower.Proofs.AssignedPlaces

/-!
# Compound assignments and what they stand for

A compound assignment to a name reads its target and then combines the value with the right side.
The assignment that it stands for finds the target, looks the name up once more and leaves it to the
operator to load the value. Both emit the same code, since a second search for a name changes
nothing and a value that is not in a register is loaded into the same one either way. Where strings
are joined the left operand gets a register of its own; the one that was just taken for it is given
back and taken again.
-/

namespace LuaLower

open OpenFunction Build

variable {types : TypeOracle} {x : String} {f g : OpenFunction} {s t : Session} {target : Target}
  {v : Value} {o : BinaryOp} {opcode : Opcode} {isString : Bool}

/-! ## Steps that change nothing a second time -/

theorem Registers.Tidy.take_release_take {rs : Registers} (h : rs.Tidy) (hlimit : rs.next < limit) :
    (rs.take.release rs.next).take = rs.take ∧ (rs.take.release rs.next).next = rs.next := by
  rw [h.take_eq hlimit, (h.raise hlimit).release_eq h.numLocals_le rfl]
  have hlow := (h.raise hlimit).lower (m := rs.next) h.numLocals_le (Nat.le_succ _)
  refine ⟨?_, rfl⟩
  rw [hlow.take_eq hlimit]
  simp

theorem OpenFunction.intern_intern (f : OpenFunction) (k : Constant) :
    (f.intern k).intern k = f.intern k := by
  simp only [intern, Pool.insert_insert]

theorem place?_again {place : Option Place} (hlinked : Linked s.functions)
    (h : Lower.place? x s = .ok place t) : Lower.place? x t = .ok place t := by
  by_cases hx : x = envName
  · subst hx
    obtain rfl := (yields_place?_env hlinked).result h
    exact h
  · exact ((yields_place?_linked hx hlinked).result h).2.2

/-- The key of a global is one of the first constants. -/
theorem globalField_of_le {env : Nat} (henv : f.upvalueIndex? envName = some env)
    (hk : (f.proto.constants.insert (.string x)).1 ≤ RK.maxIndex) :
    globalField x f = .ok (env, .constant (f.proto.constants.insert (.string x)).1)
      (f.intern (.string x)) := by
  have hkey : toKey (.constant (f.proto.constants.insert (.string x)).1) (f.intern (.string x)) =
      .ok (.constant (f.proto.constants.insert (.string x)).1) (f.intern (.string x)) := by
    rw [toKey, if_pos hk]
    rfl
  rw [globalField, get_bind, henv]
  exact bind_of_ok hkey

theorem globalTarget_of_le {env : Nat} (henv : f.upvalueIndex? envName = some env)
    (hk : (f.proto.constants.insert (.string x)).1 ≤ RK.maxIndex) :
    globalTarget x f =
      .ok (.member (.upvalue env) (RK.constant (f.proto.constants.insert (.string x)).1))
        (f.intern (.string x)) := by
  have hoperand : (Value.constant (f.proto.constants.insert (.string x)).1).operand =
      .ok (RK.constant (f.proto.constants.insert (.string x)).1) := by
    rw [Value.operand, if_pos hk]
  rw [globalTarget, bind_of_ok (globalField_of_le henv hk)]
  simp only [hoperand]
  rfl

/-- A global whose name is a constant already is read without a trace. -/
theorem globalValue_again {env : Nat} (henv : f.upvalueIndex? envName = some env)
    (hk : (f.proto.constants.insert (.string x)).1 ≤ RK.maxIndex) :
    globalValue x (f.intern (.string x)) =
      .ok (.member (.upvalue env) (.constant (f.proto.constants.insert (.string x)).1))
        (f.intern (.string x)) := by
  have hinsert : (f.intern (.string x)).proto.constants.insert (.string x) =
      f.proto.constants.insert (.string x) := Pool.insert_insert _ _
  have hfield := globalField_of_le (f := f.intern (.string x)) (x := x) henv (hinsert ▸ hk)
  rw [hinsert, intern_intern] at hfield
  exact bind_of_ok hfield

/-! ## Looking a target up -/

/-- The target that a name stands for, and the value of the name. A value that is not in a register
holds none. -/
inductive Target.NamedAs : Target → Value → Prop
  | register (r : Nat) : NamedAs (.register r) (.register r)
  | upvalue (u : Nat) : NamedAs (.upvalue u) (.upvalue u)
  | global {env k : Nat} : k ≤ RK.maxIndex →
    NamedAs (.member (.upvalue env) (RK.constant k)) (.member (.upvalue env) (.constant k))

/-- Once a name is a target, looking it up changes nothing. -/
theorem lookup_again (types : TypeOracle) (hs : s.Regular)
    (hx : s.binds x = true ∨ (s.current.proto.constants.insert (.string x)).1 ≤ RK.maxIndex)
    (h : Lower.nameTarget x s = .ok target t) :
    ∃ v, Lower.lookup types x t = .ok v t ∧ target.NamedAs v ∧
      t.current.registers = s.current.registers := by
  have ht := ((Lower.still_nameTarget x s).result h).toFollows.regular hs
  obtain ⟨place, hplace, rfl⟩ | ⟨u, hplace, hconstant, hglobal⟩ := nameTarget_eq_ok h
  · have hfound := (yields_place? x s).result hplace
    refine ⟨place.toValue, lookup_of_some ht.owners (place?_again hs.linked hplace), ?_,
      hfound.resolved.chain.innermost.registers⟩
    cases place with
    | register r => exact .register r
    | upvalue u => exact .upvalue u
  · have hfound := (yields_place? x s).result hplace
    have hk := hx.resolve_left (by simp [← hfound.isSome_eq])
    cases hfound with
    | missing hlocal hcaptures =>
      obtain ⟨hnearest, hname⟩ := nearest?_of_not_captures hs.linked hlocal hcaptures
      cases (place?_of_missing hs.linked hname hnearest).symm.trans hplace
      have henv := hs.linked.1.upvalueIndex?_env
      have htarget := Lower.onCurrent_of_ok (s := { s with names := s.names.addGlobal x })
        (globalTarget_of_le henv hk)
      cases htarget.symm.trans hglobal
      refine ⟨_, ?_, .global hk, rfl⟩
      have hmissing : Lower.place? x _ = .ok none _ := place?_of_missing ht.linked hname hnearest
      rw [lookup_of_none ht.owners hmissing hconstant (by simp)]
      exact Lower.onCurrent_of_ok (globalValue_again henv hk)

/-! ## Loading the left operand -/

/-- Reading a target loads the value that looking it up gives. -/
theorem Target.NamedAs.read_eq (h : target.NamedAs v) (hv : ∀ r, v ≠ .register r) :
    target.read = (do return .register (← inNewRegister v)) := by
  cases h with
  | register r => exact absurd rfl (hv r)
  | upvalue u => simp [read, inNewRegister, releaseValue, load]
  | global hk =>
    simp [read, readField, inNewRegister, releaseValue, load, Value.operand, hk,
      MonadExcept.ofExcept]

/-- Loading the value of a name takes one register. -/
theorem Target.NamedAs.taken {r : Nat} (h : target.NamedAs v) (hv : ∀ r, v ≠ .register r)
    (hrun : inNewRegister v f = .ok r g) :
    f.registers.next < Registers.limit ∧ r = f.registers.next ∧
      g.registers = f.registers.take := by
  have hrelease : releaseValue v f = .ok () f := by
    cases h with
    | register r => exact absurd rfl (hv r)
    | upvalue u => rfl
    | global => rfl
  rw [inNewRegister, bind_of_ok hrelease] at hrun
  obtain ⟨dst, f₁, htake, hrun⟩ := bind_eq_ok hrun
  obtain ⟨_, f₂, hload, hend⟩ := bind_eq_ok hrun
  cases hend
  have hlimit : f.registers.next < Registers.limit := by
    by_contra hfull
    cases (takeRegister_of_le (Nat.not_lt.mp hfull)).symm.trans htake
  obtain ⟨rfl, rfl⟩ := takeRegister_eq_ok htake
  refine ⟨hlimit, rfl, ?_⟩
  cases h with
  | register r => exact absurd rfl (hv r)
  | upvalue u =>
    cases hload
    rfl
  | global hk =>
    rw [load, Value.operand, if_pos hk] at hload
    cases hload
    rfl

/-- The register that was taken last is given back and taken again. -/
theorem inNewRegister_of_taken (hf : f.registers.Tidy)
    (hlimit : f.registers.next < Registers.limit) (hg : g.registers = f.registers.take) :
    inNewRegister (.register f.registers.next) g = .ok f.registers.next g := by
  obtain ⟨htaken, hnext⟩ := hf.take_release_take hlimit
  rw [← hg] at htaken hnext
  have hrelease : releaseValue (.register f.registers.next) g =
      .ok () { g with registers := g.registers.release f.registers.next } := rfl
  have htake : takeRegister { g with registers := g.registers.release f.registers.next } =
      .ok f.registers.next g := by
    rw [takeRegister, get_bind, if_pos (hnext.trans_lt hlimit)]
    simp only [htaken, hnext]
    rfl
  have hload : load (.register f.registers.next) f.registers.next g = .ok () g := by
    rw [load, if_pos rfl]
    rfl
  rw [inNewRegister, bind_of_ok hrelease, bind_of_ok htake, bind_of_ok hload]
  rfl

theorem beginBinary_of_arithmetic (ho : o.arithmetic? = some opcode) (isString : Bool) (v : Value) :
    beginBinary o isString v =
      if isString then (do return .concat (← inNewRegister v))
      else (do return .arithmetic opcode (← toOperand v)) := by
  cases o <;> cases ho <;> rfl

/-- To begin an operation with what was read from a target is to begin it with the value of the
target. -/
theorem beginBinary_read (ho : o.arithmetic? = some opcode) (h : target.NamedAs v)
    (hf : f.registers.Tidy) :
    (target.read >>= beginBinary o isString) f = beginBinary o isString v f := by
  by_cases hv : ∃ r, v = .register r
  · obtain ⟨r, rfl⟩ := hv
    cases h
    rfl
  · have hv : ∀ r, v ≠ .register r := not_exists.mp hv
    have hoperand : toOperand v = inNewRegister v := by
      cases h with
      | register r => exact absurd rfl (hv r)
      | upvalue u => rfl
      | global => rfl
    rw [h.read_eq hv, bind_assoc]
    simp only [pure_bind, beginBinary_of_arithmetic ho, hoperand]
    cases hrun : inNewRegister v f with
    | error e g =>
      rw [bind_of_error hrun]
      cases isString <;> exact (bind_of_error hrun).symm
    | ok r g =>
      rw [bind_of_ok hrun]
      cases isString with
      | true =>
        obtain ⟨hlimit, rfl, hg⟩ := h.taken hv hrun
        simp only [if_true]
        rw [bind_of_ok (inNewRegister_of_taken hf hlimit hg), bind_of_ok hrun]
      | false =>
        simp only [Bool.false_eq_true, if_false]
        rw [bind_of_ok hrun]
        rfl

theorem binary_read {right : Lower Value} (ho : o.arithmetic? = some opcode) (h : target.NamedAs v)
    (ht : t.current.registers.Tidy) (hlookup : Lower.lookup types x t = .ok v t) :
    Lower.binary o isString (Lower.onCurrent target.read) right t =
      Lower.binary o isString (Lower.lookup types x) right t := by
  have hbegin : (do
      let left ← Lower.onCurrent target.read
      Lower.onCurrent (beginBinary o isString left)) t = (do
      let left ← Lower.lookup types x
      Lower.onCurrent (beginBinary o isString left)) t := by
    rw [bind_of_ok hlookup, ← Lower.onCurrent_bind]
    exact Lower.onCurrent_congr (beginBinary_read ho h ht)
  simp only [Lower.binary, Lower.liftM_eq_onCurrent, ← bind_assoc]
  exact bind_congr_at hbegin fun _ _ _ ↦ rfl

/-! ## Assignments -/

/-- The target is found once, and what is written to it is the same either way. -/
theorem assignment_expands (types : TypeOracle) (e : Expr) (ho : o.arithmetic?.isSome = true)
    (hs : s.Regular) (htidy : s.current.registers.Tidy)
    (hx : s.binds x = true ∨ (s.current.proto.constants.insert (.string x)).1 ≤ RK.maxIndex) :
    Lower.assignment (Lower.target types (.identifier x))
        (some (o, o == .add && types.isString (.binary o (.identifier x) e)))
        (Lower.expr types e) s =
      Lower.assignment (Lower.target types (.identifier x)) none
        (Lower.expr types (.binary o (.identifier x) e)) s := by
  obtain ⟨opcode, ho⟩ := Option.isSome_iff_exists.mp ho
  simp only [Lower.target, Lower.expr]
  apply bind_congr_at rfl
  intro target t htarget
  obtain ⟨v, hlookup, hnamed, hregisters⟩ := lookup_again types hs hx htarget
  exact bind_congr_at (binary_read ho hnamed (hregisters ▸ htidy) hlookup) fun _ _ _ ↦ rfl

section Forms

variable {op : AssignOp} {u : UpdateOp} {form : UpdateForm} {left right : Expr}
  {compound : Option (BinaryOp × Bool)}

theorem Lower.expr_assign (h : op.compound types left right = .ok compound) :
    Lower.expr types (.assign op left right) = (do
      let (target, value) ← assignment (Lower.target types left) compound (expr types right)
      onCurrent (target.assignValue value)) := by
  rw [Lower.expr, h]
  rfl

theorem Lower.statement_assign (h : op.compound types left right = .ok compound) :
    Lower.statement types (.expression (.assign op left right)) = (do
      let (target, value) ← assignment (Lower.target types left) compound (expr types right)
      onCurrent (target.assign value)) := by
  rw [Lower.statement, h]
  rfl

theorem Lower.expr_update (h : u.compound form = .ok compound) :
    Lower.expr types (.update u form left) = (do
      let (target, value) ← assignment (Lower.target types left) compound
        (expr types (.literal (.number .one)))
      onCurrent (target.assignValue value)) := by
  simp only [Lower.expr, h]
  rfl

theorem Lower.statement_update (h : u.compound form = .ok compound) :
    Lower.statement types (.expression (.update u form left)) = (do
      let (target, value) ← assignment (Lower.target types left) compound
        (expr types (.literal (.number .one)))
      onCurrent (target.assign value)) := by
  rw [Lower.statement, h, Lower.expr]
  rfl

end Forms

theorem AssignOp.compound_eq (types : SyntaxOracle) {op : AssignOp} (hop : op.binary? = some o)
    (ho : o.arithmetic?.isSome = true) (left right : Expr) :
    op.compound types.oracle left right =
      .ok (some (o, o == .add && types.oracle.isString (.binary o left right))) := by
  have hlogical : ¬(o = .and ∨ o = .or ∨ o = .nullish) := by
    rintro (rfl | rfl | rfl) <;> cases ho
  simp only [compound, hop, if_neg hlogical]
  by_cases hadd : o = .add
  · subst hadd
    rfl
  · have hsum : (o == .add) = false := beq_eq_false_iff_ne.mpr hadd
    simp only [hsum, Bool.false_and]

/-- An update joins no strings, and neither does the sum that it stands for. -/
theorem UpdateOp.compound_eq {types : SyntaxOracle} (u : UpdateOp) (hx : x ∉ types.strings) :
    u.compound .before = .ok (some (u.binary, u.binary == .add &&
      types.oracle.isString (.binary u.binary (.identifier x) (.literal (.number .one))))) := by
  cases u <;> simp [compound, binary, SyntaxOracle.oracle, SyntaxOracle.isString, hx]

theorem UpdateOp.isSome_arithmetic? (u : UpdateOp) : u.binary.arithmetic?.isSome = true := by
  cases u <;> rfl

/-- A compound assignment to a variable, or to a global named by one of the first constants, is
lowered exactly as its expansion. So is an update, unless the name is known to hold a string. -/
theorem compound_assignment_expands (types : SyntaxOracle) (s : Session)
    (hs : s.Reachable types.oracle) (horder : s.inOrder = true) (x : String)
    (hx : s.binds x = true ∨ (s.current.proto.constants.insert (.string x)).1 ≤ RK.maxIndex) :
    (∀ (op : AssignOp) (o : BinaryOp) (e : Expr), op.binary? = some o →
      o.arithmetic?.isSome = true →
      Lower.expr types.oracle (.assign op (.identifier x) e) s =
        Lower.expr types.oracle
          (.assign .plain (.identifier x) (.binary o (.identifier x) e)) s ∧
      Lower.statement types.oracle (.expression (.assign op (.identifier x) e)) s =
        Lower.statement types.oracle
          (.expression (.assign .plain (.identifier x) (.binary o (.identifier x) e))) s) ∧
    ∀ u : UpdateOp, x ∉ types.strings →
      Lower.expr types.oracle (.update u .before (.identifier x)) s =
        Lower.expr types.oracle (.assign .plain (.identifier x)
          (.binary u.binary (.identifier x) (.literal (.number .one)))) s ∧
      Lower.statement types.oracle (.expression (.update u .before (.identifier x))) s =
        Lower.statement types.oracle (.expression (.assign .plain (.identifier x)
          (.binary u.binary (.identifier x) (.literal (.number .one))))) s := by
  have hplain (e : Expr) : AssignOp.plain.compound types.oracle (.identifier x) e = .ok none := rfl
  constructor
  · intro op o e hop ho
    have hcompound := AssignOp.compound_eq types hop ho (.identifier x) e
    have hassignment := assignment_expands types.oracle e ho hs.regular (hs.tidy horder) hx
    constructor
    · rw [Lower.expr_assign hcompound, Lower.expr_assign (hplain _)]
      exact bind_congr_at hassignment fun _ _ _ ↦ rfl
    · rw [Lower.statement_assign hcompound, Lower.statement_assign (hplain _)]
      exact bind_congr_at hassignment fun _ _ _ ↦ rfl
  · intro u hstring
    have hcompound := u.compound_eq hstring
    have hassignment := assignment_expands types.oracle (.literal (.number .one))
      u.isSome_arithmetic? hs.regular (hs.tidy horder) hx
    constructor
    · rw [Lower.expr_update hcompound, Lower.expr_assign (hplain _)]
      exact bind_congr_at hassignment fun _ _ _ ↦ rfl
    · rw [Lower.statement_update hcompound, Lower.statement_assign (hplain _)]
      exact bind_congr_at hassignment fun _ _ _ ↦ rfl

/-- In a nested function, `x += "s"` joins a captured variable with a string, `total <<= 1` is a
statement about a global, and `++x` is an update. -/
theorem compound_assignment_expands_inVarBody :
    Session.inVarBody.Reachable (SyntaxOracle.oracle {}) ∧ Session.inVarBody.inOrder = true ∧
    (Session.inVarBody.binds "x" = true ∧
      ∃ t, Lower.expr (SyntaxOracle.oracle {})
          (.assign .add (.identifier "x") (.literal (.string "s"))) .inVarBody =
            .ok (.register 0) t ∧
        Lower.expr (SyntaxOracle.oracle {}) (.assign .plain (.identifier "x")
          (.binary .add (.identifier "x") (.literal (.string "s")))) .inVarBody =
            .ok (.register 0) t) ∧
    (Session.inVarBody.binds "total" = false ∧
      (Session.inVarBody.current.proto.constants.insert (.string "total")).1 ≤ RK.maxIndex ∧
      ∃ t, Lower.statement (SyntaxOracle.oracle {})
          (.expression (.assign .shl (.identifier "total") (.literal (.number .one)))) .inVarBody =
            .ok () t ∧
        Lower.statement (SyntaxOracle.oracle {}) (.expression (.assign .plain (.identifier "total")
          (.binary .shl (.identifier "total") (.literal (.number .one))))) .inVarBody = .ok () t) ∧
    ∃ t, Lower.expr (SyntaxOracle.oracle {}) (.update .increment .before (.identifier "x"))
          .inVarBody = .ok (.register 0) t ∧
        Lower.expr (SyntaxOracle.oracle {}) (.assign .plain (.identifier "x")
          (.binary .add (.identifier "x") (.literal (.number .one)))) .inVarBody =
            .ok (.register 0) t := by
  have hs : Session.inVarBody.Reachable (SyntaxOracle.oracle {}) :=
    encounters_var_shadowingVar.reachable
  have hbinds : Session.inVarBody.binds "x" = true := by decide +kernel
  have hindex : (Session.inVarBody.current.proto.constants.insert (.string "total")).1 ≤
      RK.maxIndex := by decide +kernel
  obtain ⟨hassign, hupdate⟩ := compound_assignment_expands {} .inVarBody hs rfl "x" (.inl hbinds)
  obtain ⟨hglobal, -⟩ := compound_assignment_expands {} .inVarBody hs rfl "total" (.inr hindex)
  obtain ⟨t, ht⟩ : ∃ t, Lower.expr (SyntaxOracle.oracle {})
      (.assign .add (.identifier "x") (.literal (.string "s"))) .inVarBody = .ok (.register 0) t :=
    exists_ok_of_run (by decide +kernel)
  obtain ⟨u, hu⟩ : ∃ u, Lower.statement (SyntaxOracle.oracle {})
      (.expression (.assign .shl (.identifier "total") (.literal (.number .one)))) .inVarBody =
        .ok () u := exists_ok_of_run (by decide +kernel)
  obtain ⟨w, hw⟩ : ∃ w, Lower.expr (SyntaxOracle.oracle {})
      (.update .increment .before (.identifier "x")) .inVarBody = .ok (.register 0) w :=
    exists_ok_of_run (by decide +kernel)
  refine ⟨hs, rfl, ⟨hbinds, t, ht, ?_⟩, ⟨by decide +kernel, hindex, u, hu, ?_⟩, w, hw, ?_⟩
  · exact (hassign .add .add _ rfl rfl).1.symm.trans ht
  · exact (hglobal .shl .shl _ rfl rfl).2.symm.trans hu
  · exact (hupdate .increment (by decide)).1.symm.trans hw

end LuaLower
