import LuaLower.Proofs.BlockScope
import LuaLower.Proofs.Lowering.Reachability

/-!
# Reading the places that assignments write

What an assignment writes to is found by other steps than what an expression reads: the key of a
field becomes an operand and not a value, no table is put on the owners, and a name is first tried
as a constant and then becomes a global. Nevertheless the same expression means the same place on
both sides of an assignment, and what is emitted on the way to it is the same.
-/

namespace LuaLower

open OpenFunction Build

variable {types : TypeOracle} {α : Type} {x : String} {f g : OpenFunction} {s t : Session}
  {target : Target} {v : Value} {key : Nat}

/-! ## Targets and values -/

/-- The value that is found in the place of a target. -/
inductive Target.ReadAs : Target → Value → Prop
  | register (r : Nat) : ReadAs (.register r) (.register r)
  | upvalue (u : Nat) : ReadAs (.upvalue u) (.upvalue u)
  | member {owner : Place} {member : Value} {key : Nat} : member.operand = .ok key →
    ReadAs (.member owner key) (.member owner.toValue member)

theorem Place.readAs (place : Place) : place.toTarget.ReadAs place.toValue := by
  cases place with
  | register r => exact .register r
  | upvalue u => exact .upvalue u

/-! ## Keys -/

/-- An operand is the operand of a key. -/
theorem toOperand_eq (v : Value) :
    toOperand v = (do
      let key ← toKey v
      MonadExcept.ofExcept key.operand) := by
  cases v with
  | constant k =>
    rw [toOperand, toKey]
    split
    case isTrue hk =>
      rw [pure_bind, Value.operand, if_pos hk]
      rfl
    case isFalse hk => simp [Value.operand, MonadExcept.ofExcept]
  | _ => simp [toOperand, toKey, Value.operand, MonadExcept.ofExcept]

theorem toKey_of_toOperand (h : toOperand v f = .ok key g) :
    ∃ member, toKey v f = .ok member g ∧ member.operand = .ok key := by
  rw [toOperand_eq] at h
  obtain ⟨member, u, hmember, h⟩ := bind_eq_ok h
  obtain ⟨hkey, rfl⟩ := ofExcept_eq_ok h
  exact ⟨member, hmember, hkey⟩

theorem Lower.toKey_of_toOperand (h : Lower.onCurrent (toOperand v) s = .ok key t) :
    ∃ member, Lower.onCurrent (toKey v) s = .ok member t ∧ member.operand = .ok key := by
  obtain ⟨hrun, ht⟩ := Lower.onCurrent_eq_ok h
  obtain ⟨member, hmember, hkey⟩ := LuaLower.toKey_of_toOperand hrun
  rw [ht]
  exact ⟨member, Lower.onCurrent_of_ok hmember, hkey⟩

/-! ## Names -/

theorem place?_names {place : Option Place} (names : Names)
    (h : Lower.place? x s = .ok place t) :
    Lower.place? x { s with names } = .ok place { t with names } := by
  cases hlocal : s.current.local? x with
  | some l =>
    cases (place?_of_local hlocal).symm.trans h
    exact place?_of_local hlocal
  | none =>
    cases hcapture : capture x s.current s.enclosing with
    | ok u chain =>
      cases (place?_of_capture hlocal hcapture).symm.trans h
      exact place?_of_capture (s := { s with names }) hlocal hcapture
    | error e chain => cases (place?_of_capture_error hlocal hcapture).symm.trans h

theorem nameTarget_eq_ok (h : Lower.nameTarget x s = .ok target t) :
    (∃ place, Lower.place? x s = .ok (some place) t ∧ target = place.toTarget) ∨
      ∃ u, Lower.place? x s = .ok none u ∧ namedConstant? x = none ∧
        Lower.onCurrent (globalTarget x) { u with names := u.names.addGlobal x } =
          .ok target t := by
  rw [Lower.nameTarget, get_bind] at h
  split at h
  · cases h
  · obtain ⟨place, u, hplace, h⟩ := bind_eq_ok h
    cases place with
    | some place =>
      cases place with
      | register r =>
        cases h
        exact .inl ⟨.register r, hplace, rfl⟩
      | upvalue i =>
        cases h
        exact .inl ⟨.upvalue i, hplace, rfl⟩
    | none =>
      simp only at h
      split at h
      · cases h
      case isFalse hconstant =>
        exact .inr ⟨u, hplace, Option.not_isSome_iff_eq_none.mp hconstant, h⟩

theorem globalValue_of_globalTarget (h : globalTarget x f = .ok target g) :
    ∃ v, globalValue x f = .ok v g ∧ target.ReadAs v := by
  obtain ⟨⟨env, member⟩, u, hfield, h⟩ := bind_eq_ok h
  obtain ⟨key, w, hkey, hend⟩ := bind_eq_ok h
  obtain ⟨hoperand, rfl⟩ := ofExcept_eq_ok hkey
  cases hend
  exact ⟨_, bind_of_ok hfield, .member hoperand⟩

namespace Session

/-- Whether a name is a variable: a local of the innermost function, or captured by it. -/
def binds (s : Session) (x : String) : Bool := (s.current.local? x).isSome || s.captures x

/-- The session in which an expression is read that was assigned to. A name that is no variable has
become a global. -/
def naming (s : Session) : Expr → Session
  | .identifier x => if s.binds x then s else { s with names := s.names.addGlobal x }
  | _ => s

theorem Found.isSome_eq {place : Option Place} (h : s.Found x place t) :
    place.isSome = s.binds x := by
  cases h with
  | home hlocal => simp [binds, hlocal]
  | captured _ hcaptures => simp [binds, hcaptures]
  | missing hlocal hcaptures => simp [binds, hlocal, hcaptures]

end Session

theorem lookup_of_nameTarget (types : TypeOracle) (howners : s.names.owners = [])
    (h : Lower.nameTarget x s = .ok target t) :
    ∃ v, Lower.lookup types x (s.naming (.identifier x)) = .ok v t ∧ target.ReadAs v := by
  obtain ⟨place, hplace, rfl⟩ | ⟨u, hplace, hconstant, hglobal⟩ := nameTarget_eq_ok h
  · have hbinds : s.binds x = true := ((yields_place? x s).result hplace).isSome_eq.symm
    rw [Session.naming, if_pos hbinds]
    exact ⟨place.toValue, lookup_of_some howners hplace, place.readAs⟩
  · have hfound := (yields_place? x s).result hplace
    have hbinds : ¬s.binds x = true := by simp [← hfound.isSome_eq]
    obtain ⟨htarget, ht⟩ := Lower.onCurrent_eq_ok hglobal
    obtain ⟨v, hv, hread⟩ := globalValue_of_globalTarget htarget
    rw [hfound.resolved.names] at hglobal ht
    have hlookup : Lower.lookup types x { s with names := s.names.addGlobal x } =
        Lower.onCurrent (globalValue x) { u with names := s.names.addGlobal x } :=
      lookup_of_none howners (place?_names _ hplace) hconstant (by simp)
    rw [Session.naming, if_neg hbinds, hlookup, ht]
    exact ⟨v, Lower.onCurrent_of_ok hv, hread⟩

/-! ## Both sides of an assignment -/

/-- If an expression can be assigned to, then reading it succeeds, leads to the same session with
the same instructions, constants, upvalues and registers, and gives the value of the place that
would be written. -/
theorem target_read_back (types : TypeOracle) (s : Session) (hs : s.Reachable types) (e : Expr)
    (target : Target) (t : Session) (h : Lower.target types e s = .ok target t) :
    ∃ v, Lower.expr types e (s.naming e) = .ok v t ∧ target.ReadAs v := by
  cases e with
  | identifier x =>
    rw [Lower.target] at h
    rw [Lower.expr]
    exact lookup_of_nameTarget types hs.regular.owners h
  | member object name =>
    simp only [Lower.target, Lower.liftM_eq_onCurrent] at h
    obtain ⟨w, u₁, hobject, h⟩ := bind_eq_ok h
    obtain ⟨owner, u₂, howner, h⟩ := bind_eq_ok h
    obtain ⟨k, u₃, hname, h⟩ := bind_eq_ok h
    obtain ⟨key, u₄, hkey, hend⟩ := bind_eq_ok h
    cases hend
    obtain ⟨member, hmember, hoperand⟩ := Lower.toKey_of_toOperand hkey
    refine ⟨.member owner.toValue member, ?_, .member hoperand⟩
    simp only [Session.naming, Lower.expr, Lower.liftM_eq_onCurrent, withOwner_lookup,
      Lower.onCurrent_bind]
    rw [bind_of_ok hobject, bind_of_ok howner, bind_of_ok hname, bind_of_ok hmember]
    rfl
  | index object key =>
    simp only [Lower.target, Lower.liftM_eq_onCurrent] at h
    obtain ⟨w, u₁, hobject, h⟩ := bind_eq_ok h
    obtain ⟨owner, u₂, howner, h⟩ := bind_eq_ok h
    obtain ⟨w', u₃, hvalue, h⟩ := bind_eq_ok h
    obtain ⟨key, u₄, hkey, hend⟩ := bind_eq_ok h
    cases hend
    obtain ⟨member, hmember, hoperand⟩ := Lower.toKey_of_toOperand hkey
    refine ⟨.member owner.toValue member, ?_, .member hoperand⟩
    simp only [Session.naming, Lower.expr, Lower.liftM_eq_onCurrent]
    rw [bind_of_ok hobject, bind_of_ok howner, bind_of_ok hvalue, bind_of_ok hmember]
    rfl
  | _ => cases h

/-- In a nested function, `x.a[x]` is a field of a table that is loaded, with a key that is loaded,
and `total` becomes a global. -/
theorem target_read_back_inVarBody :
    Session.inVarBody.Reachable (SyntaxOracle.oracle {}) ∧
    (∃ t, Lower.target (SyntaxOracle.oracle {})
          (.index (.member (.identifier "x") "a") (.identifier "x")) .inVarBody =
        .ok (.member (.register 0) 1) t ∧
      ∃ v, Lower.expr (SyntaxOracle.oracle {})
          (.index (.member (.identifier "x") "a") (.identifier "x")) .inVarBody = .ok v t ∧
        (Target.member (.register 0) 1).ReadAs v) ∧
    ∃ t, Lower.target (SyntaxOracle.oracle {}) (.identifier "total") .inVarBody =
        .ok (.member (.upvalue 0) (RK.constant 0)) t ∧
      ∃ v, Lower.expr (SyntaxOracle.oracle {}) (.identifier "total")
          (Session.inVarBody.naming (.identifier "total")) = .ok v t ∧
        (Target.member (.upvalue 0) (RK.constant 0)).ReadAs v := by
  have hs : Session.inVarBody.Reachable (SyntaxOracle.oracle {}) :=
    encounters_var_shadowingVar.reachable
  obtain ⟨t, ht⟩ : ∃ t, Lower.target (SyntaxOracle.oracle {})
      (.index (.member (.identifier "x") "a") (.identifier "x")) .inVarBody =
        .ok (.member (.register 0) 1) t := exists_ok_of_run (by decide +kernel)
  obtain ⟨u, hu⟩ : ∃ u, Lower.target (SyntaxOracle.oracle {}) (.identifier "total") .inVarBody =
      .ok (.member (.upvalue 0) (RK.constant 0)) u := exists_ok_of_run (by decide +kernel)
  exact ⟨hs, ⟨t, ht, target_read_back _ _ hs _ _ t ht⟩, u, hu, target_read_back _ _ hs _ _ u hu⟩

end LuaLower
