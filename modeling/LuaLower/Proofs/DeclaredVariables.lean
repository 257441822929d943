import LuaLower.Proofs.Lowering.Reachability

/-!
# Declarations and the references after them

A declaration by `var` and the declaration of a function write to the local of their name if the
innermost function has one, and else to the global of that name. A reference that follows reads what
was written, unless the name means something else there: a variable of a function further out, a
constant value, or the table of globals itself.
-/

namespace LuaLower

open OpenFunction Build

variable {types : TypeOracle} {task : Task} {x : String} {f g : OpenFunction} {s t u : Session}
  {value : Lower Value} {k : Constant}

/-! ## Room for the key of a global -/

/-- The constant is among the first of the pool, or there is a register to load it into. -/
def OpenFunction.HasRoom (f : OpenFunction) (k : Constant) : Prop :=
  (f.proto.constants.insert k).1 ≤ RK.maxIndex ∨ f.registers.next < Registers.limit

theorem OpenFunction.HasRoom.later (h : f.HasRoom k)
    (hconstants : (f.intern k).proto.constants.toList <+: g.proto.constants.toList)
    (hnext : g.registers.next = f.registers.next) : g.HasRoom k := by
  rwa [HasRoom, Pool.insert_later hconstants, hnext]

theorem toKey_constant_succeeds (hf : f.registers.Tidy) (index : Nat)
    (hindex : index < f.proto.constants.size) :
    (∃ key g, toKey (.constant index) f = .ok key g) ↔
      index ≤ RK.maxIndex ∨ f.registers.next < Registers.limit := by
  by_cases hmax : index ≤ RK.maxIndex
  · have hkey : toKey (.constant index) f = .ok (.constant index) f := by
      rw [toKey, if_pos hmax]
      rfl
    exact ⟨fun _ ↦ .inl hmax, fun _ ↦ ⟨_, _, hkey⟩⟩
  · have hkey :
        toKey (.constant index) = (do return .register (← inNewRegister (.constant index))) := by
      rw [toKey, if_neg hmax]
      rfl
    have hrelease : releaseValue (.constant index) f = .ok () f := rfl
    rw [hkey, or_iff_right hmax, ← not_iff_not, not_lt]
    constructor
    · intro h
      by_contra hlimit
      have htake := takeRegister_of_lt hf (Nat.lt_of_not_le hlimit)
      have hholds : f.Holds (.constant index) f.registers.next f.registers.next := ⟨hindex, rfl⟩
      have hload := load_eq hholds f.registers.next f.taken
      have hnew : inNewRegister (.constant index) f = .ok f.registers.next
          (f.taken.emit (Value.loadCode f.registers.next (.constant index))) := by
        rw [inNewRegister, bind_of_ok hrelease, bind_of_ok htake, bind_of_ok hload]
        rfl
      exact h ⟨_, _, bind_of_ok hnew⟩
    · rintro hlimit ⟨key, g, h⟩
      have hfull :
          inNewRegister (.constant index) f = .error (.unimplemented .registerLimit) f := by
        rw [inNewRegister, bind_of_ok hrelease, bind_of_error (takeRegister_of_le hlimit)]
      cases (bind_of_error hfull).symm.trans h

/-- The globals can be reached, so it only matters whether there is room for the key. -/
theorem globalField_succeeds (hf : f.registers.Tidy) {env : Nat}
    (henv : f.upvalueIndex? envName = some env) (name : String) :
    (∃ field g, globalField name f = .ok field g) ↔ f.HasRoom (.string name) := by
  have hkey := toKey_constant_succeeds (f := f.intern (.string name)) hf _
    (Pool.insert_lt_size f.proto.constants (.string name))
  have hfield : globalField name f = (do
      let key ← toKey (.constant (f.proto.constants.insert (.string name)).1)
      return (env, key) : Build (Nat × Value)) (f.intern (.string name)) := by
    rw [globalField, get_bind, henv]
    rfl
  rw [hfield]
  refine Iff.trans ⟨?_, ?_⟩ hkey
  · rintro ⟨field, g, h⟩
    obtain ⟨key, g', h, -⟩ := bind_eq_ok h
    exact ⟨key, g', h⟩
  · rintro ⟨key, g, h⟩
    exact ⟨_, _, bind_of_ok h⟩

/-! ## Names without a variable -/

theorem nearest?_eq_none_iff {fs : List OpenFunction} :
    nearest? x fs = none ↔ ∀ f ∈ fs, f.local? x = none := by
  induction fs with
  | nil => simp [nearest?]
  | cons f fs ih =>
    cases hlocal : f.local? x with
    | some l => simp [nearest?_of_local fs hlocal, hlocal]
    | none => simp [nearest?_of_none fs hlocal, hlocal, ih]

/-- Upvalues stand for variables, so without a variable there is no upvalue. -/
theorem OpenFunction.LinkedTo.upvalueIndex?_eq_none {outer : List OpenFunction}
    (h : f.LinkedTo outer) (hx : x ≠ envName) (hnearest : nearest? x outer = none) :
    f.upvalueIndex? x = none := by
  cases hindex : f.upvalueIndex? x with
  | none => rfl
  | some u =>
    cases captured_of_index h hx hindex with
    | found _ hsome _ => cases hnearest.symm.trans hsome

theorem capture_of_missing {outer : List OpenFunction} (h : Linked (f :: outer)) (hx : x ≠ envName)
    (hnearest : nearest? x outer = none) : capture x f outer = .ok none (f, outer) := by
  induction outer generalizing f with
  | nil => rw [capture, h.1.upvalueIndex?_eq_none hx hnearest]
  | cons parent outer ih =>
    have hindex := h.1.upvalueIndex?_eq_none hx hnearest
    rw [nearest?_eq_none_iff, List.forall_mem_cons, ← nearest?_eq_none_iff] at hnearest
    obtain ⟨hlocal, hrest⟩ := hnearest
    exact capture_of_none hindex hlocal (ih h.2 hrest)

theorem place?_of_missing (h : Linked s.functions) (hx : x ≠ envName)
    (hnearest : nearest? x s.functions = none) : Lower.place? x s = .ok none s := by
  rw [Session.functions, nearest?_eq_none_iff, List.forall_mem_cons, ← nearest?_eq_none_iff]
    at hnearest
  exact place?_of_capture hnearest.1 (capture_of_missing h hx hnearest.2)

/-- A name that is not found is that of no variable, and not that of the globals. -/
theorem nearest?_of_not_captures (hlinked : Linked s.functions)
    (hlocal : s.current.local? x = none) (hcaptures : s.captures x = false) :
    nearest? x s.functions = none ∧ x ≠ envName := by
  rw [Session.captures, captures, Bool.or_eq_false_iff] at hcaptures
  constructor
  · rw [nearest?_eq_none_iff, Session.functions, List.forall_mem_cons]
    refine ⟨hlocal, fun g hg ↦ ?_⟩
    have hg := List.any_eq_false.mp hcaptures.2 g hg
    simp only [Bool.or_eq_true, not_or, Option.not_isSome_iff_eq_none] at hg
    exact hg.1
  · rintro rfl
    simp [hlinked.1.upvalueIndex?_env] at hcaptures

/-! ## Declarations and locations -/

/-- Where a variable lives: in a local of the innermost function, or in a field of the globals. -/
inductive Location where
  | register (index : Nat)
  | global (name : String)
  deriving DecidableEq, Repr

namespace Session

/-- Where a declaration in the innermost function puts a variable. -/
def declaredLocation (s : Session) (name : String) : Location :=
  match s.current.local? name with
  | some l => .register l.register
  | none => .global name

/-- The target that stands for a location, and the session in which its key is in place. -/
inductive WritesTo (s : Session) : Location → Target → Session → Prop
  | register (r : Nat) : WritesTo s (.register r) (.register r) s
  | global {name : String} {env : Nat} {key : Value} {f : OpenFunction} :
    s.current.upvalueIndex? envName = some env → s.current.PlacedConstant (.string name) key f →
    WritesTo s (.global name) (.member (.upvalue env) key.rk)
      { s with current := f, names := s.names.addGlobal name }

/-- The value that is found at a location, and the session in which its key is in place. -/
inductive ReadsFrom (s : Session) : Location → Value → Session → Prop
  | register (r : Nat) : ReadsFrom s (.register r) (.register r) s
  | global {name : String} {env : Nat} {key : Value} {f : OpenFunction} :
    s.current.upvalueIndex? envName = some env → s.current.PlacedConstant (.string name) key f →
    ReadsFrom s (.global name) (.member (.upvalue env) key) { s with current := f }

end Session

/-- A declaration by `var` or the declaration of a function, with the step that lowers its value. -/
inductive Declares (types : TypeOracle) (x : String) : Task → Lower Value → Prop
  | byVar (init : Expr) :
    Declares types x (.declarator .var ⟨x, some init⟩) (Lower.expr types init)
  | ofFunction (params : List String) (body : List Stmt) :
    Declares types x (.statement (.function x params body))
      ((Task.function params body).lower types)

namespace Declares

/-- Both kinds of declaration do the same with the value. -/
theorem declareFunction_eq (h : Declares types x task value) {b : task.Result}
    (hrun : task.lower types s = .ok b t) : Lower.declareFunction x value s = .ok () t := by
  cases h with
  | byVar init =>
    rw [← hrun, Task.lower, Option.map_some, Lower.declare, Lower.declareFunction, get_bind,
      get_bind]
    cases s.current.local? x with
    | some l => rfl
    | none => rfl
  | ofFunction params body => exact hrun

theorem still (h : Declares types x task value) : value.Still := by
  cases h with
  | byVar init => exact Task.still types (.expr init) rfl
  | ofFunction params body => exact Task.still types (.function params body) rfl

theorem translates (h : Declares types x task value) :
    ∃ names ts, TranslatesValue (fun _ _ ↦ True) value names ts := by
  cases h with
  | byVar init => exact ⟨_, _, translates_expr types closesTo_trivial.block init⟩
  | ofFunction params body =>
    exact ⟨_, _, translates_expr types closesTo_trivial.block (.function none params body)⟩

end Declares

/-! ## Reading what was written -/

theorem lookup_of_some {place : Place} (howners : s.names.owners = [])
    (hplace : Lower.place? x s = .ok (some place) t) :
    Lower.lookup types x s = .ok place.toValue t := by
  simp only [Lower.lookup, get_bind, howners]
  exact bind_of_ok hplace

/-- A known global is looked up if nothing else of its name comes first. -/
theorem lookup_of_none (howners : s.names.owners = []) (hplace : Lower.place? x s = .ok none t)
    (hconstant : namedConstant? x = none) (hglobal : s.names.knowsGlobal x = true) :
    Lower.lookup types x s = Lower.onCurrent (globalValue x) t := by
  simp only [Lower.lookup, get_bind, howners, hconstant, hglobal, Bool.true_or, if_true]
  exact bind_of_ok hplace

theorem lookup_global_succeeds (hs : s.Ready) (hlinked : Linked s.functions)
    (hglobal : s.names.knowsGlobal x = true) (hroom : s.current.HasRoom (.string x))
    (hx : x ≠ envName) (hnearest : nearest? x s.functions = none)
    (hconstant : namedConstant? x = none) :
    ∃ w y, Lower.lookup types x s = .ok w y ∧ s.ReadsFrom (.global x) w y := by
  have henv := hlinked.1.upvalueIndex?_env
  have hlookup : Lower.lookup types x s = Lower.onCurrent (globalValue x) s :=
    lookup_of_none hs.owners (place?_of_missing hlinked hx hnearest) hconstant hglobal
  obtain ⟨⟨env, key⟩, f, hfield⟩ := (globalField_succeeds hs.tidy henv x).mpr hroom
  have hvalue : globalValue x s.current = .ok (.member (.upvalue env) key) f := bind_of_ok hfield
  have hbuilds : Builds (fun _ _ ↦ True) 0 (globalField x) s.current _ :=
    builds_globalField x hs.tidy.numLocals_le
  obtain ⟨-, henv', hkey⟩ := (hbuilds hs.tidy (Nat.zero_le _)).result hfield
  exact ⟨_, _, hlookup.trans (Lower.onCurrent_of_ok hvalue), .global henv' hkey⟩

/-- A name that is read as a global is not a variable, a constant value or the table of globals. -/
theorem lookup_global_only (hs : s.Ready) (hlinked : Linked s.functions) {w : Value} {y : Session}
    (hlookup : Lower.lookup types x s = .ok w y) (hreads : s.ReadsFrom (.global x) w y) :
    nearest? x s.functions = none ∧ namedConstant? x = none ∧ x ≠ envName := by
  have hlowers : Lowers (fun _ _ ↦ True) 0 (Lower.lookup types x) s [] _ := lowers_lookup types x
  obtain ⟨-, hfound⟩ := (hlowers hs (Nat.zero_le _)).result hlookup
  obtain ⟨env, key, rfl⟩ : ∃ env key, w = .member (.upvalue env) key := by
    cases hreads with
    | global => exact ⟨_, _, rfl⟩
  generalize hw : Value.member (.upvalue env) key = w at hfound
  cases hfound with
  | @ofPlace place =>
    cases place <;> cases hw
  | constant => cases hw
  | global hfound hconstant =>
    cases hfound with
    | missing hlocal hcaptures =>
      obtain ⟨hnearest, hx⟩ := nearest?_of_not_captures hlinked hlocal hcaptures
      exact ⟨hnearest, hconstant, hx⟩

/-! ## Declarations -/

/-- A declaration of a local, and what is found under its name afterwards. -/
theorem Declares.local (h : Declares types x task value) (hs : s.Ready) {l : Local}
    (hlocal : s.current.local? x = some l) (hrun : Lower.declareFunction x value s = .ok () t) :
    (∃ v u, value s = .ok v u ∧
      Lower.onCurrent ((Target.register l.register).assign v) u = .ok () t) ∧
      Lower.lookup types x t = .ok (.register l.register) t := by
  obtain ⟨names, ts, hvalue⟩ := h.translates
  rw [Lower.declareFunction, get_bind, hlocal] at hrun
  obtain ⟨hst, -⟩ := (translates_setLocal hlocal hvalue hs (Nat.zero_le _)).result hrun
  obtain ⟨v, u, hv, hset⟩ := bind_eq_ok hrun
  have hlocal' : t.current.local? x = some l := by
    rw [← hlocal, OpenFunction.local?, Registers.find?, hst.locals]
    rfl
  have hassign : (Target.register l.register).assign v = setLocal l.register v := bind_pure _
  refine ⟨⟨v, u, hv, ?_⟩, lookup_of_some (hst.ready hs).owners (place?_of_local hlocal')⟩
  rw [hassign]
  exact hset

theorem globalTarget_eq_ok (hf : f.registers.Tidy) {target : Target}
    (h : globalTarget x f = .ok target g) :
    ∃ env key, target = .member (.upvalue env) key.rk ∧ f.upvalueIndex? envName = some env ∧
      f.PlacedConstant (.string x) key g ∧ f.HasRoom (.string x) := by
  obtain ⟨⟨env, key⟩, f', hfield, hoperand⟩ := bind_eq_ok h
  have hbuilds : Builds (fun _ _ ↦ True) 0 (globalField x) f _ :=
    builds_globalField x hf.numLocals_le
  obtain ⟨-, henv, hkey⟩ := (hbuilds hf (Nat.zero_le _)).result hfield
  have hroom := (globalField_succeeds hf henv x).mp ⟨_, _, hfield⟩
  simp only [Value.operand_eq hkey.1] at hoperand
  cases hoperand
  exact ⟨env, key, rfl, henv, hkey, hroom⟩

/-- What a declaration of a global does, and what it leaves behind. -/
theorem Declares.global (h : Declares types x task value) (hs : s.Ready)
    (hlinked : Linked s.functions) (hlocal : s.current.local? x = none)
    (hrun : Lower.declareFunction x value s = .ok () t) :
    (∃ target r v u, s.WritesTo (.global x) target r ∧ value r = .ok v u ∧
      Lower.onCurrent (target.assign v) u = .ok () t) ∧
    t.Ready ∧ Linked t.functions ∧ t.names.knowsGlobal x = true ∧ t.current.HasRoom (.string x) ∧
    nearest? x t.functions = nearest? x s.functions := by
  obtain ⟨names, ts, hvalue⟩ := h.translates
  have hadd : Lower.addGlobal x s = .ok () { s with names := s.names.addGlobal x } := rfl
  rw [Lower.declareFunction, get_bind, hlocal] at hrun
  have hrun := (bind_of_ok hadd).symm.trans hrun
  generalize hs' : { s with names := s.names.addGlobal x } = s' at hrun
  have hready : s'.Ready := hs' ▸ ⟨hs.owners, hs.tidy⟩
  obtain ⟨target, r, htarget, hrun⟩ := bind_eq_ok hrun
  obtain ⟨v, u, hv, hassign⟩ := bind_eq_ok hrun
  have htranslates : Translates (fun _ _ ↦ True) (fun _ ↦ True) 0 _ s' [] _ :=
    translates_globalTarget x trivial
  obtain ⟨hsr, -, hwrites, hholds⟩ := (htranslates hready (Nat.zero_le _)).result htarget
  obtain ⟨hru, -, hv'⟩ :=
    (hvalue _ 0 r (.trivial r names) (hsr.ready hready) (Nat.zero_le _)).result hv
  have hlo := (hru.numLocals.trans hsr.numLocals).trans_le hready.tidy.numLocals_le
  have hemits : Translates (fun _ _ ↦ True) (fun _ ↦ True) 0 _ u [] _ :=
    .onCurrent (Target.emits_assign hlo (hholds.within hru.within) hv' trivial hwrites)
  obtain ⟨hut, -, hnext⟩ := (hemits (hru.ready (hsr.ready hready)) (Nat.zero_le _)).result hassign
  have hst := (hsr.trans hru).trans hut
  have hstays : s'.Stays t := by
    refine ((Lower.still_build (neutral_globalTarget x) s').result htarget).trans ?_
    exact ((h.still r).result hv).trans
      ((Lower.still_build (neutral_assign target v) u).result hassign)
  obtain ⟨hglobal, hr⟩ := Lower.onCurrent_eq_ok htarget
  obtain ⟨env, key, rfl, henv, hkey, hroom⟩ := globalTarget_eq_ok hready.tidy hglobal
  have hrt := hru.trans hut
  have hlocals : t.current.local? x = s'.current.local? x := by
    rw [OpenFunction.local?, Registers.find?, hst.locals]
    rfl
  subst hs'
  refine ⟨⟨_, r, v, u, ?_, hv, hassign⟩, hst.ready hready, hstays.linked hlinked,
    hstays.globals x (by simp), hroom.later ?_ hnext, ?_⟩
  · rw [hr]
    exact .global henv hkey
  · exact hkey.2.kept.constants.trans (hrt.toGrows.kept (Nat.zero_le _)).current.constants
  · rw [Session.functions, nearest?, hlocals, nearest?_gained hst.enclosing]
    rfl

/-- A reference right after a declaration reads the location that the declaration wrote if and only
if that is a local, or the name is not a variable further out, a constant value or the globals. -/
theorem declaration_then_reference (hs : s.Reachable types) (horder : s.inOrder = true)
    (hdeclares : Declares types x task value) {b : task.Result}
    (hrun : task.lower types s = .ok b t) :
    (∃ target r v u, s.WritesTo (s.declaredLocation x) target r ∧ value r = .ok v u ∧
      Lower.onCurrent (target.assign v) u = .ok () t) ∧
    ((∃ w y, Lower.expr types (.identifier x) t = .ok w y ∧
        t.ReadsFrom (s.declaredLocation x) w y) ↔
      (s.current.local? x).isSome ∨
        nearest? x s.enclosing = none ∧ namedConstant? x = none ∧ x ≠ envName) := by
  have hready := hs.ready horder
  have hrun := hdeclares.declareFunction_eq hrun
  cases hlocal : s.current.local? x with
  | some l =>
    have hlocation : s.declaredLocation x = .register l.register := by
      simp [Session.declaredLocation, hlocal]
    obtain ⟨⟨v, u, hv, hassign⟩, hlookup⟩ := hdeclares.local hready hlocal hrun
    rw [hlocation]
    refine ⟨⟨_, s, v, u, .register _, hv, hassign⟩, iff_of_true ⟨_, t, ?_, .register _⟩ (.inl rfl)⟩
    rw [Lower.expr, hlookup]
  | none =>
    have hlocation : s.declaredLocation x = .global x := by
      simp [Session.declaredLocation, hlocal]
    obtain ⟨hwrites, ht, hlinked, hglobal, hroom, hnearest⟩ :=
      hdeclares.global hready hs.regular.linked hlocal hrun
    have hnone : nearest? x t.functions = none ↔ nearest? x s.enclosing = none := by
      rw [hnearest, nearest?_eq_none_iff, nearest?_eq_none_iff, Session.functions,
        List.forall_mem_cons, and_iff_right hlocal]
    rw [hlocation, ← hnone, Lower.expr]
    refine ⟨hwrites, ?_, ?_⟩
    · rintro ⟨w, y, hlookup, hreads⟩
      exact .inr (lookup_global_only ht hlinked hlookup hreads)
    · rintro (hsome | ⟨hmissing, hconstant, hx⟩)
      · cases hsome
      · exact lookup_global_succeeds ht hlinked hglobal hroom hx hmissing hconstant

/-- `{ var x = false; return x; }` -/
def varBody : List Stmt :=
  [.declaration .var [⟨"x", some (.literal (.boolean false))⟩], .ret (some (.identifier "x"))]

/-- `let x = true; function g() { var x = false; return x; }` -/
def shadowingVar : List Stmt :=
  [.declaration .let [⟨"x", some (.literal (.boolean true))⟩], .function "g" [] varBody]

/-- The session between the two statements of `shadowingVar`. -/
def Session.afterLet : Session where
  current :=
    { proto :=
        { isVararg := true, upvalues := [⟨envName, true, 0⟩], code := #[.abc .loadBool 0 1 0] }
      registers := { locals := [⟨"x", 0, false⟩], next := 1, high := 1 } }
  names := { globals := ["g"] }

theorem encounters_function_shadowingVar :
    Encounters (SyntaxOracle.oracle {}) {} shadowingVar (.statement (.function "g" [] varBody))
      .afterLet := by
  have hlet : (Task.statement (.declaration .let [⟨"x", some (.literal (.boolean true))⟩])).lower
      (SyntaxOracle.oracle {}) ((Session.main none).hoisted shadowingVar) = .ok () .afterLet := rfl
  have hsettle : Lower.onCurrent settle .afterLet = .ok () .afterLet := rfl
  refine .inside (.afterPart hlet (.afterStep hsettle (.part _ _ _))) ?_
  exact .inside (.part _ _ _) (.self _ _)

/-- The function `g` of `shadowingVar` becomes a global, and a reference to it reads that global. -/
theorem declaration_then_reference_shadowingVar :
    Session.afterLet.Reachable (SyntaxOracle.oracle {}) ∧ Session.afterLet.inOrder = true ∧
      Declares (SyntaxOracle.oracle {}) "g" (.statement (.function "g" [] varBody))
        ((Task.function [] varBody).lower (SyntaxOracle.oracle {})) ∧
      ∃ t, (Task.statement (.function "g" [] varBody)).lower (SyntaxOracle.oracle {}) .afterLet =
          .ok () t ∧
        ∃ w y, Lower.expr (SyntaxOracle.oracle {}) (.identifier "g") t = .ok w y ∧
          t.ReadsFrom (.global "g") w y := by
  have hdeclares : Declares (SyntaxOracle.oracle {}) "g" _ _ := .ofFunction [] varBody
  have hok : (match (Task.statement (.function "g" [] varBody)).lower (SyntaxOracle.oracle {})
      .afterLet with
      | .ok .. => true
      | .error .. => false) = true := by decide +kernel
  have hs := encounters_function_shadowingVar.reachable
  refine ⟨hs, rfl, hdeclares, ?_⟩
  cases hrun :
    (Task.statement (.function "g" [] varBody)).lower (SyntaxOracle.oracle {}) .afterLet with
  | error e t =>
    rw [hrun] at hok
    cases hok
  | ok b t =>
    refine ⟨t, rfl, ?_⟩
    exact (declaration_then_reference hs rfl hdeclares hrun).2.mpr
      (.inr ⟨rfl, by decide, by decide⟩)

/-- The start of the body of `g`. -/
def Session.inVarBody : Session where
  current := { proto := { upvalues := [⟨envName, false, 0⟩] } }
  enclosing := [Session.afterLet.current.intern (.string "g")]
  names := { globals := ["x", "g"] }

theorem encounters_var_shadowingVar :
    Encounters (SyntaxOracle.oracle {}) {} shadowingVar
      (.declarator .var ⟨"x", some (.literal (.boolean false))⟩) .inVarBody := by
  let f := Session.afterLet.current
  let placed : Session := ⟨f.intern (.string "g"), [], { globals := ["g"] }⟩
  have hindex : (f.proto.constants.insert (.string "g")).1 = 0 := Pool.insert_eq_idxOf _ _
  have hkey : toKey (.constant (f.proto.constants.insert (.string "g")).1) placed.current =
      .ok (.constant 0) placed.current := by
    rw [hindex]
    rfl
  have hglobal : globalTarget "g" f = .ok (.member (.upvalue 0) (RK.constant 0)) placed.current :=
    bind_of_ok (a := (0, Value.constant 0)) (bind_of_ok hkey)
  refine encounters_function_shadowingVar.trans ?_
  refine .inside (.afterStep rfl (.afterStep rfl
    (.afterStep (Lower.onCurrent_of_ok hglobal) (.part _ _ _)))) ?_
  refine .inside (.body (t := .inVarBody) rfl) ?_
  exact .inside (.part _ _ _) (.inside (.part _ _ _) (.inside (.part _ _ _) (.self _ _)))

/-- The declaration of `x` in `g` writes a global, and a reference that follows reads the variable
of the main function. -/
theorem reference_misses_declaration_shadowingVar :
    ∃ t, Encounters (SyntaxOracle.oracle {}) {} shadowingVar
        (.declarator .var ⟨"x", some (.literal (.boolean false))⟩) .inVarBody ∧
      Declares (SyntaxOracle.oracle {}) "x"
        (.declarator .var ⟨"x", some (.literal (.boolean false))⟩)
        (Lower.expr (SyntaxOracle.oracle {}) (.literal (.boolean false))) ∧
      (Task.declarator .var ⟨"x", some (.literal (.boolean false))⟩).lower (SyntaxOracle.oracle {})
        .inVarBody = .ok () t ∧
      ∃ y, Lower.expr (SyntaxOracle.oracle {}) (.identifier "x") t = .ok (.upvalue 1) y ∧
        ¬ t.ReadsFrom (Session.inVarBody.declaredLocation "x") (.upvalue 1) y := by
  have hread : (match (Task.declarator .var ⟨"x", some (.literal (.boolean false))⟩).lower
      (SyntaxOracle.oracle {}) .inVarBody with
      | .ok _ t =>
        match Lower.expr (SyntaxOracle.oracle {}) (.identifier "x") t with
        | .ok v _ => some v
        | .error .. => none
      | .error .. => none) = some (.upvalue 1) := by decide +kernel
  cases hrun : (Task.declarator .var ⟨"x", some (.literal (.boolean false))⟩).lower
      (SyntaxOracle.oracle {}) .inVarBody with
  | error e t =>
    rw [hrun] at hread
    cases hread
  | ok b t =>
    rw [hrun] at hread
    refine ⟨t, encounters_var_shadowingVar, .byVar _, rfl, ?_⟩
    cases hlookup : Lower.expr (SyntaxOracle.oracle {}) (.identifier "x") t with
    | error e y =>
      simp only [hlookup] at hread
      cases hread
    | ok v y =>
      simp only [hlookup, Option.some.injEq] at hread
      subst hread
      exact ⟨y, rfl, nofun⟩

end LuaLower
