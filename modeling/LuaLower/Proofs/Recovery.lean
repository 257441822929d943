import LuaLower.Compile
import LuaLower.Proofs.AcceptedSubset
import LuaLower.Proofs.Session.Accretion

/-!
# After a failure

A body that fails may leave registers and code behind, and does not keep the next one from being
lowered. However deep inside the body the failure was, the functions opened there are closed again
and the main function still has all that it had. So it can always be completed.
-/

namespace LuaLower

variable {types : TypeOracle} {f g h : OpenFunction} {s t : Session}

/-- What `f` has is the beginning of what `g` has. -/
structure OpenFunction.Begins (f g : OpenFunction) : Prop where
  code : f.proto.code.toList <+: g.proto.code.toList
  constants : f.proto.constants.toList <+: g.proto.constants.toList
  upvalues : f.proto.upvalues <+: g.proto.upvalues
  children : f.proto.children <+: g.proto.children

namespace OpenFunction.Begins

theorem refl (f : OpenFunction) : f.Begins f :=
  ⟨List.prefix_rfl, List.prefix_rfl, List.prefix_rfl, List.prefix_rfl⟩

theorem trans (hfg : f.Begins g) (hgh : g.Begins h) : f.Begins h where
  code := hfg.code.trans hgh.code
  constants := hfg.constants.trans hgh.constants
  upvalues := hfg.upvalues.trans hgh.upvalues
  children := hfg.children.trans hgh.children

end OpenFunction.Begins

/-- If no instruction of a function is touched, then its code is the beginning of the later one. -/
theorem OpenFunction.Accretes.code_prefix {sizes : Nat → Prop}
    (hfg : f.Accretes sizes f.proto.code.size g) :
    f.proto.code.toList <+: g.proto.code.toList := by
  rw [List.prefix_iff_getElem?]
  intro i hi
  rw [Array.length_toList] at hi
  rw [Array.getElem?_toList, hfg.code i hi hi, Array.getElem?_eq_getElem hi, Array.getElem_toList]

/-- Only the main function is open, and no field access is under way. -/
structure Session.AtMain (s : Session) : Prop where
  enclosing : s.enclosing = []
  regular : s.Regular

theorem Session.atMain_main (source : Option String) : (main source).AtMain :=
  ⟨rfl, ⟨linkedTo_of_env rfl rfl, trivial⟩, rfl⟩

theorem Session.AtMain.close_eq (hs : s.AtMain) : s.close = .ok s.current.close :=
  close_eq_ok_iff.mpr ⟨hs.enclosing, rfl⟩

theorem Lower.steady_block (types : TypeOracle) (body : List Stmt) : (block types body).Steady :=
  steady_bind (still_hoist body).steady fun _ ↦ Task.steady types (.statements body)

/-- What is left in a session by a body that was lowered, or by one that failed. -/
theorem Lower.yields_block (types : TypeOracle) (body : List Stmt) (hs : s.AtMain) :
    Yields (block types body) s (fun _ t ↦ t.AtMain ∧ s.current.Begins t.current)
      (fun e t ↦ (t.AtMain ∧ s.current.Begins t.current) ∧ e.isInternal = false) := by
  have hleft {t : Session} (hfollows : s.Follows t)
      (haccretes : s.current.Accretes (fun _ ↦ True) s.current.proto.code.size t.current) :
      t.AtMain ∧ s.current.Begins t.current := by
    have henclosing := hfollows.enclosing
    rw [hs.enclosing] at henclosing
    refine ⟨⟨List.forall₂_nil_left_iff.mp henclosing, hfollows.regular hs.regular⟩, ?_⟩
    exact ⟨haccretes.code_prefix, haccretes.constants.isPrefix, hfollows.current.upvalues,
      hfollows.current.children⟩
  have hsteady := steady_block types body s
  have hblock : Accretive (fun _ ↦ True) s.current.proto.code.size (block types body) :=
    accretive_block types body _ fun _ _ ↦ trivial
  have haccretive := hblock s hs.regular (le_refl _)
  have hjudged : Judged (statementsSupported body) (fun _ ↦ True) (block types body) :=
    (tame_hoist body).bind fun _ _ ↦ judged_statements types body
  cases hrun : block types body s with
  | ok a t =>
    exact .of_ok hrun (hleft (hsteady.result hrun) (haccretive.result hrun).1)
  | error e t =>
    have hexcused := ((hjudged s hs.regular.owners).failure hrun).1
    exact .of_error hrun
      ⟨hleft (hsteady.failure hrun) (haccretive.failure hrun), hexcused.not_internal⟩

/-! ## Sequences of bodies -/

theorem lowerBlocks_cons_of_ok {body : List Stmt} (bodies : List (List Stmt))
    (h : Lower.block types body s = .ok () t) :
    lowerBlocks types (body :: bodies) s =
      (.ok () :: (lowerBlocks types bodies t).1, (lowerBlocks types bodies t).2) := by
  rw [lowerBlocks, h]

theorem lowerBlocks_cons_of_error {body : List Stmt} {e : Failure} (bodies : List (List Stmt))
    (h : Lower.block types body s = .error e t) :
    lowerBlocks types (body :: bodies) s =
      (.error e :: (lowerBlocks types bodies t).1, (lowerBlocks types bodies t).2) := by
  rw [lowerBlocks, h]

theorem lowerBlocks_append (earlier later : List (List Stmt)) (s : Session) :
    (lowerBlocks types (earlier ++ later) s).2 =
      (lowerBlocks types later (lowerBlocks types earlier s).2).2 := by
  induction earlier generalizing s with
  | nil => rfl
  | cons body earlier ih =>
    rw [List.cons_append]
    cases hrun : Lower.block types body s with
    | ok a t => rw [lowerBlocks_cons_of_ok _ hrun, lowerBlocks_cons_of_ok _ hrun, ih]
    | error e t => rw [lowerBlocks_cons_of_error _ hrun, lowerBlocks_cons_of_error _ hrun, ih]

theorem lowerBlocks_keeps (types : TypeOracle) (bodies : List (List Stmt)) (hs : s.AtMain) :
    (lowerBlocks types bodies s).2.AtMain ∧
      s.current.Begins (lowerBlocks types bodies s).2.current ∧
      ∀ e, .error e ∈ (lowerBlocks types bodies s).1 → e.isInternal = false := by
  induction bodies generalizing s with
  | nil =>
    rw [lowerBlocks]
    exact ⟨hs, .refl _, fun e he ↦ absurd he List.not_mem_nil⟩
  | cons body bodies ih =>
    have hblock := Lower.yields_block types body hs
    cases hrun : Lower.block types body s with
    | ok a t =>
      obtain ⟨ht, hst⟩ := hblock.result hrun
      obtain ⟨hu, htu, hfailures⟩ := ih ht
      rw [lowerBlocks_cons_of_ok _ hrun]
      refine ⟨hu, hst.trans htu, fun e he ↦ ?_⟩
      obtain he | he := List.mem_cons.mp he
      · cases he
      · exact hfailures e he
    | error e t =>
      obtain ⟨⟨ht, hst⟩, hinternal⟩ := hblock.failure hrun
      obtain ⟨hu, htu, hfailures⟩ := ih ht
      rw [lowerBlocks_cons_of_error _ hrun]
      refine ⟨hu, hst.trans htu, fun e' he ↦ ?_⟩
      obtain he | he := List.mem_cons.mp he
      · cases he
        exact hinternal
      · exact hfailures e' he

/-- The session after bodies were lowered one after the other in a new one. -/
def Session.after (types : TypeOracle) (source : Option String) (bodies : List (List Stmt)) :
    Session :=
  (lowerBlocks types bodies (.main source)).2

/-- Whichever bodies fail, only the main function is open after each of them, no field access is
under way, and nothing that was there is lost. So the function can be completed. -/
theorem failures_keep_nesting (types : TypeOracle) (source : Option String)
    (earlier later : List (List Stmt)) :
    (Session.after types source (earlier ++ later)).enclosing = [] ∧
    (Session.after types source (earlier ++ later)).names.owners = [] ∧
    (Session.after types source earlier).current.Begins
      (Session.after types source (earlier ++ later)).current ∧
    (Session.after types source (earlier ++ later)).close =
      .ok (Session.after types source (earlier ++ later)).current.close ∧
    .error (.unsupported .unbalancedNesting) ∉
      (lowerBlocks types (earlier ++ later) (.main source)).1 := by
  obtain ⟨hmain, -, hfailures⟩ :=
    lowerBlocks_keeps types (earlier ++ later) (Session.atMain_main source)
  obtain ⟨hearlier, -, -⟩ := lowerBlocks_keeps types earlier (Session.atMain_main source)
  obtain ⟨-, hbegins, -⟩ := lowerBlocks_keeps types later hearlier
  refine ⟨hmain.enclosing, hmain.regular.owners, ?_, hmain.close_eq, fun hmem ↦ ?_⟩
  · rw [Session.after, Session.after, lowerBlocks_append]
    exact hbegins
  · cases hfailures _ hmem

/-- The first body is given up inside the second of two nested functions, and the other one is
lowered after it. -/
example : (lowerBlocks (SyntaxOracle.oracle {})
    [[.function "outer" ["x"] [.function "inner" []
        [.ret (some (.member (.binary .add (.identifier "x") (.identifier "missing")) "y"))]]],
      [.expression (.call (.identifier "outer") [])]] (.main none)).1.map Except.isOk =
    [false, true] := by
  decide +kernel

end LuaLower
