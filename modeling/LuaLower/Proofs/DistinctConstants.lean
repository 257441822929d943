import LuaLower.Proofs.Lowering.Reachability

/-!
# Constants that are listed once

Instructions name constants by their indices long before the pool is complete. An index stays valid,
since nothing that is lowered does anything to a pool but insert into it, also if it fails. So in
every prototype the pool lists the constants that were asked for, each of them once and in the order
in which they were asked for first.
-/

namespace LuaLower

variable {types : TypeOracle} {task : Task} {s t : Session}

/-- From `s` to `t` the pool of the innermost function has been inserted into, and those of the
functions around it are the same. -/
structure Session.OnlyInserts (s t : Session) : Prop where
  current : s.current.proto.constants.Extends t.current.proto.constants
  enclosing : t.enclosing.map (·.proto.constants) = s.enclosing.map (·.proto.constants)

/-! ## Lowering -/

theorem constants_eq_of_gained {fs gs : List OpenFunction}
    (h : List.Forall₂ OpenFunction.Gained fs gs) :
    gs.map (·.proto.constants) = fs.map (·.proto.constants) := by
  induction h with
  | nil => rfl
  | cons hfg _ ih =>
    obtain ⟨us, rfl⟩ := hfg
    rw [List.map_cons, List.map_cons, ih]
    rfl

theorem Task.onlyInserts (types : TypeOracle) (htask : task.Sound) (hs : s.Regular) :
    s.OnlyInserts ((task.lower types).leaves s) where
  current := ((task.accretes types 0 htask).leaves hs (Nat.zero_le _)).constants
  enclosing := constants_eq_of_gained
    (Lower.leaves_of_yields (R := fun t ↦ List.Forall₂ OpenFunction.Gained s.enclosing t.enclosing)
      ((task.steady types s).mono (fun _ _ h ↦ h.enclosing) fun _ _ h ↦ h.enclosing))

/-- Whatever is lowered in the course of lowering a body only inserts into pools. -/
theorem Visits.onlyInserts {source : Option String} {bodies : List (List Stmt)} {body : List Stmt}
    (h : Visits types (.statements body) ((Session.after types source bodies).hoisted body)
      task s) :
    s.OnlyInserts ((task.lower types).leaves s) := by
  have hstart := (regular_after types source bodies).hoisted body
  obtain ⟨htask, -⟩ := h.leads (sound_statements body) hstart
  exact task.onlyInserts types htask (h.around.regular hstart)

/-! ## Complete prototypes -/

theorem close_after_of_compileBody {options : Options} {body : List Stmt} {p : Prototype}
    (h : compileBody types options body = .ok p) :
    (Session.after types options.source [body]).close = .ok p := by
  obtain ⟨t, hrun, hclose⟩ := compileBody_eq_ok_iff.mp h
  rw [Session.after, lowerBlocks_cons_of_ok _ hrun, lowerBlocks]
  exact hclose

theorem extends_of_close_after {source : Option String} {bodies : List (List Stmt)}
    {p q : Prototype} (h : (Session.after types source bodies).close = .ok p)
    (hq : p.Contains q) :
    Pool.Extends {} q.constants := by
  have hmain := (lowerBlocks_keeps types bodies (Session.atMain_main source)).1
  have hempty : (OpenFunction.main source).Packed fun _ ↦ True := ⟨nofun, .refl _, rfl, nofun⟩
  have hpacked := ((Session.accretes_after types source bodies).packed hempty).close
  obtain rfl := Except.ok.inj (hmain.close_eq.symm.trans h)
  exact (hpacked q hq).2.1

/-- The pool lists the inserted constants once each, by first insertion. Lowering only inserts.
Indices stay valid, and fit 32 bits below `2 ^ 32` insertions, since `n ≤ i`. -/
theorem constants_listed_once (ks : List Constant) :
    (Pool.ofList ks).toList = ks.eraseDups ∧
    (∀ x y : Binary64, Constant.float x = .float y ↔ x.bits = y.bits) ∧
    (∀ (n : Int64) (x : Binary64), Constant.integer n ≠ .float x) ∧
    (∀ i k, ks[i]? = some k → ∃ n ≤ i, (({} : Pool).indices ks)[i]? = some n ∧
      ∀ later, (Pool.ofList (ks ++ later)).get? n = some k) ∧
    (∀ i j, i < ks.length → j < ks.length →
      ((({} : Pool).indices ks)[i]? = (({} : Pool).indices ks)[j]? ↔ ks[i]? = ks[j]?)) ∧
    (∀ types source bodies body task s,
      Visits types (.statements body) ((Session.after types source bodies).hoisted body) task s →
      s.OnlyInserts ((task.lower types).leaves s)) ∧
    ∀ types options body bodies p, compileBody types options body = .ok p ∨
      (Session.after types options.source bodies).close = .ok p → ∀ q, p.Contains q →
      (∃ ls, q.constants = .ofList ls) ∧ q.constants.toList.Nodup := by
  refine ⟨Pool.toList_ofList ks, fun x y ↦ ?_, nofun, fun i k hi ↦ ?_, fun i j hi hj ↦ ?_,
    fun types source bodies body task s h ↦ h.onlyInserts,
    fun types options body bodies p hp q hq ↦ ?_⟩
  · rw [Constant.float.injEq, Binary64.mk.injEq]
  · have hindex := Pool.getElem?_indices hi
    have hk : k ∈ ks := List.mem_of_getElem? hi
    refine ⟨_, (Pool.indices_le hindex).trans_eq (Nat.zero_add i), hindex, fun later ↦ ?_⟩
    exact (Pool.extends_ofList_append ks later).get?_eq_some (Pool.get?_idxOf hk)
  · exact Pool.getElem?_indices_eq_iff hi hj
  · have hextends : Pool.Extends {} q.constants := by
      obtain hp | hp := hp
      · exact extends_of_close_after (close_after_of_compileBody hp) hq
      · exact extends_of_close_after hp hq
    exact ⟨hextends, hextends.nodup List.nodup_nil⟩

/-- `let a = 1; function f(x) { return x[1] + x[1.5] * x[1]; } let b = 1;` -/
def repeatedNumbers : List Stmt :=
  [.declaration .let [⟨"a", some (.literal (.number .one))⟩],
   .function "f" ["x"]
    [.ret (some (.binary .add (.index (.identifier "x") (.literal (.number .one)))
      (.binary .mul (.index (.identifier "x") (.literal (.number ⟨0x3FF8000000000000⟩)))
        (.index (.identifier "x") (.literal (.number .one))))))],
   .declaration .let [⟨"b", some (.literal (.number .one))⟩]]

/-- Numbers that are equal as numbers and not as constants, of which one comes a second time. -/
def equalNumbers : List Constant :=
  [.integer 0, .float .zero, .float .negZero, .float .nan, .float ⟨0x7FF8000000000001⟩,
   .float .zero]

theorem constants_listed_once_repeatedNumbers :
    (Pool.ofList equalNumbers).toList = equalNumbers.take 5 ∧
    ({} : Pool).indices equalNumbers = [0, 1, 2, 3, 4, 1] ∧
    (({} : Pool).indices equalNumbers)[1]? = (({} : Pool).indices equalNumbers)[5]? ∧
    (∀ later, (Pool.ofList (equalNumbers ++ later)).get? 2 = some (.float .negZero)) ∧
    ((Session.main none).hoisted repeatedNumbers).OnlyInserts
      (((Task.statements repeatedNumbers).lower (SyntaxOracle.oracle {})).leaves
        ((Session.main none).hoisted repeatedNumbers)) ∧
    ∃ p q, compileBody (SyntaxOracle.oracle {}) {} repeatedNumbers = .ok p ∧ p.children = [q] ∧
      p.constants.toList.Nodup ∧ q.constants.toList.Nodup ∧
      q.constants.toList = [.integer 1, .float ⟨0x3FF8000000000000⟩] := by
  obtain ⟨hlist, -, -, hstays, hsame, hvisits, hcompiled⟩ := constants_listed_once equalNumbers
  have hindices : ({} : Pool).indices equalNumbers = [0, 1, 2, 3, 4, 1] := by decide +kernel
  have hpools : (compileBody (SyntaxOracle.oracle {}) {} repeatedNumbers).toOption.map
      (fun p ↦ p.children.map fun c ↦ c.constants.toList) =
      some [[.integer 1, .float ⟨0x3FF8000000000000⟩]] := by decide +kernel
  refine ⟨hlist.trans (by decide), hindices, (hsame 1 5 (by decide) (by decide)).mpr rfl, ?_,
    hvisits _ _ [] _ _ _ (.self _ _), ?_⟩
  · obtain ⟨n, -, hn, hget⟩ := hstays 2 (.float .negZero) rfl
    rw [hindices] at hn
    cases hn
    exact hget
  · cases hp : compileBody (SyntaxOracle.oracle {}) {} repeatedNumbers with
    | error e =>
      rw [hp] at hpools
      cases hpools
    | ok p =>
      rw [hp] at hpools
      obtain ⟨q, hchildren, hpool⟩ := List.map_eq_singleton_iff.mp (Option.some.inj hpools)
      have hq : p.Contains q :=
        .nested (by rw [hchildren]; exact List.mem_singleton_self q) (.self q)
      have hdistinct := hcompiled _ _ _ [] p (.inl hp)
      exact ⟨p, q, rfl, hchildren, (hdistinct p (.self p)).2, (hdistinct q hq).2, hpool⟩

end LuaLower
