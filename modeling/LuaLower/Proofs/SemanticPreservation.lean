import LuaLower.Proofs.Semantics.Statements

/-!
# Lowering preserves meaning

A function whose body only declares and assigns locals before it returns, and whose expressions have
no effects, returns what the body evaluates to. The machine is deterministic, so it returns nothing
else.
-/

namespace LuaLower

open OpenFunction Machine

variable {V : Type} {m : Meaning V} {outer : String → V} {ρ : Nat → V} {f : OpenFunction}
  {s t : Session}

/-! ## Parameters -/

/-- Each parameter is bound over those before it. -/
theorem Scope.ofLocals_paramLocals (params : List String) (first : Nat) (locals : List Local)
    (captured : String → Bool) :
    ofLocals (paramLocals first params ++ locals) captured outer ρ =
      (params.zipIdx first).foldl (fun scope p ↦ scope.bind p.1 (ρ p.2))
        (ofLocals locals captured outer ρ) := by
  induction params generalizing first locals with
  | nil => rfl
  | cons name params ih =>
    rw [paramLocals, List.append_assoc, List.singleton_append, ih, ofLocals_cons]
    rfl

theorem Session.scope_of_params {params : List String}
    (hlocals : s.current.registers.locals = paramLocals 0 params) :
    s.scope outer ρ = Scope.ofParams s.captures outer params ρ := by
  rw [Session.scope, hlocals, ← List.append_nil (paramLocals 0 params), Scope.ofLocals_paramLocals]
  rfl

theorem exists_local?_of_param {params : List String}
    (hlocals : f.registers.locals = paramLocals 0 params) {x : String} (hx : x ∈ params) :
    (f.local? x).isSome := by
  have hmem (first : Nat) : ∃ l ∈ paramLocals first params, l.name = x := by
    clear hlocals
    induction params generalizing first with
    | nil => cases hx
    | cons name params ih =>
      rcases List.mem_cons.mp hx with rfl | hx
      · exact ⟨⟨x, first, false⟩, by simp [paramLocals], rfl⟩
      · obtain ⟨l, hl, hname⟩ := ih hx (first + 1)
        exact ⟨l, List.mem_append_left _ hl, hname⟩
  rw [local?, Registers.find?, hlocals, List.find?_isSome]
  obtain ⟨l, hl, hname⟩ := hmem 0
  exact ⟨l, hl, by simpa using hname⟩

/-! ## The frame of a complete function -/

theorem provides_close (m : Meaning V) (outer : String → V) (f : OpenFunction) :
    (Frame.ofPrototype m outer f.close).Provides m outer f where
  constant k c hk := congrArg (Option.map m.constant) hk
  upvalue u name hu := by
    obtain ⟨upvalue, hup, rfl⟩ := Option.map_eq_some_iff.mp hu
    exact congrArg (Option.map fun upvalue ↦ outer upvalue.name) hup

theorem follows_close (m : Meaning V) (outer : String → V) (f : OpenFunction) :
    (Frame.ofPrototype m outer f.close).Follows 0 f := by
  intro i _ hi
  rw [Frame.ofPrototype, close, Array.getElem?_push_lt hi, Array.getElem?_eq_getElem hi]

/-- A function that is opened, given its parameters and a body without effects, and closed returns
the value of the body and nothing else. -/
theorem pureBody_returns_iff (m : Meaning V) (types : TypeOracle) {params : List String}
    {body : List Stmt} (hfresh : s.current.Fresh 0) (howners : s.names.owners = [])
    (hbody : isPureBody params body = true)
    (hlower : (do
      Build.bindParams params
      Build.setParamCount params.length
      Lower.block types body : Lower Unit) s = .ok () t)
    (outer : String → V) (args : Nat → V) (values : List V) :
    Returns m (Frame.ofPrototype m outer t.current.close) ⟨0, args⟩ values ↔
      values = [m.evalBody types (Scope.ofParams s.captures outer params args) body] := by
  have hparams := Lower.yields_onCurrent (s := s) (yields_openParams (b := 0) params hfresh)
  rw [Lower.onCurrent_bind] at hparams
  simp only [← bind_assoc] at hlower
  obtain ⟨_, s₁, hopen, hblock⟩ := bind_eq_ok hlower
  obtain ⟨⟨hfresh₁, hlocals, hproto⟩, hs₁⟩ := hparams.result hopen
  obtain ⟨_, s₂, hhoist, hstatements⟩ := bind_eq_ok hblock
  have hready₁ : s₁.Ready := ⟨by rw [hs₁]; exact howners, hfresh₁.tidy⟩
  have hsettled₁ : s₁.Settled := hfresh₁.next.trans hfresh₁.numLocals.symm
  have hadvances : Advances (fun _ _ ↦ True) 0 (Lower.hoist body) s₁ [] := advances_hoist body
  have hready := ((hadvances hready₁ hsettled₁ (Nat.zero_le _)).result hhoist).1.ready hready₁
  cases hhoist
  have hcaptures : s₁.captures = s.captures :=
    Session.captures_congr (by rw [hproto]) hs₁
  have hsize : s₁.current.proto.code.size = 0 := by
    rw [hfresh₁.code]
    rfl
  have hreturns := returns_statements (ρ := args) types hbody hready hsettled₁
    (fun x hx ↦ exists_local?_of_param hlocals hx) hstatements
    (provides_close m outer t.current) ((follows_close m outer t.current).mono (Nat.zero_le _))
  rw [← hcaptures, ← Session.scope_of_params hlocals, ← hsize]
  constructor
  · intro h
    exact hreturns.unique h
  · rintro rfl
    exact hreturns

/-- Natural numbers as values; a table is the number from which its fields are counted. -/
def Meaning.naturals : Meaning Nat where
  constant
    | .boolean true => 1
    | .integer n => n.toNatClampNeg
    | _ => 0
  truthy v := v != 0
  add := (· + ·)
  sub := (· - ·)
  mul := (· * ·)
  div := (· / ·)
  mod := (· % ·)
  pow := (· ^ ·)
  band := (· &&& ·)
  bor := (· ||| ·)
  bxor := (· ^^^ ·)
  shl := (· <<< ·)
  shr := (· >>> ·)
  concat := (· + ·)
  minus v := 0 - v
  bnot v := v ^^^ (2 ^ 64 - 1)
  not v := if v = 0 then 1 else 0
  eq := (· == ·)
  lt v w := v < w
  le v w := v ≤ w
  index := (· + ·)

/-- A function inside one with the local `k`. -/
def Session.insideLocal : Session where
  current := (OpenFunction.main none).inside
  enclosing :=
    [{ OpenFunction.main none with
      registers := { locals := [⟨"k", 0, false⟩], next := 1, high := 1 } }]

/-- `let x = a + 1, y; x += k; return k < x && x;` -/
def sumBody : List Stmt :=
  [.declaration .let
    [⟨"x", some (.binary .add (.identifier "a") (.literal (.number .one)))⟩, ⟨"y", none⟩],
   .expression (.assign .add (.identifier "x") (.identifier "k")),
   .ret (some (.binary .and (.binary .lt (.identifier "k") (.identifier "x")) (.identifier "x")))]

def sumFunction : Lower Unit := do
  Build.bindParams ["a"]
  Build.setParamCount 1
  Lower.block (SyntaxOracle.oracle {}) sumBody

theorem pureBody_returns_iff_sumBody :
    isPureBody ["a"] sumBody = true ∧ ∃ t, sumFunction Session.insideLocal = .ok () t ∧
      -- With 2 for `a` and 5 for `k` the function returns 8.
      Returns .naturals (Frame.ofPrototype .naturals (fun x ↦ if x = "k" then 5 else 0)
        t.current.close) ⟨0, fun r ↦ if r = 0 then 2 else 0⟩ [8] := by
  have hpure : isPureBody ["a"] sumBody = true := by decide +kernel
  have hok : (sumFunction.run' Session.insideLocal).isSome = true := by decide +kernel
  refine ⟨hpure, ?_⟩
  cases hlower : sumFunction Session.insideLocal with
  | error e t =>
    delta EStateM.run' EStateM.run at hok
    rw [hlower] at hok
    cases hok
  | ok a t =>
    refine ⟨t, rfl, ?_⟩
    apply (pureBody_returns_iff .naturals (SyntaxOracle.oracle {}) (fresh_inside _) rfl hpure hlower
      _ _ _).mpr
    decide +kernel

end LuaLower
