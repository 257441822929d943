import LuaLower.Proofs.Lowering.Target
import LuaLower.Proofs.Session.Emission

/-!
# What names resolve to

A name that is no local of the innermost function is looked for among the variables of the functions
around it. Capturing it adds upvalues of that name and changes for no name whether it is a variable.
-/

namespace LuaLower

open OpenFunction

variable {Nested : ParamTree → Prototype → Prop} {W : Nat → Prop} {b : Nat} {name x : String}

/-! ## Capturing -/

namespace OpenFunction

/-- The upvalue at a position has a given name. -/
def UpvalueNamed (f : OpenFunction) (u : Nat) (name : String) : Prop :=
  f.proto.upvalues[u]?.map Upvalue.name = some name

variable {f g : OpenFunction} {u : Nat}

theorem UpvalueNamed.lt (h : f.UpvalueNamed u name) : u < f.proto.upvalues.length := by
  obtain ⟨_, hu, _⟩ := Option.map_eq_some_iff.mp h
  exact (List.getElem?_eq_some_iff.mp hu).1

theorem upvalueNamed_of_index (h : f.upvalueIndex? name = some u) : f.UpvalueNamed u name := by
  obtain ⟨hlt, hname, _⟩ := List.findIdx?_eq_some_iff_getElem.mp h
  rw [UpvalueNamed, List.getElem?_eq_getElem hlt, Option.map_some]
  exact congrArg some (by simpa using hname)

/-- Whether a name is an upvalue, or a variable of one of the functions around. -/
def captures (f : OpenFunction) (outer : List OpenFunction) (x : String) : Bool :=
  (f.upvalueIndex? x).isSome ||
    outer.any fun g ↦ (g.local? x).isSome || (g.upvalueIndex? x).isSome

theorem captures_cons (f parent : OpenFunction) (outer : List OpenFunction) (x : String) :
    f.captures (parent :: outer) x =
      ((f.upvalueIndex? x).isSome || ((parent.local? x).isSome || parent.captures outer x)) := by
  simp [captures, Bool.or_assoc]

theorem captures_capturing (f : OpenFunction) (outer : List OpenFunction) (u : Upvalue) :
    (f.capturing [u]).captures outer x = (f.captures outer x || u.name == x) := by
  have hindex : ((f.capturing [u]).upvalueIndex? x).isSome =
      ((f.upvalueIndex? x).isSome || u.name == x) := by
    by_cases hx : u.name = x <;> simp [upvalueIndex?, capturing, hx]
  rw [captures, hindex, captures, Bool.or_right_comm]

end OpenFunction

/-- What capturing a name does to a chain of functions. -/
structure Chain.Resolved (chain chain' : Chain) : Prop where
  innermost : Gained chain.1 chain'.1
  enclosing : List.Forall₂ Gained chain.2 chain'.2
  captures : ∀ x, chain'.1.captures chain'.2 x = chain.1.captures chain.2 x

theorem Chain.Resolved.refl (chain : Chain) : chain.Resolved chain :=
  ⟨.refl _, forall₂_gained_refl _, fun _ ↦ rfl⟩

theorem Chain.Resolved.local?_eq {chain chain' : Chain} (h : chain.Resolved chain') :
    chain'.1.local? = chain.1.local? := by
  funext x
  rw [OpenFunction.local?, h.innermost.registers, OpenFunction.local?]

/-- The functions around another one are a chain of their own. -/
theorem Chain.Resolved.under {f parent : OpenFunction} {outer : List OpenFunction} {chain : Chain}
    (h : Chain.Resolved (parent, outer) chain) :
    Chain.Resolved (f, parent :: outer) (f, chain.1 :: chain.2) where
  innermost := .refl f
  enclosing := .cons h.innermost h.enclosing
  captures x := by
    have hlocal := congrFun h.local?_eq x
    have hcaptures := h.captures x
    simp only [captures_cons, hlocal, hcaptures]

/-! ## The outcomes of a search -/

section Outcomes

variable {f parent : OpenFunction} {outer : List OpenFunction} {chain : Chain} {inStack : Bool}
  {index u : Nat}

theorem Chain.newUpvalue_of_lt (h : f.proto.upvalues.length < Build.upvalueLimit) :
    Chain.newUpvalue (f, outer) name inStack index =
      .ok (some f.proto.upvalues.length)
        (f.capturing [⟨name, inStack, UInt8.ofNat index⟩], outer) := by
  have hnew : Build.newUpvalue name inStack index f = .ok f.proto.upvalues.length
      (f.capturing [⟨name, inStack, UInt8.ofNat index⟩]) := by
    rw [Build.newUpvalue, get_bind, if_pos h]
    rfl
  simp only [Chain.newUpvalue, hnew]

/-- A function that has as many upvalues as there can be. -/
theorem Chain.newUpvalue_of_le (h : Build.upvalueLimit ≤ f.proto.upvalues.length) :
    Chain.newUpvalue (f, outer) name inStack index =
      .error (.unimplemented .upvalueLimit) (f, outer) := by
  have hfull : Build.newUpvalue name inStack index f =
      .error (.unimplemented .upvalueLimit) f := by
    rw [Build.newUpvalue, get_bind, if_neg (Nat.not_lt.mpr h)]
    rfl
  simp only [Chain.newUpvalue, hfull]

/-- A function with an upvalue of the name asks nothing of the functions around it. -/
theorem capture_of_index (outer : List OpenFunction) (h : f.upvalueIndex? name = some u) :
    capture name f outer = .ok (some u) (f, outer) := by
  cases outer with
  | nil => simp [capture, h]
  | cons parent outer => simp [capture, h]

theorem capture_of_local (outer : List OpenFunction) {l : Local}
    (hindex : f.upvalueIndex? name = none) (hlocal : parent.local? name = some l) :
    capture name f (parent :: outer) =
      Chain.newUpvalue (f, parent :: outer) name true l.register := by
  simp [capture, hindex, hlocal]

theorem capture_of_found (hindex : f.upvalueIndex? name = none)
    (hlocal : parent.local? name = none) (h : capture name parent outer = .ok (some u) chain) :
    capture name f (parent :: outer) =
      Chain.newUpvalue (f, chain.1 :: chain.2) name false u := by
  simp [capture, hindex, hlocal, h]

theorem capture_of_none (hindex : f.upvalueIndex? name = none)
    (hlocal : parent.local? name = none) (h : capture name parent outer = .ok none chain) :
    capture name f (parent :: outer) = .ok none (f, chain.1 :: chain.2) := by
  simp [capture, hindex, hlocal, h]

theorem capture_of_error {e : Failure} (hindex : f.upvalueIndex? name = none)
    (hlocal : parent.local? name = none) (h : capture name parent outer = .error e chain) :
    capture name f (parent :: outer) = .error e (f, chain.1 :: chain.2) := by
  simp [capture, hindex, hlocal, h]

end Outcomes

/-- Adding an upvalue for a name that was captured already. -/
theorem yields_newUpvalue {chain chain' : Chain} (hchain : chain.Resolved chain')
    (hname : chain.1.captures chain.2 name = true) (inStack : Bool) (index : Nat) :
    Yields (fun c : Chain ↦ c.newUpvalue name inStack index) chain'
      (fun u c ↦ chain.Resolved c ∧ u.isSome = true ∧ ∀ i, u = some i → c.1.UpvalueNamed i name)
      (fun _ c ↦ chain.Resolved c) := by
  obtain ⟨f, outer⟩ := chain'
  by_cases hlimit : f.proto.upvalues.length < Build.upvalueLimit
  · refine .of_ok (Chain.newUpvalue_of_lt hlimit) ⟨⟨?_, hchain.enclosing, ?_⟩, rfl, ?_⟩
    · exact hchain.innermost.trans ⟨_, rfl⟩
    · intro x
      rw [captures_capturing, hchain.captures x]
      by_cases hx : name = x
      · simp [← hx, hname]
      · simp [hx]
    · rintro _ ⟨⟩
      simp [UpvalueNamed, capturing]
  · exact .of_error (Chain.newUpvalue_of_le (Nat.not_lt.mp hlimit)) hchain

theorem yields_capture (name : String) (f : OpenFunction) (outer : List OpenFunction) :
    Yields (fun c : Chain ↦ capture name c.1 c.2) (f, outer)
      (fun u c ↦ Chain.Resolved (f, outer) c ∧ u.isSome = f.captures outer name ∧
        ∀ i, u = some i → c.1.UpvalueNamed i name)
      (fun _ c ↦ Chain.Resolved (f, outer) c) := by
  induction outer generalizing f with
  | nil =>
    refine .of_ok rfl ⟨.refl _, by simp [captures], fun i hi ↦ upvalueNamed_of_index hi⟩
  | cons parent outer ih =>
    cases hindex : f.upvalueIndex? name with
    | some u =>
      refine .of_ok (capture_of_index _ hindex) ⟨.refl _, by simp [captures, hindex], ?_⟩
      rintro _ ⟨⟩
      exact upvalueNamed_of_index hindex
    | none =>
      cases hlocal : parent.local? name with
      | some l =>
        have hname : f.captures (parent :: outer) name = true := by
          simp [captures_cons, hlocal]
        rw [hname]
        exact (yields_newUpvalue (.refl (f, parent :: outer)) hname true l.register).of_eq
          (capture_of_local outer hindex hlocal)
      | none =>
        have hcaptures : f.captures (parent :: outer) name = parent.captures outer name := by
          simp [captures_cons, hindex, hlocal]
        cases hrest : capture name parent outer with
        | error e c =>
          exact .of_error (capture_of_error hindex hlocal hrest) ((ih parent).failure hrest).under
        | ok u c =>
          obtain ⟨hc, hsome, -⟩ := (ih parent).result hrest
          rw [← hcaptures] at hsome
          rw [← hsome]
          cases u with
          | none =>
            exact .of_ok (capture_of_none hindex hlocal hrest) ⟨hc.under, rfl, nofun⟩
          | some u =>
            exact (yields_newUpvalue hc.under hsome.symm false u).of_eq
              (capture_of_found hindex hlocal hrest)

/-! ## Places and values of names -/

namespace Session

def captures (s : Session) (x : String) : Bool := s.current.captures s.enclosing x

/-- What looking for a variable does to a session. -/
structure Resolved (s t : Session) : Prop where
  chain : Chain.Resolved (s.current, s.enclosing) (t.current, t.enclosing)
  names : t.names = s.names

variable {s t : Session}

theorem Resolved.extends (h : s.Resolved t) : Session.Extends Nested b s [] t where
  current := h.chain.innermost.extends.grows
  enclosing := h.chain.enclosing
  owners := by rw [h.names]
  locals := by rw [h.chain.innermost.registers]

theorem Resolved.ready (h : s.Resolved t) (hs : s.Ready) : t.Ready where
  owners := by
    rw [h.names]
    exact hs.owners
  tidy := by
    rw [h.chain.innermost.registers]
    exact hs.tidy

/-- The result of looking for the variable of a name. -/
inductive Found (s : Session) (name : String) : Option Place → Session → Prop
  | home {l : Local} : s.current.local? name = some l → Found s name (some (.register l.register)) s
  | captured {t : Session} {u : Nat} : s.current.local? name = none → s.captures name = true →
    s.Resolved t → t.current.UpvalueNamed u name → Found s name (some (.upvalue u)) t
  | missing {t : Session} : s.current.local? name = none → s.captures name = false →
    s.Resolved t → Found s name none t

theorem Found.holds {place : Place} (h : s.Found name (some place) t) (hs : s.Ready) :
    t.current.Holds place.toValue s.current.registers.next t.current.registers.next := by
  cases h with
  | home hl => exact .inl ⟨hs.tidy.find?_lt hl, rfl⟩
  | captured _ _ ht hu => exact ⟨hu.lt, by rw [ht.chain.innermost.registers]⟩

theorem Found.resolved {place : Option Place} (h : s.Found name place t) : s.Resolved t := by
  cases h with
  | home _ => exact ⟨.refl _, rfl⟩
  | captured _ _ ht _ => exact ht
  | missing _ _ ht => exact ht

theorem Found.emitted {place : Option Place} (h : s.Found name place t) :
    s.current.Emitted W false t.current :=
  .of_code_eq h.resolved.chain.innermost.code

theorem Found.next_eq {place : Option Place} (h : s.Found name place t) :
    t.current.registers.next = s.current.registers.next :=
  congrArg Registers.next h.resolved.chain.innermost.registers

end Session

variable {s t : Session}

theorem place?_of_local {l : Local} (h : s.current.local? name = some l) :
    Lower.place? name s = .ok (some (.register l.register)) s := by
  simp [Lower.place?, h]

theorem place?_of_capture {u : Option Nat} {chain : Chain} (hlocal : s.current.local? name = none)
    (hcapture : capture name s.current s.enclosing = .ok u chain) :
    Lower.place? name s =
      .ok (u.map .upvalue) { s with current := chain.1, enclosing := chain.2 } := by
  simp [Lower.place?, hlocal, hcapture]

theorem place?_of_capture_error {e : Failure} {chain : Chain}
    (hlocal : s.current.local? name = none)
    (hcapture : capture name s.current s.enclosing = .error e chain) :
    Lower.place? name s = .error e { s with current := chain.1, enclosing := chain.2 } := by
  simp [Lower.place?, hlocal, hcapture]

theorem yields_place? (name : String) (s : Session) :
    Yields (Lower.place? name) s (fun place t ↦ s.Found name place t) (fun _ t ↦ s.Resolved t) := by
  cases hlocal : s.current.local? name with
  | some l => exact .of_ok (place?_of_local hlocal) (.home hlocal)
  | none =>
    have hcapture := yields_capture name s.current s.enclosing
    cases hc : capture name s.current s.enclosing with
    | error e c => exact .of_error (place?_of_capture_error hlocal hc) ⟨hcapture.failure hc, rfl⟩
    | ok u c =>
      obtain ⟨hchain, hsome, hnamed⟩ := hcapture.result hc
      have hresolved : s.Resolved { s with current := c.1, enclosing := c.2 } := ⟨hchain, rfl⟩
      refine .of_ok (place?_of_capture hlocal hc) ?_
      cases u with
      | none => exact .missing hlocal hsome.symm hresolved
      | some u => exact .captured hlocal hsome.symm hresolved (hnamed u rfl)

theorem lowers_place? (name : String) :
    Lowers Nested b (Lower.place? name) s [] (fun place t ↦ s.Found name place t) := by
  intro _ hb
  refine (yields_place? name s).mono ?_ ?_
  · intro place t hfound
    exact ⟨hfound.resolved.extends, hfound⟩
  · intro e t hresolved
    have hextends : s.Extends Nested b [] t := hresolved.extends
    exact hextends.kept hb

/-- The result of reading a name. -/
inductive Session.LookedUp (s : Session) (name : String) : Value → Session → Prop
  | ofPlace {place : Place} {t : Session} : s.Found name (some place) t →
    LookedUp s name place.toValue t
  | constant {t : Session} {k : Constant} : s.Found name none t → namedConstant? name = some k →
    LookedUp s name (.constant (t.current.proto.constants.insert k).1)
      { t with current := t.current.intern k }
  | global {t : Session} {f : OpenFunction} {env : Nat} {key : Value} : s.Found name none t →
    namedConstant? name = none → t.current.upvalueIndex? envName = some env →
    t.current.PlacedConstant (.string name) key f →
    f.Holds (.member (.upvalue env) key) t.current.registers.next f.registers.next →
    LookedUp s name (.member (.upvalue env) key) { t with current := f }

theorem Session.LookedUp.holds {v : Value} (h : s.LookedUp name v t) (hs : s.Ready) :
    t.current.Holds v s.current.registers.next t.current.registers.next := by
  cases h with
  | ofPlace hfound => exact hfound.holds hs
  | @constant t k hfound _ =>
    cases hfound with
    | missing _ _ ht =>
      rw [← ht.chain.innermost.registers]
      exact holds_intern t.current k
  | global hfound _ _ _ hholds =>
    cases hfound with
    | missing _ _ ht =>
      rw [← ht.chain.innermost.registers]
      exact hholds

theorem Session.LookedUp.emitted {v : Value} (h : s.LookedUp name v t)
    (hnext : W s.current.registers.next) : s.current.Emitted W false t.current := by
  cases h with
  | ofPlace hfound => exact hfound.emitted
  | constant hfound _ => exact hfound.emitted.trans (.of_code_eq rfl)
  | global hfound _ _ hplaced _ =>
    exact hfound.emitted.trans (hplaced.emitted (hfound.next_eq ▸ hnext))

theorem lowers_lookup (types : TypeOracle) (name : String) :
    Lowers Nested b (Lower.lookup types name) s [] (fun v t ↦ s.LookedUp name v t) := by
  refine .assuming fun hs _ ↦ .get ?_
  simp only [hs.owners]
  refine .bind_last (lowers_place? name) ?_
  intro place t hst hfound
  have hlo : t.current.registers.numLocals ≤ t.current.registers.next :=
    (hst.ready hs).tidy.numLocals_le
  cases place with
  | some place => exact .pure (.ofPlace hfound)
  | none =>
    cases hconstant : namedConstant? name with
    | some k =>
      refine .bind_last (.onCurrent_exact (.intern k)) ?_
      rintro _ u - ⟨⟨rfl, hu⟩, ht⟩
      rw [hu] at ht
      exact .pure (ht ▸ .constant hfound hconstant)
    | none =>
      simp only
      split
      · refine (Lowers.onCurrent_exact (builds_globalValue name hlo)).mono ?_
        rintro _ u - ⟨⟨env, key, rfl, henv, hkey, hholds⟩, hu⟩
        rw [hu]
        exact .global hfound hconstant henv hkey hholds
      · exact .throw

theorem lowers_lookupThis :
    Lowers Nested b Lower.lookupThis s []
      (fun v t ↦ (∃ place : Place, v = place.toValue ∧ s.Found "this" (some place) t) ∨
        ∃ env, v = .upvalue env ∧ s.Found "this" none t ∧
          t.current.upvalueIndex? envName = some env) := by
  refine .bind_last (lowers_place? "this") ?_
  intro place t hst hfound
  cases place with
  | some place => exact .pure (.inl ⟨place, rfl, hfound⟩)
  | none =>
    refine .get ?_
    cases henv : t.current.upvalueIndex? envName with
    | some env => exact .pure (.inr ⟨env, rfl, hfound, henv⟩)
    | none => exact .throw

theorem withOwner_eq_onCurrent {owner : Value} {step : Lower Value} {build : Build Value}
    (h : step { s with names := s.names.enterOwner owner } =
      Lower.onCurrent build { s with names := s.names.enterOwner owner }) :
    Lower.withOwner owner step s = Lower.onCurrent build s := by
  rw [Lower.withOwner, h]
  cases hbuild : build s.current with
  | ok a f => simp [Lower.onCurrent, hbuild]
  | error e f => simp [Lower.onCurrent, hbuild]

/-- Reading a field by its name: the owner is put in front of the names only for that. -/
theorem withOwner_lookup (types : TypeOracle) (owner : Value) (name : String) :
    Lower.withOwner owner (Lower.lookup types name) = Lower.onCurrent (do
      let key ← Build.toKey (.constant (← Build.stringIndex name))
      return .member owner key) := by
  funext s
  apply withOwner_eq_onCurrent
  simp only [Lower.onCurrent_bind]
  rfl

theorem Names.owners_addGlobals (names : List String) (n : Names) :
    (names.foldl Names.addGlobal n).owners = n.owners := by
  induction names generalizing n with
  | nil => rfl
  | cons name names ih => exact (ih _).trans rfl

theorem lowers_addGlobal (name : String) :
    Lowers Nested b (Lower.addGlobal name) s [] (fun _ t ↦ t.current = s.current) :=
  fun _ _ ↦ .of_ok (t := { s with names := s.names.addGlobal name }) rfl
    ⟨⟨⟨.refl _, forall₂_gained_refl _, rfl⟩, rfl⟩, rfl⟩

theorem translates_globalTarget (name : String) (hnext : W s.current.registers.next) :
    Translates Nested W b (Lower.onCurrent (Build.globalTarget name)) s []
      (fun target t ↦ target.WritesIn W ∧
        t.current.HoldsTarget target s.current.registers.next t.current.registers.next) := by
  refine .assuming fun hs _ ↦ ?_
  refine (Lowers.onCurrent (builds_globalTarget name hs.tidy.numLocals_le)).mono ?_
  rintro _ t - ⟨env, key, rfl, henv, hkey⟩
  exact ⟨hkey.emitted hnext, trivial, s.current.registers.next, ⟨henv, rfl⟩,
    hkey.holds.operand hkey.1⟩

theorem translates_nameTarget (name : String) (hs : s.Covers W [name]) :
    Translates Nested W b (Lower.nameTarget name) s []
      (fun target t ↦ (target.WritesIn W ∧
        t.current.HoldsTarget target s.current.registers.next t.current.registers.next) ∧
        ∀ l, s.current.local? name = some l → target = .register l.register ∧ t = s) := by
  refine .assuming fun hready _ ↦ .get ?_
  split
  · exact .throw
  · refine .bind_last (.of_lowers (lowers_place? name) fun _ _ h ↦ h.emitted) ?_
    intro place t hst hfound
    cases hfound with
    | home hl =>
      refine .pure ⟨⟨hs.assigned name (List.mem_singleton_self name) _ hl,
        hready.tidy.find?_lt hl, rfl⟩, ?_⟩
      intro l hl'
      cases hl.symm.trans hl'
      exact ⟨rfl, rfl⟩
    | captured hlocal _ ht hu =>
      refine .pure ⟨⟨trivial, hu.lt, by rw [ht.chain.innermost.registers]⟩, ?_⟩
      simp [hlocal]
    | missing hlocal _ ht =>
      have hnext := ht.chain.innermost.registers
      simp only
      split
      · exact .throw
      · refine .bind_last
          (.of_lowers (lowers_addGlobal name) fun _ _ h ↦ .of_code_eq (by rw [h])) ?_
        intro _ u _ hu
        rw [← hu] at hnext
        refine (translates_globalTarget name (hnext ▸ hs.next)).mono ?_
        rintro target w _ ⟨hwrites, htarget⟩
        rw [hnext] at htarget
        exact ⟨⟨hwrites, htarget⟩, by simp [hlocal]⟩

/-- A local is its own target. -/
theorem lowers_nameTarget (name : String) :
    Lowers Nested b (Lower.nameTarget name) s []
      (fun target t ↦
        t.current.HoldsTarget target s.current.registers.next t.current.registers.next ∧
        ∀ l, s.current.local? name = some l → target = .register l.register ∧ t = s) :=
  (translates_nameTarget name (.trivial s [name])).lowers.mono fun _ _ _ h ↦ ⟨h.1.2, h.2⟩

end LuaLower
