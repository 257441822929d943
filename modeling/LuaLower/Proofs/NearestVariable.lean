import Mathlib.Logic.Relation
import LuaLower.Proofs.Session.Linking

/-!
# Names mean the nearest variable

However functions are opened and closed, locals declared and names looked up, the chain of open
functions stays linked. So looking up a name finds the nearest local of that name: in its register
if it belongs to the innermost function, and else through a chain of upvalues.
-/

namespace LuaLower

open OpenFunction

variable {name : String} {f g : OpenFunction} {fs gs outer : List OpenFunction} {s t : Session}

/-! ## The steps that change a chain -/

inductive ChainStep : List OpenFunction → List OpenFunction → Prop
  | enter (f : OpenFunction) (outer : List OpenFunction) :
    ChainStep (f :: outer) (f.inside :: f :: outer)
  | leave (f : OpenFunction) (outer : List OpenFunction) : ChainStep (f :: outer) outer
  /-- Registers come from the allocator, so instructions can name them. -/
  | declare {f g : OpenFunction} {outer : List OpenFunction} {name : String} {r : Nat}
    {isConst : Bool} : r < Registers.limit → Build.bindLocal name r isConst f = .ok () g →
    ChainStep (f :: outer) (g :: outer)
  | resolve {s t : Session} {name : String} {place : Option Place} :
    Lower.place? name s = .ok place t → ChainStep s.functions t.functions
  /-- What a search has added before it fails stays. -/
  | fail {s t : Session} {name : String} {e : Failure} :
    Lower.place? name s = .error e t → ChainStep s.functions t.functions
  /-- Anything that does not concern variables: code, constants, temporaries, nested functions. -/
  | work {f g : OpenFunction} {outer : List OpenFunction} :
    g.proto.upvalues = f.proto.upvalues → g.registers.locals = f.registers.locals →
    ChainStep (f :: outer) (g :: outer)

def ChainReachable (fs : List OpenFunction) : Prop :=
  ∃ source, Relation.ReflTransGen ChainStep [.main source] fs

/-- The functions that are open before and after have kept their upvalues, each in its place.
Counted from the main function, a function keeps its number. -/
def KeepsUpvalues (fs gs : List OpenFunction) : Prop :=
  ∀ (i : Nat) (f g : OpenFunction), fs.reverse[i]? = some f → gs.reverse[i]? = some g →
    f.proto.upvalues <+: g.proto.upvalues

/-- The answer to a search for the variable of a name. -/
def Designates (name : String) (before after : List OpenFunction) (place : Option Place) : Prop :=
  match nearest? name before with
  | none => place = none
  | some (0, r) => place = some (.register r)
  | some (depth + 1, r) => ∃ u, place = some (.upvalue u) ∧ Leads name after u (depth + 1) r

/-! ## Searching -/

theorem yields_place?_gained (name : String) (s : Session) :
    Yields (Lower.place? name) s (fun _ t ↦ List.Forall₂ Gained s.functions t.functions)
      (fun _ t ↦ List.Forall₂ Gained s.functions t.functions) :=
  (yields_place? name s).mono
    (fun _ _ h ↦ .cons h.resolved.chain.innermost h.resolved.chain.enclosing)
    fun _ _ h ↦ .cons h.chain.innermost h.chain.enclosing

/-- The globals are an upvalue of every function, so a search for them changes nothing. -/
theorem yields_place?_env (h : Linked s.functions) :
    Yields (Lower.place? envName) s (fun _ t ↦ t = s) (fun _ _ ↦ False) := by
  cases hlocal : s.current.local? envName with
  | some l => exact .of_ok (place?_of_local hlocal) rfl
  | none =>
    have hcapture := capture_of_index s.enclosing h.1.upvalueIndex?_env
    exact .of_ok (place?_of_capture hlocal hcapture) rfl

theorem yields_place?_linked (hname : name ≠ envName) (h : Linked s.functions) :
    Yields (Lower.place? name) s
      (fun place t ↦ Linked t.functions ∧ Designates name s.functions t.functions place ∧
        Lower.place? name t = .ok place t)
      (fun e t ↦ Chain.Full e (t.current, t.enclosing)) := by
  cases hlocal : s.current.local? name with
  | some l =>
    refine .of_ok (place?_of_local hlocal) ⟨h, ?_, place?_of_local hlocal⟩
    rw [Designates, Session.functions, nearest?_of_local _ hlocal]
  | none =>
    have hcapture := yields_capture_linked hname h
    have hnearest := nearest?_of_none s.enclosing hlocal
    cases hrun : capture name s.current s.enclosing with
    | error e chain =>
      exact .of_error (place?_of_capture_error hlocal hrun) (hcapture.failure hrun)
    | ok u chain =>
      obtain ⟨hlinked, hcaptured⟩ := hcapture.result hrun
      have hplace := place?_of_capture hlocal hrun
      cases hcaptured with
      | missing hnone =>
        refine .of_ok hplace ⟨hlinked, ?_, hplace⟩
        rw [Designates, Session.functions, hnearest, hnone]
        rfl
      | found hindex hdepth hleads =>
        have hchain := ((yields_capture name s.current s.enclosing).result hrun).1
        refine .of_ok hplace ⟨hlinked, ?_, ?_⟩
        · rw [Designates, Session.functions, hnearest, hdepth]
          exact ⟨_, rfl, hleads⟩
        · -- The first search has left an upvalue of the name, and the second finds it.
          have hagain : chain.1.local? name = none := by
            rw [hchain.innermost.local?_eq]
            exact hlocal
          exact place?_of_capture hagain (capture_of_index _ hindex)

/-! ## What a step keeps -/

/-- Links depend on the upvalues of a function, and not on what else becomes of it. -/
theorem OpenFunction.LinkedTo.of_upvalues (h : f.LinkedTo outer)
    (hupvalues : g.proto.upvalues = f.proto.upvalues)
    (hregisters : ∀ l ∈ g.registers.locals, l.register < Registers.limit) : g.LinkedTo outer := by
  refine ⟨?_, ?_, ?_, ?_, hregisters, ?_⟩
  · rw [hupvalues]
    exact h.env
  · rw [hupvalues]
    exact h.main
  · rw [hupvalues]
    exact h.distinct
  · rw [hupvalues]
    exact h.length_le
  · intro u upvalue hu hname
    rw [hupvalues] at hu
    obtain ⟨depth, r, hnearest, hleads⟩ := h.leads u upvalue hu hname
    refine ⟨depth, r, hnearest, ?_⟩
    cases hleads with
    | register hu => exact .register (hupvalues ▸ hu)
    | upvalue hu hrest => exact .upvalue (hupvalues ▸ hu) hrest

/-- A function without locals that has captured nothing but the globals. -/
theorem linkedTo_of_env (hupvalues : f.proto.upvalues = [⟨envName, outer.isEmpty, 0⟩])
    (hlocals : f.registers.locals = []) : f.LinkedTo outer := by
  refine ⟨?_, ?_, ?_, ?_, ?_, ?_⟩
  · simp [hupvalues]
  · simp [hupvalues]
  · simp [hupvalues]
  · simp [hupvalues, Build.upvalueLimit]
  · simp [hlocals]
  · intro u upvalue hu hname
    have hmem := List.mem_of_getElem? hu
    rw [hupvalues, List.mem_singleton] at hmem
    rw [hmem] at hname
    exact absurd rfl hname

theorem ChainStep.linked (h : ChainStep fs gs) (hfs : Linked fs) : Linked gs := by
  cases h with
  | enter f outer => exact ⟨linkedTo_of_env rfl rfl, hfs⟩
  | leave f outer => exact hfs.2
  | declare hr hbind =>
    cases hbind
    exact ⟨hfs.1.of_upvalues rfl (List.forall_mem_cons.mpr ⟨hr, hfs.1.register_lt⟩), hfs.2⟩
  | @resolve s t name place hplace =>
    by_cases hname : name = envName
    · subst hname
      obtain rfl := (yields_place?_env hfs).result hplace
      exact hfs
    · exact ((yields_place?_linked hname hfs).result hplace).1
  | @fail s t name e hplace =>
    by_cases hname : name = envName
    · subst hname
      exact ((yields_place?_env hfs).failure hplace).elim
    · exact ((yields_place?_linked hname hfs).failure hplace).linked
  | work hupvalues hlocals =>
    exact ⟨hfs.1.of_upvalues hupvalues (hlocals ▸ hfs.1.register_lt), hfs.2⟩

theorem ChainReachable.linked (h : ChainReachable fs) : Linked fs := by
  obtain ⟨source, hsteps⟩ := h
  induction hsteps with
  | refl => exact ⟨linkedTo_of_env rfl rfl, trivial⟩
  | tail _ hstep ih => exact hstep.linked ih

theorem keepsUpvalues_of_gained (h : List.Forall₂ Gained fs gs) : KeepsUpvalues fs gs := by
  intro i f g hf hg
  have hreverse := List.rel_reverse h
  obtain ⟨hi, rfl⟩ := List.getElem?_eq_some_iff.mp hf
  obtain ⟨hj, rfl⟩ := List.getElem?_eq_some_iff.mp hg
  obtain ⟨us, hus⟩ := hreverse.get hi hj
  refine ⟨us, ?_⟩
  exact (congrArg (fun f : OpenFunction ↦ f.proto.upvalues) hus).symm

theorem keepsUpvalues_of_innermost (h : f.proto.upvalues = g.proto.upvalues) :
    KeepsUpvalues (f :: outer) (g :: outer) := by
  intro i f' g' hf hg
  rw [List.reverse_cons] at hf hg
  rcases Nat.lt_or_ge i outer.reverse.length with hlt | hge
  · rw [List.getElem?_append_left hlt] at hf hg
    obtain rfl := Option.some.inj (hf.symm.trans hg)
    exact List.prefix_rfl
  · rw [List.getElem?_append_right hge, List.getElem?_singleton] at hf hg
    grind

theorem ChainStep.keepsUpvalues (h : ChainStep fs gs) : KeepsUpvalues fs gs := by
  cases h with
  | enter f outer =>
    intro i f' g' hf hg
    rw [List.reverse_cons, List.getElem?_append_left (List.getElem?_eq_some_iff.mp hf).1] at hg
    obtain rfl := Option.some.inj (hf.symm.trans hg)
    exact List.prefix_rfl
  | leave f outer =>
    intro i f' g' hf hg
    rw [List.reverse_cons, List.getElem?_append_left (List.getElem?_eq_some_iff.mp hg).1] at hf
    obtain rfl := Option.some.inj (hf.symm.trans hg)
    exact List.prefix_rfl
  | declare _ hbind =>
    cases hbind
    exact keepsUpvalues_of_innermost rfl
  | resolve hplace => exact keepsUpvalues_of_gained ((yields_place?_gained _ _).result hplace)
  | fail hplace => exact keepsUpvalues_of_gained ((yields_place?_gained _ _).failure hplace)
  | work hupvalues _ => exact keepsUpvalues_of_innermost hupvalues.symm

/-! ## Names and variables -/

/-- In every chain of open functions that can arise, a name means the nearest local of that name. A
second search finds the same place and adds nothing, and failing means full upvalues. -/
theorem place?_nearest_variable (s : Session) (hs : ChainReachable s.functions) (name : String)
    (hname : name ≠ envName) :
    Linked s.functions ∧ (∀ fs, ChainStep s.functions fs → KeepsUpvalues s.functions fs) ∧
    Yields (Lower.place? name) s
      (fun place t ↦ Designates name s.functions t.functions place ∧
        List.Forall₂ Gained s.functions t.functions ∧ Linked t.functions ∧
        Lower.place? name t = .ok place t)
      (fun e t ↦ e = .unimplemented .upvalueLimit ∧
        (∃ f ∈ t.functions, f.proto.upvalues.length = Build.upvalueLimit) ∧
        List.Forall₂ Gained s.functions t.functions ∧ Linked t.functions) := by
  refine ⟨hs.linked, fun fs hstep ↦ hstep.keepsUpvalues, ?_⟩
  have hgained := yields_place?_gained name s
  have hplace := yields_place?_linked hname hs.linked
  cases hrun : Lower.place? name s with
  | ok place t =>
    obtain ⟨hlinked, hdesignates, hagain⟩ := hplace.result hrun
    exact .of_ok hrun ⟨hdesignates, hgained.result hrun, hlinked, hagain⟩
  | error e t =>
    have hfull := hplace.failure hrun
    exact .of_error hrun ⟨hfull.failure, hfull.full, hgained.failure hrun, hfull.linked⟩

/-- A function captures the `x` of the main function through the one around it, which then declares
an `x` of its own. The next function there captures that one. -/
def shadowedCapture : Session where
  current := { proto := { upvalues := [⟨envName, false, 0⟩] } }
  enclosing := [
    { proto := { upvalues := [⟨envName, false, 0⟩, ⟨"x", true, 0⟩] }
      registers := { locals := [⟨"x", 0, false⟩], next := 1, high := 1 } },
    { proto := { isVararg := true, upvalues := [⟨envName, true, 0⟩] }
      registers := { locals := [⟨"x", 0, false⟩], next := 1, high := 1 } }]

theorem chainReachable_shadowedCapture : ChainReachable shadowedCapture.functions := by
  let main := OpenFunction.main none
  let declared : OpenFunction := (main.taken).binding "x" false
  let middle := declared.inside
  let capturing : OpenFunction := middle.capturing [⟨"x", true, 0⟩]
  let shadowing : OpenFunction := (capturing.taken).binding "x" false
  let inner := middle.inside.capturing [⟨"x", false, 1⟩]
  have hlimit : 0 < Registers.limit := by decide
  have hdeclare : Build.bindLocal "x" 0 false main.taken = .ok () declared := rfl
  have hshadow : Build.bindLocal "x" 0 false capturing.taken = .ok () shadowing := rfl
  have hplace : Lower.place? "x" ⟨middle.inside, [middle, declared], {}⟩ =
      .ok (some (.upvalue 1)) ⟨inner, [capturing, declared], {}⟩ := rfl
  refine ⟨none, ?_⟩
  calc Relation.ReflTransGen ChainStep [main] [main.taken] := .single (.work rfl rfl)
    Relation.ReflTransGen ChainStep _ [declared] := .single (.declare hlimit hdeclare)
    Relation.ReflTransGen ChainStep _ [middle, declared] := .single (.enter ..)
    Relation.ReflTransGen ChainStep _ [middle.inside, middle, declared] := .single (.enter ..)
    Relation.ReflTransGen ChainStep _ [inner, capturing, declared] := .single (.resolve hplace)
    Relation.ReflTransGen ChainStep _ [capturing, declared] := .single (.leave ..)
    Relation.ReflTransGen ChainStep _ [capturing.taken, declared] := .single (.work rfl rfl)
    Relation.ReflTransGen ChainStep _ [shadowing, declared] := .single (.declare hlimit hshadow)
    Relation.ReflTransGen ChainStep _ shadowedCapture.functions := .single (.enter ..)

theorem place?_nearest_variable_shadowedCapture :
    ChainReachable shadowedCapture.functions ∧ "x" ≠ envName ∧
    ∃ t, Lower.place? "x" shadowedCapture = .ok (some (.upvalue 1)) t ∧
      Leads "x" t.functions 1 1 0 ∧ Linked t.functions ∧
      Lower.place? "x" t = .ok (some (.upvalue 1)) t := by
  have hx : "x" ≠ envName := by decide
  refine ⟨chainReachable_shadowedCapture, hx, _, rfl, ?_⟩
  obtain ⟨hdesignates, _, hlinked, hagain⟩ :=
    (place?_nearest_variable shadowedCapture chainReachable_shadowedCapture "x" hx).2.2.result rfl
  have hnearest : nearest? "x" shadowedCapture.functions = some (1, 0) := rfl
  rw [Designates, hnearest] at hdesignates
  obtain ⟨u, hu, hleads⟩ := hdesignates
  cases hu
  exact ⟨hleads, hlinked, hagain⟩

end LuaLower
