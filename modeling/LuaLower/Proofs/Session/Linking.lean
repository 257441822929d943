import LuaLower.Proofs.Session.Resolution

/-!
# Upvalues and the variables they stand for

The description of an upvalue says where it is found in the function around: in a register, or among
the upvalues there. A chain of open functions is linked if the descriptions lead from each upvalue
to the nearest local of its name. Only the innermost function of a chain gains locals, so a link
that was right when it was made stays right.
-/

namespace LuaLower

open OpenFunction

variable {name : String} {f g parent : OpenFunction} {fs gs outer outer' : List OpenFunction}
  {u depth r : Nat}

/-- The nearest local of a name: how many functions further out it is, and its register. -/
def nearest? (name : String) : List OpenFunction → Option (Nat × Nat)
  | [] => none
  | f :: outer =>
    match f.local? name with
    | some l => some (0, l.register)
    | none => (nearest? name outer).map fun (depth, r) ↦ (depth + 1, r)

/-- The descriptions of upvalues lead from upvalue `u` of the first function to register `r` of the
one `depth` functions further out. All of them have the same name. -/
inductive Leads (name : String) : List OpenFunction → Nat → Nat → Nat → Prop
  | register {f : OpenFunction} {outer : List OpenFunction} {u : Nat} {index : UInt8} :
    f.proto.upvalues[u]? = some ⟨name, true, index⟩ → Leads name (f :: outer) u 1 index.toNat
  | upvalue {f : OpenFunction} {outer : List OpenFunction} {u depth r : Nat} {index : UInt8} :
    f.proto.upvalues[u]? = some ⟨name, false, index⟩ → Leads name outer index.toNat depth r →
    Leads name (f :: outer) u (depth + 1) r

/-- The upvalues of a function are right about the functions around it. -/
structure OpenFunction.LinkedTo (f : OpenFunction) (outer : List OpenFunction) : Prop where
  env : f.proto.upvalues[0]? = some ⟨envName, outer.isEmpty, 0⟩
  main : outer = [] → f.proto.upvalues.length = 1
  distinct : (f.proto.upvalues.map Upvalue.name).Nodup
  length_le : f.proto.upvalues.length ≤ Build.upvalueLimit
  register_lt : ∀ l ∈ f.registers.locals, l.register < Registers.limit
  leads : ∀ u upvalue, f.proto.upvalues[u]? = some upvalue → upvalue.name ≠ envName →
    ∃ depth r, nearest? upvalue.name outer = some (depth, r) ∧
      Leads upvalue.name (f :: outer) u (depth + 1) r

def Linked : List OpenFunction → Prop
  | [] => True
  | f :: outer => f.LinkedTo outer ∧ Linked outer

theorem nearest?_of_local (outer : List OpenFunction) {l : Local} (h : f.local? name = some l) :
    nearest? name (f :: outer) = some (0, l.register) := by
  simp [nearest?, h]

theorem nearest?_of_none (outer : List OpenFunction) (h : f.local? name = none) :
    nearest? name (f :: outer) = (nearest? name outer).map fun (depth, r) ↦ (depth + 1, r) := by
  simp [nearest?, h]

/-! ## More upvalues -/

theorem OpenFunction.Gained.local?_eq (h : Gained f g) : g.local? = f.local? := by
  funext x
  rw [OpenFunction.local?, h.registers, OpenFunction.local?]

theorem OpenFunction.Gained.upvalue (h : Gained f g) {upvalue : Upvalue}
    (hu : f.proto.upvalues[u]? = some upvalue) : g.proto.upvalues[u]? = some upvalue := by
  obtain ⟨us, rfl⟩ := h
  rw [← hu]
  exact List.getElem?_append_left (List.getElem?_eq_some_iff.mp hu).1

theorem nearest?_gained (h : List.Forall₂ Gained fs gs) : nearest? name gs = nearest? name fs := by
  induction h with
  | nil => rfl
  | cons hf _ ih => rw [nearest?, nearest?, hf.local?_eq, ih]

theorem Leads.gained (h : Leads name fs u depth r) (hfs : List.Forall₂ Gained fs gs) :
    Leads name gs u depth r := by
  induction h generalizing gs with
  | register hu =>
    cases hfs with
    | cons hf _ => exact .register (hf.upvalue hu)
  | upvalue hu _ ih =>
    cases hfs with
    | cons hf houter => exact .upvalue (hf.upvalue hu) (ih houter)

theorem OpenFunction.LinkedTo.gained (h : f.LinkedTo outer)
    (houter : List.Forall₂ Gained outer outer') :
    f.LinkedTo outer' := by
  have hempty : outer'.isEmpty = outer.isEmpty := by
    cases houter <;> rfl
  refine { h with env := ?_, main := ?_, leads := ?_ }
  · rw [hempty]
    exact h.env
  · intro hmain
    apply h.main
    rwa [← List.isEmpty_iff, ← hempty, List.isEmpty_iff]
  · intro u upvalue hu hname
    obtain ⟨depth, r, hnearest, hleads⟩ := h.leads u upvalue hu hname
    refine ⟨depth, r, ?_, hleads.gained (.cons (.refl f) houter)⟩
    rw [nearest?_gained houter]
    exact hnearest

/-- A new upvalue leads to the nearest local of its name if its description is right. -/
theorem OpenFunction.LinkedTo.capturing {upvalue : Upvalue} (h : f.LinkedTo outer)
    (houter : outer ≠ []) (hnew : f.upvalueIndex? upvalue.name = none)
    (hlength : f.proto.upvalues.length < Build.upvalueLimit)
    (hnearest : nearest? upvalue.name outer = some (depth, r))
    (hleads : Leads upvalue.name (f.capturing [upvalue] :: outer) f.proto.upvalues.length
      (depth + 1) r) :
    (f.capturing [upvalue]).LinkedTo outer := by
  have hgained : Gained f (f.capturing [upvalue]) := ⟨_, rfl⟩
  have hupvalues : (f.capturing [upvalue]).proto.upvalues = f.proto.upvalues ++ [upvalue] := rfl
  refine ⟨hgained.upvalue h.env, fun hmain ↦ absurd hmain houter, ?_, ?_, h.register_lt, ?_⟩
  · have hnotMem : upvalue.name ∉ f.proto.upvalues.map Upvalue.name := by
      simpa [upvalueIndex?, List.findIdx?_eq_none_iff] using hnew
    rw [hupvalues, List.map_append]
    refine List.nodup_append.mpr ⟨h.distinct, by simp, ?_⟩
    rintro x hx y hy rfl
    obtain rfl : x = upvalue.name := by simpa using hy
    exact hnotMem hx
  · rw [hupvalues, List.length_append]
    exact hlength
  · intro v other hv hname
    rcases Nat.lt_or_ge v f.proto.upvalues.length with hlt | hge
    · rw [hupvalues, List.getElem?_append_left hlt] at hv
      obtain ⟨depth, r, hnearest, hleads⟩ := h.leads v other hv hname
      exact ⟨depth, r, hnearest, hleads.gained (.cons hgained (forall₂_gained_refl outer))⟩
    · obtain ⟨rfl, rfl⟩ : v = f.proto.upvalues.length ∧ upvalue = other := by
        rw [hupvalues, List.getElem?_append_right hge] at hv
        obtain ⟨hlt, hother⟩ := List.getElem?_eq_some_iff.mp hv
        have hv' : v - f.proto.upvalues.length = 0 := by simpa using hlt
        exact ⟨by omega, by simpa [hv'] using hother⟩
      exact ⟨depth, r, hnearest, hleads⟩

/-! ## Capturing -/

/-- The answer to a search for a variable in the functions around `f`. -/
inductive Chain.Captured (name : String) (f : OpenFunction) (outer : List OpenFunction) :
    Option Nat → Chain → Prop
  | missing : nearest? name outer = none → Captured name f outer none (f, outer)
  | found {u depth r : Nat} {chain : Chain} : chain.1.upvalueIndex? name = some u →
    nearest? name outer = some (depth, r) → Leads name (chain.1 :: chain.2) u (depth + 1) r →
    Captured name f outer (some u) chain

/-- What is left of a chain if a search fails, which happens only when a function is full. -/
structure Chain.Full (e : Failure) (chain : Chain) : Prop where
  linked : Linked (chain.1 :: chain.2)
  failure : e = .unimplemented .upvalueLimit
  full : ∃ g ∈ chain.1 :: chain.2, g.proto.upvalues.length = Build.upvalueLimit

theorem OpenFunction.LinkedTo.upvalueIndex?_env (h : f.LinkedTo outer) :
    f.upvalueIndex? envName = some 0 := by
  have henv := h.env
  cases hus : f.proto.upvalues with
  | nil => simp [hus] at henv
  | cons upvalue us =>
    obtain rfl : upvalue = ⟨envName, outer.isEmpty, 0⟩ := by simpa [hus] using henv
    simp [upvalueIndex?, hus, List.findIdx?_cons]

theorem captured_of_index (hf : f.LinkedTo outer) (hname : name ≠ envName)
    (hindex : f.upvalueIndex? name = some u) : Chain.Captured name f outer (some u) (f, outer) := by
  obtain ⟨upvalue, hu, rfl⟩ := Option.map_eq_some_iff.mp (upvalueNamed_of_index hindex)
  obtain ⟨depth, r, hnearest, hleads⟩ := hf.leads u upvalue hu hname
  exact .found hindex hnearest hleads

/-- Adding the upvalue for which a place has been found. -/
theorem yields_newUpvalue_linked {inStack : Bool} {index : Nat} (hf : f.LinkedTo outer)
    (houter : Linked outer) (hne : outer ≠ []) (hnew : f.upvalueIndex? name = none)
    (hnearest : nearest? name outer = some (depth, r))
    (hleads : ∀ g : OpenFunction, g.proto.upvalues[u]? = some ⟨name, inStack, UInt8.ofNat index⟩ →
      Leads name (g :: outer) u (depth + 1) r) (hu : u = f.proto.upvalues.length) :
    Yields (fun c : Chain ↦ c.newUpvalue name inStack index) (f, outer)
      (fun v c ↦ v = some u ∧ Linked (c.1 :: c.2) ∧ c.2 = outer ∧ c.1.upvalueIndex? name = some u ∧
        Leads name (c.1 :: outer) u (depth + 1) r)
      (fun e c ↦ Chain.Full e c) := by
  subst hu
  by_cases hlength : f.proto.upvalues.length < Build.upvalueLimit
  · have hlast := hleads (f.capturing [⟨name, inStack, UInt8.ofNat index⟩]) (by simp [capturing])
    refine .of_ok (Chain.newUpvalue_of_lt hlength) ⟨rfl, ⟨?_, houter⟩, rfl, ?_, hlast⟩
    · exact hf.capturing hne hnew hlength hnearest hlast
    · have hnone : f.proto.upvalues.findIdx? (fun u ↦ u.name == name) = none := hnew
      simp [upvalueIndex?, capturing, List.findIdx?_append, hnone]
  · have hfull := Nat.not_lt.mp hlength
    refine .of_error (Chain.newUpvalue_of_le hfull) ⟨⟨hf, houter⟩, rfl, f, List.mem_cons_self, ?_⟩
    exact Nat.le_antisymm hf.length_le hfull

/-- The variable is a local of the next function, which is captured from its register. -/
theorem yields_capture_local {l : Local} (hf : f.LinkedTo (parent :: outer))
    (hparent : Linked (parent :: outer)) (hindex : f.upvalueIndex? name = none)
    (hlocal : parent.local? name = some l) :
    Yields (fun c : Chain ↦ capture name c.1 c.2) (f, parent :: outer)
      (fun u c ↦ Linked (c.1 :: c.2) ∧ Chain.Captured name f (parent :: outer) u c)
      (fun e c ↦ Chain.Full e c) := by
  have hregister : l.register < Registers.limit :=
    hparent.1.register_lt l (List.mem_of_find?_eq_some hlocal)
  have hindexed : (UInt8.ofNat l.register).toNat = l.register :=
    UInt8.toNat_ofNat_of_lt (hregister.trans (by decide))
  have hnearest := nearest?_of_local outer hlocal
  refine ((yields_newUpvalue_linked hf hparent (List.cons_ne_nil _ _) hindex hnearest ?_ rfl).of_eq
    (capture_of_local outer hindex hlocal)).mono ?_ (fun _ _ h ↦ h)
  · intro g hg
    rw [← hindexed]
    exact .register hg
  · rintro _ c ⟨rfl, hc, hchain, hindex, hleads⟩
    exact ⟨hc, .found hindex hnearest (hchain ▸ hleads)⟩

/-- The variable is one of a function further out, which the next function has captured. -/
theorem yields_capture_found {v : Nat} {c : Chain} (hf : f.LinkedTo (parent :: outer))
    (hindex : f.upvalueIndex? name = none) (hlocal : parent.local? name = none)
    (hrun : capture name parent outer = .ok (some v) c) (hlinked : Linked (c.1 :: c.2))
    (hgained : List.Forall₂ Gained (parent :: outer) (c.1 :: c.2))
    (hv : c.1.upvalueIndex? name = some v) (hnearest : nearest? name outer = some (depth, r))
    (hleads : Leads name (c.1 :: c.2) v (depth + 1) r) :
    Yields (fun c : Chain ↦ capture name c.1 c.2) (f, parent :: outer)
      (fun u c ↦ Linked (c.1 :: c.2) ∧ Chain.Captured name f (parent :: outer) u c)
      (fun e c ↦ Chain.Full e c) := by
  have hlt : v < 256 := by
    have hlength := hlinked.1.length_le
    have hv := upvalueIndex?_lt hv
    rw [Build.upvalueLimit] at hlength
    omega
  have hindexed : (UInt8.ofNat v).toNat = v := UInt8.toNat_ofNat_of_lt hlt
  have hnearest' : nearest? name (parent :: outer) = some (depth + 1, r) := by
    rw [nearest?_of_none outer hlocal, hnearest]
    rfl
  refine ((yields_newUpvalue_linked (hf.gained hgained) hlinked (List.cons_ne_nil _ _) hindex
    ((nearest?_gained hgained).trans hnearest') ?_ rfl).of_eq
      (capture_of_found hindex hlocal hrun)).mono ?_ (fun _ _ h ↦ h)
  · intro g hg
    rw [← hindexed] at hleads
    exact .upvalue hg hleads
  · rintro _ c' ⟨rfl, hc', hchain, hindex, hleads⟩
    exact ⟨hc', .found hindex hnearest' (hchain ▸ hleads)⟩

theorem yields_capture_linked (hname : name ≠ envName) (h : Linked (f :: outer)) :
    Yields (fun c : Chain ↦ capture name c.1 c.2) (f, outer)
      (fun u c ↦ Linked (c.1 :: c.2) ∧ Chain.Captured name f outer u c)
      (fun e c ↦ Chain.Full e c) := by
  induction outer generalizing f with
  | nil =>
    -- The only upvalue of the main function is that of the globals.
    have hindex : f.upvalueIndex? name = none := by
      obtain ⟨upvalue, hus⟩ := List.length_eq_one_iff.mp (h.1.main rfl)
      obtain rfl : upvalue = ⟨envName, true, 0⟩ := by simpa [hus] using h.1.env
      simp [upvalueIndex?, hus, hname.symm]
    exact .of_ok (a := none) (t := (f, [])) (by simp [capture, hindex]) ⟨h, .missing rfl⟩
  | cons parent outer ih =>
    obtain ⟨hf, hparent⟩ := h
    cases hindex : f.upvalueIndex? name with
    | some u =>
      refine .of_ok (capture_of_index _ hindex) ⟨⟨hf, hparent⟩, ?_⟩
      exact captured_of_index hf hname hindex
    | none =>
      cases hlocal : parent.local? name with
      | some l => exact yields_capture_local hf hparent hindex hlocal
      | none =>
        have hresolved := yields_capture name parent outer
        cases hrun : capture name parent outer with
        | error e c =>
          have hc := hresolved.failure hrun
          obtain ⟨hlinked, hfailure, g, hg, hlength⟩ := (ih hparent).failure hrun
          refine .of_error (capture_of_error hindex hlocal hrun)
            ⟨⟨?_, hlinked⟩, hfailure, g, ?_, hlength⟩
          · exact hf.gained (.cons hc.innermost hc.enclosing)
          · exact List.mem_cons_of_mem f hg
        | ok v c =>
          have hc := (hresolved.result hrun).1
          obtain ⟨hlinked, hcaptured⟩ := (ih hparent).result hrun
          cases hcaptured with
          | missing hnone =>
            refine .of_ok (capture_of_none hindex hlocal hrun) ⟨⟨hf, hparent⟩, .missing ?_⟩
            rw [nearest?_of_none outer hlocal, hnone]
            rfl
          | found hv hnearest hleads =>
            exact yields_capture_found hf hindex hlocal hrun hlinked
              (.cons hc.innermost hc.enclosing) hv hnearest hleads

end LuaLower
