import LuaLower.Proofs.Lowering.Visits
import LuaLower.Proofs.OperandValidity
import LuaLower.Proofs.Supply.Session

/-!
# Nested functions are supplied

A function starts with its parameters written and captures locals of the function around it, which
have been written when the closure is made. Of the variables that it sets, those that are found in
registers are locals that may be assigned, and the others are upvalues around it that may be set.
-/

namespace LuaLower

open OpenFunction Build

variable {types : TypeOracle} {W : Nat → Prop} {U : String → Prop} {f g parent : OpenFunction}
  {outer : List OpenFunction} {s t u w : Session}

/-! ## Statements -/

/-- Locals of the given names may be written, even constant ones. -/
def Session.MayDeclare (W : Nat → Prop) (names : List String) (s : Session) : Prop :=
  ∀ name ∈ names, ∀ l, s.current.local? name = some l → W l.register

def Settles (W : Nat → Prop) (U : String → Prop) (step : Lower Unit) (s : Session) : Prop :=
  s.Ready → s.Settled → Yields step s (fun _ t ↦ (s.Follows t ∧ t.Ready ∧ t.Settled) ∧
    s.current.Supplied W U 0 false t.current) fun _ _ ↦ True

/-- A step from one settled session to another that declares the given names. -/
def SuppliesStatement (step : Lower Unit) (names : List String) : Prop :=
  ∀ W U s, s.Allows W U → s.MayDeclare W names → Settles W U step s

/-! ## Closing -/

/-- What is known of a function that was compiled from its parameters on. -/
theorem OpenFunction.Supplied.readsWritten {n : Nat} (hf : Fresh n f)
    (h : f.Supplied W U 0 false g) (hparams : g.proto.numParams.toNat = n) :
    ∀ q, g.close.Contains q → q.ReadsWritten := by
  obtain ⟨is, his, _, hcarries⟩ := h.code
  refine Prototype.forall_contains ?_ fun c hc ↦ ?_
  · have hcode : g.close.code = (is ++ [Instruction.abc .ret 0 1 0]).toArray := by
      simp [close, his, emit, hf.code]
    have hknown (r : Nat) (hr : f.Known 0 r) : r < g.close.numParams.toNat := by
      show r < g.proto.numParams.toNat
      have hnumLocals := hf.numLocals
      have hnext := hf.next
      rcases hr with hr | ⟨_, hr⟩ <;> omega
    have hbody := hcarries g.proto.children _ List.prefix_rfl hknown
    refine Prototype.readsWritten_of_carries hcode
      (hbody.append (.plain rfl ?_ fun _ r hr ↦ .inl hr))
    rintro top r ⟨_, hlt⟩
    simp at hlt
  · rcases h.nested c hc with hc | hc
    · simp [hf.children] at hc
    · exact hc.readsWritten

theorem OpenFunction.Supplied.sets {n v : Nat} (hf : Fresh n f) (h : f.Supplied W U 0 false g)
    (hv : g.close.Sets v) : g.CanSet U v := by
  obtain ⟨is, his, hobeys, _⟩ := h.code
  cases hv with
  | here hi hsets =>
    have hi : _ ∈ g.proto.code.push (.abc .ret 0 1 0) := hi
    rcases Array.mem_push.mp hi with hi | rfl
    · refine (hobeys _ ?_).sets v hsets
      simpa [his, emit, hf.code] using hi
    · cases hsets
  | nested hc hsets hupvalue hstack =>
    rcases h.nested _ hc with hc | hc
    · simp [hf.children] at hc
    · have hset := hc.sets _ _ hsets hupvalue
      rw [hstack] at hset
      exact hset

/-! ## Captured variables -/

theorem Leads.upvalueNamed {name : String} {i depth r : Nat}
    (h : Leads name (f :: outer) i depth r) :
    f.UpvalueNamed i name ∧ 0 < depth := by
  cases h with
  | register hi => exact ⟨by rw [UpvalueNamed, hi]; rfl, Nat.one_pos⟩
  | upvalue hi _ => exact ⟨by rw [UpvalueNamed, hi]; rfl, Nat.succ_pos _⟩

/-- An upvalue of a nested function is a local of the function around it, or an upvalue there if
there is no such local. -/
theorem Linked.upvalue_cases {i : Nat} {upvalue : Upvalue} (h : Linked (f :: parent :: outer))
    (hi : f.proto.upvalues[i]? = some upvalue) :
    (upvalue.inStack = true ∧ upvalue.name ≠ envName ∧
      ∃ l, parent.local? upvalue.name = some l ∧ l.register = upvalue.index.toNat) ∨
    (upvalue.inStack = false ∧ parent.UpvalueNamed upvalue.index.toNat upvalue.name ∧
      (upvalue.name = envName ∨ parent.local? upvalue.name = none)) := by
  obtain ⟨hf, hparent, -⟩ := h
  obtain ⟨name, inStack, index⟩ := upvalue
  by_cases hname : name = envName
  · -- Only the first upvalue has the name of the table of globals.
    subst hname
    have hlt := (List.getElem?_eq_some_iff.mp hi).1
    obtain rfl : i = 0 := by
      refine (List.getElem?_inj (by simpa using hlt) hf.distinct).mp ?_
      rw [List.getElem?_map, List.getElem?_map, hi, hf.env]
      rfl
    cases hf.env.symm.trans hi
    have henv : parent.UpvalueNamed 0 envName := by
      rw [UpvalueNamed, hparent.env]
      rfl
    exact .inr ⟨rfl, henv, .inl rfl⟩
  · obtain ⟨depth, r, hnearest, hleads⟩ := hf.leads i _ hi hname
    generalize hd : depth + 1 = d at hleads
    cases hleads with
    | register hu =>
      cases hu.symm.trans hi
      obtain rfl : depth = 0 := Nat.succ.inj hd
      cases hlocal : parent.local? name with
      | some l =>
        rw [nearest?_of_local outer hlocal] at hnearest
        exact .inl ⟨rfl, hname, l, rfl, (Prod.mk.inj (Option.some.inj hnearest)).2⟩
      | none =>
        rw [nearest?_of_none outer hlocal] at hnearest
        obtain ⟨_, _, h⟩ := Option.map_eq_some_iff.mp hnearest
        cases h
    | upvalue hu hleads =>
      cases hu.symm.trans hi
      obtain ⟨hnamed, hpos⟩ := hleads.upvalueNamed
      refine .inr ⟨rfl, hnamed, .inr ?_⟩
      cases hlocal : parent.local? name with
      | some l =>
        rw [nearest?_of_local outer hlocal] at hnearest
        cases hnearest
        omega
      | none => rfl

/-! ## Functions -/

/-- What a closure adds to the function that makes it. -/
theorem closure_eq_ok {p : Prototype} {v : Value} (h : Build.closure p f = .ok v g) :
    g.proto = { f.proto with
      children := f.proto.children ++ [p]
      code := f.proto.code.push (.abx .closure f.registers.next f.proto.children.length) } := by
  have hattach : attach p f = .ok f.proto.children.length (f.adopting p) := rfl
  rw [Build.closure, bind_of_ok hattach] at h
  obtain ⟨r, k, htake, h⟩ := bind_eq_ok h
  rw [takeRegister, get_bind] at htake
  split at htake <;> cases htake
  cases h
  rfl

/-- The session in which the body of a nested function is lowered allows all that it does to its own
locals, and to others only what the functions around it allow. -/
theorem allows_of_openBody {params : List String} {body : List Stmt} (hs : Linked s.functions)
    (hopen : Lower.openBody params body s.entered = .ok () t) :
    t.Allows (fun _ ↦ True) (Assignable s.functions) where
  linked := (Session.around_of_openBody hopen).linked hs
  free _ _ := trivial
  assigned _ _ _ _ := trivial
  upvalue name hname := by rwa [(opened_of_openBody hopen).enclosing] at hname

theorem gained_of_body {params : List String} {body : List Stmt}
    (hopen : Lower.openBody params body s.entered = .ok () t)
    (hrun : Lower.statements types body t = .ok () u) (hparent : u.enclosing = parent :: outer) :
    Gained s.current parent := by
  have henclosing := ((Task.statements body).steady types t |>.result hrun).enclosing
  rw [(opened_of_openBody hopen).enclosing, hparent, Session.functions] at henclosing
  exact (List.forall₂_cons.mp henclosing).1

/-- A nested function whose body is supplied may be adopted by the function around it. -/
theorem adopts_function {params : List String} {body : List Stmt} {names : List String}
    (hbody : SuppliesStatement (Lower.statements types body) names) (hs : s.Allows W U)
    (hready : s.Ready) (hopen : Lower.openBody params body s.entered = .ok () t)
    (hrun : Lower.statements types body t = .ok () u) (hparent : u.enclosing = parent :: outer) :
    parent.Adopts W U u.current.close := by
  have hopened := opened_of_openBody hopen
  have hallows := allows_of_openBody hs.linked hopen
  have hsettled := hopened.settled hready.owners
  obtain ⟨⟨hfollows, -⟩, hsupplied⟩ :=
    (hbody _ _ t hallows (fun _ _ _ _ ↦ trivial) hsettled.1 hsettled.2).result hrun
  have hlinked : Linked (u.current :: parent :: outer) := hparent ▸ hfollows.linked hallows.linked
  have hgained := gained_of_body hopen hrun hparent
  have hgrows := (proceeds_statements types closesTo_trivial.block body 0 t hsettled.1 hsettled.2
    (Nat.zero_le _)).result hrun
  have hparams := (hgrows.1.current.sound hopened.fresh.sound).numParams
  have htidy : parent.registers.Tidy := hgained.registers ▸ hready.tidy
  refine ⟨hsupplied.readsWritten hopened.fresh hparams, fun upvalue hu hstack ↦ ?_,
    fun i upvalue hsets hi ↦ ?_⟩
  · obtain ⟨i, hlt, rfl⟩ := List.getElem_of_mem hu
    rcases hlinked.upvalue_cases (List.getElem?_eq_getElem hlt) with
      ⟨_, _, l, hl, hr⟩ | ⟨hpassed, _⟩
    · exact hr ▸ htidy.find?_lt hl
    · cases hstack.symm.trans hpassed
  · obtain ⟨y, hy, hassignable⟩ := hsupplied.sets hopened.fresh hsets
    obtain rfl : upvalue.name = y := by
      have hi : u.current.proto.upvalues[i]? = some upvalue := hi
      rw [UpvalueNamed, hi] at hy
      exact Option.some.inj hy
    rw [Assignable, Session.functions, List.findSome?_cons, ← hgained.local?_eq] at hassignable
    rcases hlinked.upvalue_cases hi with ⟨hstack, hname, l, hl, hr⟩ | ⟨hpassed, hnamed, hlocal⟩
    · rw [hl] at hassignable
      rw [hgained.local?_eq] at hl
      rw [hstack, if_pos rfl, ← hr]
      exact hs.assigned _ l hl (hassignable.resolve_left hname)
    · rw [hpassed, if_neg Bool.false_ne_true]
      refine ⟨_, hnamed, hs.upvalue _ ?_⟩
      rcases hlocal with hname | hlocal
      · exact .inl hname
      · rwa [hlocal] at hassignable

/-- A closure reads the locals that the function captures. -/
theorem supplied_closure {p : Prototype} (hfg : f.Developed g) (hp : g.Adopts W U p)
    (hlocals : g.registers.numLocals = f.registers.numLocals) (hW : W f.registers.next)
    (hchildren : g.proto.children = f.proto.children ++ [p])
    (hcode : g.proto.code =
      (f.emit [.abx .closure f.registers.next f.proto.children.length]).proto.code)
    (hnext : g.registers.next = f.registers.next + 1) :
    f.Supplied W U f.registers.next false g := by
  refine ⟨hfg, fun c hc ↦ ?_, _, hcode, List.forall_mem_singleton.mpr
    (.of_not_sets ?_ fun _ ↦ rfl), ?_⟩
  · rw [hchildren, List.mem_append, List.mem_singleton] at hc
    rcases hc with hc | rfl
    · exact .inl hc
    · exact .inr hp
  · simpa [Instruction.writes] using hW
  · intro cs A hcs hA
    refine .plain rfl ?_ ?_
    · rintro top r ⟨-, c, hc, upvalue, hupvalue, hstack, rfl⟩
      obtain rfl : c = p := by
        obtain ⟨ds, rfl⟩ := hcs
        rw [hchildren, List.append_assoc, List.getElem?_append_right (le_refl _)] at hc
        simpa using hc.symm
      exact hA _ (.inl ((hp.captured upvalue hupvalue hstack).trans_eq hlocals))
    · rintro top r (hr | hr | ⟨hr, hlt⟩)
      · exact .inl hr
      · exact .inl (hA r (.inl (hr.trans_eq hlocals)))
      · exact .inr ⟨.inr (.inr rfl), by omega⟩

/-- A step that makes a closure is supplied if the body of the function is. -/
theorem suppliesValue_function {body : List Stmt} {names : List String}
    (hbody : SuppliesStatement (Lower.statements types body) names) (params : List String) :
    SuppliesValue ((Task.function params body).lower types) := by
  intro W U s hs
  have hlowers : Lowers (fun _ _ ↦ True) 0 ((Task.function params body).lower types) s _ _ :=
    (translates_function (W := fun _ ↦ True) closesTo_trivial.block
      (fun t ↦ proceeds_body (proceeds_statements types closesTo_trivial.block body))
      trivial).lowers
  intro hready
  cases hrun : (Task.function params body).lower types s with
  | error e w => exact .of_error hrun trivial
  | ok v w =>
    obtain ⟨hst, rfl, hnext⟩ := (hlowers hready (Nat.zero_le _)).result hrun
    have hstays := (Lower.still_function types params body s).result hrun
    refine .of_ok hrun ⟨⟨hstays, hst.ready hready, hst.within⟩, ?_, .inr ⟨rfl, hnext⟩⟩
    obtain ⟨t, u, hopen, hinside⟩ := function_eq_ok hrun
    obtain ⟨parent, outer, hparent, hclosure⟩ := inFunction_eq_ok hopen hinside hrun
    have hgained := gained_of_body hopen hinside hparent
    have hadopts := adopts_function hbody hs hready hopen hinside hparent
    have hproto := closure_eq_ok (Lower.onCurrent_eq_ok hclosure).1
    have hafter : parent.SameVariables (parent.afterNested u.current) := ⟨rfl, rfl, rfl⟩
    have hdeveloped : parent.Developed w.current :=
      hafter.developed.trans ((Lower.still_closure _ _).result hclosure).current
    obtain ⟨us, rfl⟩ := hgained
    refine supplied_closure hstays.current (hadopts.developed hdeveloped) hstays.numLocals_eq
      (hs.next hready) ?_ ?_ hnext
    · rw [hproto]
      rfl
    · rw [hproto]
      exact Array.push_eq_append

end LuaLower
