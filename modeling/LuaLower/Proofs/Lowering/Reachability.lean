import LuaLower.Proofs.Lowering.Continuation
import LuaLower.Proofs.Recovery

/-!
# Reachable sessions

Bodies are lowered one after the other in one session, and a body that fails leaves its traces
there. A session is reachable if something is lowered from it in the course of that. Then the
upvalues are right and no field access is under way.

Registers can be taken and released as on a stack where they are in order. A failure may leave them
out of order for the bodies after it. Without one they are in order all along, since what is out of
order anywhere is out of order at the end.
-/

namespace LuaLower

open OpenFunction Build

variable {types : TypeOracle} {options : Options} {program : List Stmt} {α β : Type} {P : α → Prop}
  {Q : β → Prop} {task visited part : Task} {s t u : Session}

/-! ## What a step leaves behind -/

namespace Lower

variable {sizes : Nat → Prop} {b : Nat} {x : Lower α} {k : α → Lower β}

/-- The session after a step, whether it succeeds or fails. -/
def leaves (step : Lower α) (s : Session) : Session :=
  match step s with
  | .ok _ t | .error _ t => t

theorem leaves_of_ok {a : α} (h : x s = .ok a t) : x.leaves s = t := by
  rw [leaves, h]

theorem leaves_of_error {e : Failure} (h : x s = .error e t) : x.leaves s = t := by
  rw [leaves, h]

theorem leaves_bind_of_ok {a : α} (h : x s = .ok a t) : leaves (x >>= k) s = (k a).leaves t := by
  rw [leaves, bind_of_ok h, leaves]

theorem leaves_of_yields {R : Session → Prop} (h : Yields x s (fun _ t ↦ R t) (fun _ t ↦ R t)) :
    R (x.leaves s) := by
  cases hrun : x s with
  | ok a t => exact leaves_of_ok hrun ▸ h.result hrun
  | error e t => exact leaves_of_error hrun ▸ h.failure hrun

theorem Accretes.leaves (h : Accretes sizes b P x) (hs : s.Regular) (hb : b ≤ s.size) :
    s.current.Accretes sizes b (x.leaves s).current :=
  leaves_of_yields (R := fun t ↦ s.current.Accretes sizes b t.current)
    ((h s hs hb).mono (fun _ _ hst ↦ hst.1) fun _ _ hst ↦ hst)

/-- Registers that are in order at the end were in order after the first of two steps. -/
theorem inOrder_of_bind (hsteady : x.Steady) (hx : Accretes sizes 0 P x)
    (hk : ∀ a, P a → Accretes sizes 0 Q (k a)) (hs : s.Regular)
    (h : (leaves (x >>= k) s).inOrder = true) : (x.leaves s).inOrder = true := by
  cases hrun : x s with
  | ok a t =>
    rw [leaves_bind_of_ok hrun] at h
    obtain ⟨-, ha⟩ := (hx s hs (Nat.zero_le _)).result hrun
    have ht := ((hsteady s).result hrun).regular hs
    rw [leaves_of_ok hrun]
    exact ((hk a ha).leaves ht (Nat.zero_le _)).inOrder h
  | error e t =>
    rw [leaves_of_error (bind_of_error hrun)] at h
    rwa [leaves_of_error hrun]

/-- A function that is left out of order leaves the one around it out of order. -/
theorem inOrder_of_inFunction {step : Lower Unit} (hsteady : step.Steady)
    (h : ((inFunction step).leaves s).inOrder = true) :
    (step.leaves s.entered).inOrder = true := by
  have hclosed {t : Session} (ht : s.entered.Follows t) : ∃ parent outer,
      t.enclosing = parent :: outer := by
    obtain ⟨parent, outer, -, -, houter⟩ := List.forall₂_cons_left_iff.mp ht.enclosing
    exact ⟨parent, outer, houter⟩
  rw [leaves, inFunction] at h
  rw [leaves]
  have hfollows := hsteady s.entered
  rw [Session.entered] at hfollows ⊢
  cases hrun : step { s with current := s.current.inside, enclosing := s.functions } with
  | ok a t =>
    obtain ⟨parent, outer, houter⟩ := hclosed (hfollows.result hrun)
    simp only [hrun, houter] at h
    exact (Registers.note_inOrder_iff.mp h).2.1
  | error e t =>
    obtain ⟨parent, outer, houter⟩ := hclosed (hfollows.failure hrun)
    simp only [hrun, houter] at h
    exact (Registers.note_inOrder_iff.mp h).2.1

end Lower

/-! ## From a session to those that it leads to -/

abbrev Task.Sound (task : Task) : Prop := task.Admissible fun _ ↦ True

/-- What a function hands on to a later state of itself, and to the functions nested in it. -/
structure Session.Leads (s u : Session) : Prop where
  source : u.current.proto.source = s.current.proto.source
  orderly : s.current.registers.Orderly → u.current.registers.Orderly

namespace Session.Leads

theorem of_accretes {sizes : Nat → Prop} {b : Nat} (h : s.current.Accretes sizes b t.current) :
    s.Leads t :=
  ⟨h.source, h.orderly⟩

theorem trans (hst : s.Leads t) (htu : t.Leads u) : s.Leads u :=
  ⟨htu.source.trans hst.source, fun hs ↦ htu.orderly (hst.orderly hs)⟩

theorem of_openBody {params : List String} {body : List Stmt} (hs : s.Regular)
    (h : Lower.openBody params body s.entered = .ok () t) : s.Leads t := by
  have hentered : s.entered.Regular :=
    ⟨ChainStep.linked (.enter s.current s.enclosing) hs.linked, hs.owners⟩
  have hopen : Lower.Accretive (fun _ ↦ True) 0 (Lower.openBody params body) :=
    Lower.accretive_openBody params body
  obtain ⟨haccretes, -⟩ := (hopen s.entered hentered (Nat.zero_le _)).result h
  exact ⟨haccretes.source, fun _ _ ↦ (opened_of_openBody h).fresh.tidy⟩

end Session.Leads

theorem Session.Around.regular (h : s.Around u) (hs : s.Regular) : u.Regular :=
  ⟨h.linked hs.linked, h.owners.trans hs.owners⟩

theorem Plan.Accretes.lowers {sizes : Nat → Prop} {b : Nat} {plan : Plan α}
    (h : plan.Accretes sizes b P) (types : TypeOracle) :
    Lower.Accretes sizes b P (plan.run types) :=
  h.run (Plan.allParts_of_forall (fun task b htask ↦ task.accretes types b htask) trivial plan)

theorem Plan.Meets.leads {plan : Plan α} (h : plan.Meets types s part u)
    (hplan : plan.Accretes (fun _ ↦ True) 0 P) (hs : s.Regular) : part.Sound ∧ s.Leads u := by
  induction h with
  | part task rest s =>
    cases hplan with
    | part htask _ => exact ⟨htask, rfl, id⟩
  | @afterPart task _ _ s t _ _ hfirst _ ih =>
    cases hplan with
    | part htask hrest =>
      obtain ⟨hst, hc⟩ := (task.accretes types 0 htask s hs (Nat.zero_le _)).result hfirst
      have ht := ((task.steady types s).result hfirst).regular hs
      obtain ⟨hpart, htu⟩ := ih (hrest _ hc) ht
      exact ⟨hpart, .trans (.of_accretes hst) htu⟩
  | @afterStep _ x still _ _ s t _ _ hfirst _ ih =>
    cases hplan with
    | step hx hrest =>
      obtain ⟨hst, hc⟩ := (hx s hs (Nat.zero_le _)).result hfirst
      have ht := ((still s).result hfirst).toFollows.regular hs
      obtain ⟨hpart, htu⟩ := ih (hrest _ hc) ht
      exact ⟨hpart, .trans (.of_accretes hst) htu⟩
  | body hopen =>
    cases hplan with
    | enter hbody _ => exact ⟨hbody, .of_openBody hs hopen⟩

/-- What happens to the registers in a part of a plan is seen at the end of the plan. -/
theorem Plan.Meets.inOrder {plan : Plan α} (h : plan.Meets types s part u)
    (hplan : plan.Accretes (fun _ ↦ True) 0 P) (hs : s.Regular)
    (hend : ((plan.run types).leaves s).inOrder = true) :
    ((part.lower types).leaves u).inOrder = true := by
  induction h with
  | part task rest s =>
    cases hplan with
    | part htask hrest =>
      exact Lower.inOrder_of_bind (task.steady types) (task.accretes types 0 htask)
        (fun c hc ↦ (hrest c hc).lowers types) hs hend
  | @afterPart task _ _ s t _ _ hfirst _ ih =>
    cases hplan with
    | part htask hrest =>
      obtain ⟨-, hc⟩ := (task.accretes types 0 htask s hs (Nat.zero_le _)).result hfirst
      rw [Plan.run, Lower.leaves_bind_of_ok hfirst] at hend
      exact ih (hrest _ hc) (((task.steady types s).result hfirst).regular hs) hend
  | @afterStep _ x still _ _ s t _ _ hfirst _ ih =>
    cases hplan with
    | step hx hrest =>
      obtain ⟨-, hc⟩ := (hx s hs (Nat.zero_le _)).result hfirst
      rw [Plan.run, Lower.leaves_bind_of_ok hfirst] at hend
      exact ih (hrest _ hc) (((still s).result hfirst).toFollows.regular hs) hend
  | @body params body rest s t hopen =>
    cases hplan with
    | enter hbody hrest =>
      have hstatements : Lower.Accretive (fun _ ↦ True) 0 (Lower.statements types body) :=
        (Task.statements body).accretes types 0 hbody
      have hsteady := Lower.steady_nestedBody types params body
      have hfunction := Lower.inOrder_of_bind (Lower.still_function types params body).steady
        (Lower.accretes_function params hstatements) (fun v hv ↦ (hrest v hv).lowers types) hs hend
      rw [Lower.function_eq] at hfunction
      have hclosed := Lower.inOrder_of_bind (Lower.still_inFunction hsteady).steady
        (Lower.accretes_closedBody params hstatements)
        (fun p hp ↦ .onCurrent (accretes_closure hp)) hs hfunction
      have hbody := Lower.inOrder_of_inFunction hsteady hclosed
      rwa [Lower.leaves_bind_of_ok hopen] at hbody

theorem Visits.leads (h : Visits types task s visited u) (htask : task.Sound) (hs : s.Regular) :
    visited.Sound ∧ s.Leads u := by
  induction h with
  | self => exact ⟨htask, rfl, id⟩
  | inside hmeets _ ih =>
    obtain ⟨hpart, hst⟩ := hmeets.leads (Task.accretes_plan types htask) hs
    obtain ⟨hvisited, htu⟩ := ih hpart (hmeets.around.regular hs)
    exact ⟨hvisited, hst.trans htu⟩

theorem Visits.inOrder (h : Visits types task s visited u) (htask : task.Sound) (hs : s.Regular)
    (hend : ((task.lower types).leaves s).inOrder = true) : u.inOrder = true := by
  induction h with
  | @self task s => exact ((task.accretes types 0 htask).leaves hs (Nat.zero_le _)).inOrder hend
  | inside hmeets _ ih =>
    have hplan := Task.accretes_plan (b := 0) types htask
    rw [← Task.run_plan] at hend
    exact ih (hmeets.leads hplan hs).1 (hmeets.around.regular hs) (hmeets.inOrder hplan hs hend)

/-! ## Constants and upvalues -/

/-- The constants and upvalues of `f` are still the first ones of `g`. -/
structure OpenFunction.Preserved (f g : OpenFunction) : Prop where
  constants : f.proto.constants.toList <+: g.proto.constants.toList
  upvalues : f.proto.upvalues <+: g.proto.upvalues

theorem OpenFunction.Preserved.trans {f g h : OpenFunction} (hfg : f.Preserved g)
    (hgh : g.Preserved h) : f.Preserved h :=
  ⟨hfg.constants.trans hgh.constants, hfg.upvalues.trans hgh.upvalues⟩

theorem Plan.preserved {plan : Plan α} {a : α} (hplan : plan.Accretes (fun _ ↦ True) 0 P)
    (hs : s.Regular) (h : plan.run types s = .ok a t) : s.current.Preserved t.current where
  constants := ((hplan.lowers types s hs (Nat.zero_le _)).result h).1.constants.isPrefix
  upvalues := ((plan.run_steady types s).result h).current.upvalues

/-- What a part of a plan that belongs to the same function leaves there is there at the end. -/
theorem Plan.Meets.preserved {plan : Plan α} {a : α} {b : part.Result} {w : Session}
    (h : plan.Meets types s part u) (hplan : plan.Accretes (fun _ ↦ True) 0 P) (hs : s.Regular)
    (hdepth : u.enclosing.length = s.enclosing.length) (hrun : plan.run types s = .ok a t)
    (hpart : part.lower types u = .ok b w) : w.current.Preserved t.current := by
  induction h with
  | part task rest s =>
    cases hplan with
    | part htask hrest =>
      obtain ⟨-, hb⟩ := (task.accretes types 0 htask s hs (Nat.zero_le _)).result hpart
      rw [Plan.run, bind_of_ok hpart] at hrun
      exact Plan.preserved (hrest b hb) (((task.steady types s).result hpart).regular hs) hrun
  | @afterPart task _ _ s _ _ _ hfirst _ ih =>
    cases hplan with
    | part htask hrest =>
      obtain ⟨-, hc⟩ := (task.accretes types 0 htask s hs (Nat.zero_le _)).result hfirst
      rw [Plan.run, bind_of_ok hfirst] at hrun
      exact ih (hrest _ hc) (((task.steady types s).result hfirst).regular hs)
        (hdepth.trans (Task.depth_eq hfirst)) hrun hpart
  | @afterStep _ x still _ _ s _ _ _ hfirst _ ih =>
    cases hplan with
    | step hx hrest =>
      obtain ⟨-, hc⟩ := (hx s hs (Nat.zero_le _)).result hfirst
      have hstays := (still s).result hfirst
      rw [Plan.run, bind_of_ok hfirst] at hrun
      exact ih (hrest _ hc) (hstays.toFollows.regular hs)
        (hdepth.trans hstays.enclosing.length_eq) hrun hpart
  | body hopen =>
    have hlength := Session.depth_of_openBody hopen
    omega

theorem Visits.preserved {a : task.Result} {b : visited.Result} {w : Session}
    (h : Visits types task s visited u) (htask : task.Sound) (hs : s.Regular)
    (hdepth : u.enclosing.length = s.enclosing.length) (hrun : task.lower types s = .ok a t)
    (hvisited : visited.lower types u = .ok b w) : w.current.Preserved t.current := by
  induction h generalizing t with
  | self =>
    obtain ⟨-, rfl⟩ := EStateM.Result.ok.inj (hrun.symm.trans hvisited)
    exact ⟨List.prefix_rfl, List.prefix_rfl⟩
  | inside hmeets hvisits ih =>
    have hplan := Task.accretes_plan (b := 0) types htask
    rw [← Task.run_plan] at hrun
    obtain ⟨c, x, hpart⟩ := hmeets.succeeds hrun
    have houter := hmeets.around.depth_le
    have hinner := hvisits.around.depth_le
    have hinside :=
      ih (hmeets.leads hplan hs).1 (hmeets.around.regular hs) (by omega) hpart hvisited
    exact hinside.trans (hmeets.preserved hplan hs (by omega) hrun hpart)

/-! ## Reachable sessions -/

/-- Something is lowered from a session in the course of lowering a body, after other bodies of
which some may have failed. -/
def Session.Reachable (types : TypeOracle) (s : Session) : Prop :=
  ∃ (source : Option String) (bodies : List (List Stmt)) (body : List Stmt) (task : Task),
    Visits types (.statements body) ((Session.after types source bodies).hoisted body) task s

theorem sound_statements (body : List Stmt) : (Task.statements body).Sound :=
  ⟨fun _ _ ↦ trivial, trivial⟩

theorem Session.Regular.hoisted (hs : s.Regular) (body : List Stmt) : (s.hoisted body).Regular :=
  ⟨hs.linked, (Names.owners_addGlobals _ _).trans hs.owners⟩

theorem regular_after (types : TypeOracle) (source : Option String) (bodies : List (List Stmt)) :
    (Session.after types source bodies).Regular :=
  (lowerBlocks_keeps types bodies (Session.atMain_main source)).1.regular

/-- Whichever bodies fail, the main function has only been added to. -/
theorem accretes_lowerBlocks (types : TypeOracle) (bodies : List (List Stmt)) (hs : s.AtMain) :
    s.current.Accretes (fun _ ↦ True) 0 (lowerBlocks types bodies s).2.current := by
  induction bodies generalizing s with
  | nil => exact .refl s.current
  | cons body bodies ih =>
    have hblock := Lower.yields_block types body hs
    have haccretive : Lower.Accretive (fun _ ↦ True) 0 (Lower.block types body) :=
      Lower.accretive_block types body 0 fun _ _ ↦ trivial
    have hleaves := haccretive.leaves hs.regular (Nat.zero_le _)
    cases hrun : Lower.block types body s with
    | ok a t =>
      rw [Lower.leaves_of_ok hrun] at hleaves
      rw [lowerBlocks_cons_of_ok _ hrun]
      exact hleaves.trans (ih (hblock.result hrun).1)
    | error e t =>
      rw [Lower.leaves_of_error hrun] at hleaves
      rw [lowerBlocks_cons_of_error _ hrun]
      exact hleaves.trans (ih (hblock.failure hrun).1.1)

theorem Session.accretes_after (types : TypeOracle) (source : Option String)
    (bodies : List (List Stmt)) :
    (OpenFunction.main source).Accretes (fun _ ↦ True) 0 (after types source bodies).current :=
  accretes_lowerBlocks types bodies (atMain_main source)

namespace Session.Reachable

theorem regular (h : s.Reachable types) : s.Regular := by
  obtain ⟨source, bodies, body, task, hvisits⟩ := h
  exact hvisits.around.regular ((regular_after types source bodies).hoisted body)

theorem tidy (h : s.Reachable types) (horder : s.inOrder = true) : s.current.registers.Tidy := by
  obtain ⟨source, bodies, body, task, hvisits⟩ := h
  have hstart : (Session.after types source bodies).current.registers.Orderly :=
    (accretes_after types source bodies).orderly fun _ ↦ Registers.tidy_empty
  obtain ⟨-, hleads⟩ := hvisits.leads (sound_statements body)
    ((regular_after types source bodies).hoisted body)
  exact hleads.orderly hstart horder

theorem ready (h : s.Reachable types) (horder : s.inOrder = true) : s.Ready :=
  ⟨h.regular.owners, h.tidy horder⟩

end Session.Reachable

/-! ## Registers in order -/

theorem lowerBlocks_balanced {bodies : List (List Stmt)} (hs : s.Ready) (hsettled : s.Settled)
    (hok : ∀ e, .error e ∉ (lowerBlocks types bodies s).1) :
    (lowerBlocks types bodies s).2.Ready ∧ (lowerBlocks types bodies s).2.Settled ∧
      (lowerBlocks types bodies s).2.inOrder = s.inOrder := by
  induction bodies generalizing s with
  | nil => exact ⟨hs, hsettled, rfl⟩
  | cons body bodies ih =>
    cases hrun : Lower.block types body s with
    | ok a t =>
      obtain ⟨ht, htsettled, hst⟩ := (block_balanced types body hs hsettled).result hrun
      rw [lowerBlocks_cons_of_ok _ hrun] at hok ⊢
      obtain ⟨hu, husettled, htu⟩ := ih ht htsettled fun e he ↦ hok e (List.mem_cons_of_mem _ he)
      exact ⟨hu, husettled, htu.trans hst⟩
    | error e t =>
      rw [lowerBlocks_cons_of_error _ hrun] at hok
      exact absurd List.mem_cons_self (hok e)

/-- After bodies of which none has failed, all that another one lowers it lowers with registers in
order, even if it fails. -/
theorem Visits.inOrder_after {source : Option String} {bodies : List (List Stmt)} {body : List Stmt}
    (hok : ∀ e, .error e ∉ (lowerBlocks types bodies (.main source)).1)
    (h : Visits types (.statements body) ((Session.after types source bodies).hoisted body)
      task s) :
    s.inOrder = true := by
  have hmain : (Session.main source).Ready := ⟨rfl, Registers.tidy_empty⟩
  obtain ⟨hready, hsettled, horder⟩ := lowerBlocks_balanced hmain rfl hok
  have hend := (block_balanced types body hready hsettled).mono
    (fun _ _ ht ↦ ht.2.2.trans horder) fun _ _ ht ↦ ht.trans horder
  exact h.inOrder (sound_statements body) ((regular_after types source bodies).hoisted body)
    (Lower.leaves_of_yields hend)

theorem Session.regular_hoisted_main (source : Option String) (body : List Stmt) :
    ((main source).hoisted body).Regular :=
  (atMain_main source).regular.hoisted body

/-- Everything that a compilation lowers it lowers from a reachable session, also if it fails. -/
theorem Encounters.reachable (h : Encounters types options program task s) : s.Reachable types :=
  ⟨options.source, [], program, task, h⟩

theorem Encounters.inOrder (h : Encounters types options program task s) : s.inOrder = true := by
  have hnone (e : Failure) : .error e ∉ (lowerBlocks types [] (.main options.source)).1 :=
    List.not_mem_nil
  exact Visits.inOrder_after hnone h

/-- Every function has the source name of the program. -/
theorem Encounters.source_eq (h : Encounters types options program task s) :
    s.current.proto.source = options.source :=
  (Visits.leads h (sound_statements program)
    (Session.regular_hoisted_main options.source program)).2.source

end LuaLower
