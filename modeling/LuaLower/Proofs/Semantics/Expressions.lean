import LuaLower.Proofs.Lowering.Body
import LuaLower.Proofs.Semantics.Operators

/-!
# Expressions without effects at work

The code for an expression without effects leaves a description of its value, as the variables give
it, and touches no register below the temporaries of that description. Lowering captures nothing
that was not a captured variable before.
-/

namespace LuaLower

open OpenFunction Machine

variable {V : Type} {m : Meaning V} {outer : String → V} {frame : Frame V} {ρ ρ' : Nat → V}
  {b lo mid : Nat} {f g h : OpenFunction} {s t u : Session} {v w : Value} {x y : V}

/-! ## Locals as variables -/

def Scope.ofLocals (locals : List Local) (captured : String → Bool) (outer : String → V)
    (ρ : Nat → V) : Scope V where
  locals x := (locals.find? fun l ↦ l.name == x).map fun l ↦ ρ l.register
  captured := captured
  outer := outer

theorem Scope.ofLocals_cons (l : Local) (locals : List Local) (captured : String → Bool) :
    ofLocals (l :: locals) captured outer ρ =
      (ofLocals locals captured outer ρ).bind l.name (ρ l.register) := by
  have hlocals : (ofLocals (l :: locals) captured outer ρ).locals =
      Function.update (ofLocals locals captured outer ρ).locals l.name (some (ρ l.register)) := by
    funext x
    by_cases hx : x = l.name
    · simp [ofLocals, hx]
    · simp [ofLocals, Function.update_of_ne hx, Ne.symm hx]
  rw [bind, ← hlocals]
  rfl

/-! ## What lowering leaves alone -/

namespace OpenFunction

theorem Placed.upvalues (h : f.Placed v lo w g) : g.proto.upvalues = f.proto.upvalues := by
  rcases h with ⟨_, rfl⟩ | ⟨_, rfl⟩ <;> rfl

theorem PlacedOperand.upvalues {x : Nat} (h : f.PlacedOperand v lo x g) :
    g.proto.upvalues = f.proto.upvalues := by
  obtain ⟨_, _, _, hplaced⟩ := h
  exact hplaced.upvalues

theorem PlacedConstant.upvalues {k : Constant} {key : Value} (h : f.PlacedConstant k key g) :
    g.proto.upvalues = f.proto.upvalues :=
  h.2.upvalues

theorem LiteralBuilt.upvalues {l : Literal} (h : f.LiteralBuilt l v g) :
    g.proto.upvalues = f.proto.upvalues := by
  cases l with
  | boolean value =>
    rw [h.2]
    rfl
  | null =>
    rw [h.2]
    rfl
  | _ =>
    obtain ⟨k, _, _, rfl⟩ := h
    rfl

theorem Begun.upvalues {op : BinaryOp} {joins : Bool} {pending : Pending}
    (h : f.Begun v lo op joins pending g) : g.proto.upvalues = f.proto.upvalues := by
  cases pending with
  | logical dst jump =>
    obtain ⟨_, _, f', _, hplaced, _, _, rfl⟩ := h
    exact hplaced.upvalues
  | comparison test left => exact h.2.2.upvalues
  | concat left =>
    obtain ⟨_, _, _, _, rfl⟩ := h
    rfl
  | arithmetic op left => exact h.2.2.2.2.upvalues

theorem Finished.upvalues {pending : Pending} (h : f.Finished v lo mid pending g) :
    g.proto.upvalues = f.proto.upvalues := by
  cases pending with
  | logical dst jump =>
    rw [h]
    rfl
  | concat left =>
    rw [h]
    rfl
  | _ =>
    obtain ⟨_, f', hplaced, rfl⟩ := h
    exact hplaced.upvalues

end OpenFunction

namespace Session

theorem captures_congr (hupvalues : t.current.proto.upvalues = s.current.proto.upvalues)
    (ht : t = { s with current := t.current }) : t.captures = s.captures := by
  funext x
  have henclosing : t.enclosing = s.enclosing := by rw [ht]
  rw [captures, captures, OpenFunction.captures, OpenFunction.captures, upvalueIndex?,
    upvalueIndex?, hupvalues, henclosing]

theorem Resolved.captures_eq (h : s.Resolved t) : t.captures = s.captures := funext h.chain.captures

/-- The variables, where the registers hold the locals. -/
def scope (s : Session) (outer : String → V) (ρ : Nat → V) : Scope V :=
  .ofLocals s.current.registers.locals s.captures outer ρ

@[simp] theorem locals_scope (x : String) : (s.scope outer ρ).locals x =
    (s.current.local? x).map fun l ↦ ρ l.register := rfl

@[simp] theorem captured_scope : (s.scope outer ρ).captured = s.captures := rfl

@[simp] theorem outer_scope : (s.scope outer ρ).outer = outer := rfl

@[simp] theorem globals_scope : (s.scope outer ρ).globals = outer envName := rfl

theorem scope_congr (hs : s.current.registers.Tidy)
    (hlocals : t.current.registers.locals = s.current.registers.locals)
    (hcaptures : t.captures = s.captures)
    (hρ : ∀ r < s.current.registers.numLocals, ρ' r = ρ r) :
    t.scope outer ρ' = s.scope outer ρ := by
  have hvalue : (s.scope outer ρ').locals = (s.scope outer ρ).locals := by
    funext x
    rw [locals_scope, locals_scope]
    cases hl : s.current.local? x with
    | none => rfl
    | some l => exact congrArg some (hρ _ (hs.find?_lt hl))
  rw [scope, hlocals, hcaptures]
  exact Scope.ext hvalue rfl rfl

/-- How a session changes when an expression is lowered to `v`. -/
structure Lowered (s : Session) (v : Value) (t : Session) : Prop where
  growth : ∃ ts, s.Extends (fun _ _ ↦ True) s.current.proto.code.size ts t
  holds : t.current.Holds v s.current.registers.next t.current.registers.next

namespace Lowered

theorem ready (h : s.Lowered v t) (hs : s.Ready) : t.Ready := by
  obtain ⟨ts, hst⟩ := h.growth
  exact hst.ready hs

theorem kept (h : s.Lowered v t) :
    OpenFunction.Kept s.current.proto.code.size s.current t.current := by
  obtain ⟨ts, hst⟩ := h.growth
  exact hst.current.kept (le_refl _)

theorem locals (h : s.Lowered v t) :
    t.current.registers.locals = s.current.registers.locals := by
  obtain ⟨ts, hst⟩ := h.growth
  exact hst.locals

theorem numLocals (h : s.Lowered v t) :
    t.current.registers.numLocals = s.current.registers.numLocals := by
  rw [Registers.numLocals, h.locals, Registers.numLocals]

theorem numLocals_le (h : s.Lowered v t) (hs : s.Ready) :
    t.current.registers.numLocals ≤ s.current.registers.next :=
  h.numLocals.trans_le hs.tidy.numLocals_le

end Lowered

/-- What the code that lowering to `v` added does: afterwards `v` stands for the value that the
variables give. -/
structure Computed (m : Meaning V) (s : Session) (v : Value) (t : Session) (value : Scope V → V) :
    Prop extends s.Lowered v t where
  captures : t.captures = s.captures
  leads : ∀ (outer : String → V) (frame : Frame V) (ρ : Nat → V), frame.Provides m outer t.current →
    frame.Follows s.current.proto.code.size t.current →
    Leads m frame s.current t.current s.current.registers.next ρ v (value (s.scope outer ρ))

end Session

/-- A step that lowers an expression with a given value. -/
def Simulates (m : Meaning V) (step : Lower Value) (value : Scope V → V) : Prop :=
  ∀ s v t, s.Ready → step s = .ok v t → s.Computed m v t value

/-! ## Results of steps -/

section Results

variable {α : Type} {a : α}

theorem lowers_result {x : Lower α} {ts : List ParamTree} {P : α → Session → Prop}
    (h : Lowers (fun _ _ ↦ True) s.current.proto.code.size x s ts P) (hs : s.Ready)
    (hx : x s = .ok a t) :
    s.Extends (fun _ _ ↦ True) s.current.proto.code.size ts t ∧ P a t :=
  (h hs (le_refl _)).result hx

theorem onCurrent_result {step : Build α} {R : α → OpenFunction → Prop}
    (h : Builds (fun _ _ ↦ True) b step s.current R) (hs : s.Ready)
    (hb : b ≤ s.current.proto.code.size) (hstep : Lower.onCurrent step s = .ok a t) :
    s.Extends (fun _ _ ↦ True) b [] t ∧ R a t.current ∧ t = { s with current := t.current } :=
  (Lowers.onCurrent_exact h hs hb).result hstep

end Results

/-! ## Literals -/

theorem simulates_literal {l : Literal} (hl : l.isPure = true) :
    Simulates m (Lower.onCurrent (Build.literal l)) fun _ ↦ m.literal l := by
  intro s v t hs hstep
  obtain ⟨hextends, hbuilt, ht⟩ := onCurrent_result (builds_literal l) hs (le_refl _) hstep
  have hlowered : s.Lowered v t := ⟨⟨[], hextends⟩, hbuilt.holds⟩
  refine { hlowered with captures := Session.captures_congr hbuilt.upvalues ht, leads := ?_ }
  intro outer frame ρ hprovides hcode
  cases l with
  | number z =>
    obtain ⟨k, hk, rfl, hcurrent⟩ := hbuilt
    cases hk
    rw [hcurrent] at hprovides ⊢
    exact leads_of_value rfl (value?_intern hprovides)
  | string z =>
    obtain ⟨k, hk, rfl, hcurrent⟩ := hbuilt
    cases hk
    rw [hcurrent] at hprovides ⊢
    exact leads_of_value rfl (value?_intern hprovides)
  | boolean z =>
    obtain ⟨rfl, hcurrent⟩ := hbuilt
    rw [hcurrent] at hcode ⊢
    refine leads_of_exec (f := s.current.taken) hcode (le_refl _) ?_
    cases z <;> rfl
  | null =>
    obtain ⟨rfl, hcurrent⟩ := hbuilt
    rw [hcurrent] at hcode ⊢
    exact leads_of_exec (f := s.current.taken) hcode (le_refl _) exec_loadNil
  | bigint z => cases hl
  | regex z z' => cases hl

/-! ## Names -/

theorem Meaning.named?_eq (m : Meaning V) (name : String) :
    m.named? name = (namedConstant? name).map m.constant := by
  unfold Meaning.named? namedConstant?
  split <;> simp_all [Meaning.nil]

namespace Session.Found

variable {name : String} {place : Place}

theorem size_eq {place : Option Place} (h : s.Found name place t) :
    t.current.proto.code.size = s.current.proto.code.size := by
  obtain ⟨us, ht⟩ := h.resolved.chain.innermost
  have hsize := congrArg (fun f : OpenFunction ↦ f.proto.code.size) ht
  exact hsize

/-- A variable that is found has the value that the registers or the functions around give it. -/
theorem leads (h : s.Found name (some place) t) (hprovides : frame.Provides m outer t.current) :
    ∃ x, (s.scope outer ρ).find? name = some x ∧
      Leads m frame s.current t.current lo ρ place.toValue x := by
  have hsize := h.size_eq
  cases h with
  | @home l hl =>
    refine ⟨ρ l.register, ?_, leads_of_value hsize rfl⟩
    simp [Scope.find?, hl]
  | captured hl hcaptures _ hu =>
    refine ⟨outer name, ?_, leads_of_value hsize (hprovides.upvalue _ _ hu)⟩
    simp [Scope.find?, hl, hcaptures]

theorem find?_eq_none (h : s.Found name none t) :
    (s.scope outer ρ).find? name = none := by
  cases h with
  | missing hl hcaptures _ => simp [Scope.find?, hl, hcaptures]

end Session.Found

theorem simulates_lookup (types : TypeOracle) (name : String) :
    Simulates m (Lower.lookup types name) fun scope ↦ m.name scope name := by
  intro s v t hs hstep
  obtain ⟨hextends, hlooked⟩ := lowers_result (lowers_lookup types name) hs hstep
  have hlowered : s.Lowered v t := ⟨⟨[], hextends⟩, hlooked.holds hs⟩
  cases hlooked with
  | @ofPlace place t hfound =>
    refine { hlowered with captures := hfound.resolved.captures_eq, leads := ?_ }
    intro outer frame ρ hprovides _
    obtain ⟨x, hx, hleads⟩ := hfound.leads (ρ := ρ) hprovides
    have hvalue : m.name (s.scope outer ρ) name = x := by simp [Meaning.name, hx]
    rw [hvalue]
    exact hleads
  | @constant t k hfound hconstant =>
    refine { hlowered with captures := ?_, leads := ?_ }
    · exact (Session.captures_congr rfl rfl).trans hfound.resolved.captures_eq
    · intro outer frame ρ hprovides _
      have hvalue : m.name (s.scope outer ρ) name = m.constant k := by
        simp [Meaning.name, hfound.find?_eq_none, Meaning.named?_eq, hconstant]
      rw [hvalue]
      exact leads_of_value hfound.size_eq (value?_intern hprovides)
  | @global t f env key hfound hconstant henv hkey _ =>
    have ht : t.Ready := hfound.resolved.ready hs
    refine { hlowered with captures := ?_, leads := ?_ }
    · exact (Session.captures_congr hkey.upvalues rfl).trans hfound.resolved.captures_eq
    · intro outer frame ρ hprovides hcode
      have hvalue : m.name (s.scope outer ρ) name =
          m.index (outer envName) (m.constant (.string name)) := by
        simp [Meaning.name, hfound.find?_eq_none, Meaning.named?_eq, hconstant, Meaning.field]
      have henvf : f.UpvalueNamed env envName := by
        rw [UpvalueNamed, hkey.upvalues]
        exact upvalueNamed_of_index henv
      have howner : Leads m frame s.current t.current s.current.registers.next ρ (.upvalue env)
          (outer envName) :=
        leads_of_value hfound.size_eq (hprovides.upvalue _ _ henvf)
      rw [hvalue]
      refine howner.member ⟨(upvalueNamed_of_index henv).lt, rfl⟩ ?_ ?_
      · rw [← hfound.next_eq]
        exact ht.tidy.numLocals_le
      · intro ρ₁ _
        rw [← hfound.next_eq]
        exact leads_constantKey hkey ht.tidy hprovides hcode hfound.size_eq.ge

theorem simulates_this : Simulates m Lower.lookupThis Scope.this := by
  intro s v t hs hstep
  obtain ⟨hextends, hfound⟩ := lowers_result lowers_lookupThis hs hstep
  rcases hfound with ⟨place, rfl, hfound⟩ | ⟨env, rfl, hfound, henv⟩
  · refine {
      growth := ⟨[], hextends⟩
      holds := hfound.holds hs
      captures := hfound.resolved.captures_eq
      leads := ?_ }
    intro outer frame ρ hprovides _
    obtain ⟨x, hx, hleads⟩ := hfound.leads (ρ := ρ) hprovides
    have hvalue : (s.scope outer ρ).this = x := by simp [Scope.this, hx]
    rw [hvalue]
    exact hleads
  · refine {
      growth := ⟨[], hextends⟩
      holds := ⟨(upvalueNamed_of_index henv).lt, hfound.next_eq⟩
      captures := hfound.resolved.captures_eq
      leads := ?_ }
    intro outer frame ρ hprovides _
    have hvalue : (s.scope outer ρ).this = outer envName := by
      simp [Scope.this, hfound.find?_eq_none]
    rw [hvalue]
    exact leads_of_value hfound.size_eq (hprovides.upvalue _ _ (upvalueNamed_of_index henv))

/-! ## Fields -/

namespace Session.Computed

variable {value key : Scope V → V}

theorem provides (h : s.Computed m v t value) (hprovides : frame.Provides m outer t.current) :
    frame.Provides m outer s.current :=
  hprovides.of_kept h.kept

theorem scope_eq (h : s.Computed m v t value) (hs : s.Ready)
    (hρ : ∀ r < s.current.registers.next, ρ' r = ρ r) : t.scope outer ρ' = s.scope outer ρ :=
  scope_congr hs.tidy h.locals h.captures fun r hr ↦ hρ r (hr.trans_le hs.tidy.numLocals_le)

/-- Placing the value of an expression where an instruction needs it. -/
theorem placed (h : s.Computed m v t value) (hs : s.Ready)
    (hplaced : t.current.Placed v s.current.registers.next w u.current)
    (hextends : t.Extends (fun _ _ ↦ True) t.current.proto.code.size [] u)
    (hu : u = { t with current := u.current }) : s.Computed m w u value where
  growth := by
    obtain ⟨ts, hst⟩ := h.growth
    exact ⟨_, hst.trans (hextends.mono h.kept.size_le)⟩
  holds := hplaced.holds h.holds
  captures := (captures_congr hplaced.upvalues hu).trans h.captures
  leads := by
    intro outer frame ρ hprovides hcode
    have hfollows := hcode.of_kept hplaced.kept
    have hleads := h.leads outer frame ρ (hprovides.of_kept hplaced.kept) hfollows
    exact hleads.placed hplaced h.holds (h.ready hs).tidy (h.numLocals_le hs) hcode h.kept.size_le

theorem member (h : s.Computed m v t value) (hkey : t.Computed m w u key) (hs : s.Ready)
    (hv : v.IsTable) (hw : w.IsKey) :
    s.Computed m (.member v w) u fun scope ↦ m.index (value scope) (key scope) where
  growth := by
    obtain ⟨ts, hst⟩ := h.growth
    obtain ⟨us, htu⟩ := hkey.growth
    exact ⟨_, hst.trans (htu.mono h.kept.size_le)⟩
  holds := by
    obtain ⟨us, htu⟩ := hkey.growth
    exact ⟨hv, hw, _, h.holds.within htu.within, hkey.holds⟩
  captures := hkey.captures.trans h.captures
  leads := by
    intro outer frame ρ hprovides hcode
    have hleads := h.leads outer frame ρ (hkey.provides hprovides) (hcode.of_kept hkey.kept)
    apply hleads.member h.holds (h.numLocals_le hs)
    intro ρ₁ hρ₁
    have hkeyLeads := hkey.leads outer frame ρ₁ hprovides (hcode.mono h.kept.size_le)
    rwa [h.scope_eq hs hρ₁] at hkeyLeads

end Session.Computed

theorem computed_constantKey {k : Constant} (hs : s.Ready)
    (hplaced : s.current.PlacedConstant k v t.current)
    (hextends : s.Extends (fun _ _ ↦ True) s.current.proto.code.size [] t)
    (ht : t = { s with current := t.current }) : s.Computed m v t fun _ ↦ m.constant k where
  growth := ⟨[], hextends⟩
  holds := hplaced.holds
  captures := Session.captures_congr hplaced.upvalues ht
  leads := fun _ _ _ hprovides hcode ↦
    leads_constantKey hplaced hs.tidy hprovides hcode (le_refl _)

/-- The owner of a field is placed in a register or stays an upvalue. -/
theorem computed_table {step : Lower Value} {value : Scope V → V} (hstep : Simulates m step value)
    (hs : s.Ready) {place : Place} (h : (do Build.toTable (← step) : Lower Place) s = .ok place t) :
    s.Computed m place.toValue t value := by
  obtain ⟨v, t₁, h₁, h₂⟩ := bind_eq_ok h
  have hcomputed := hstep s v t₁ hs h₁
  obtain ⟨hextends, hplaced, ht⟩ := onCurrent_result
    (builds_toTable (hcomputed.numLocals_le hs) hcomputed.holds) (hcomputed.ready hs) (le_refl _) h₂
  exact hcomputed.placed hs hplaced hextends ht

theorem simulates_member (types : TypeOracle) (name : String) {step : Lower Value}
    {value : Scope V → V} (hstep : Simulates m step value) :
    Simulates m (do
      let owner ← Build.toTable (← step)
      Lower.withOwner owner.toValue (Lower.lookup types name))
      fun scope ↦ m.field (value scope) name := by
  intro s v t hs h
  simp only [withOwner_lookup, ← bind_assoc] at h
  obtain ⟨place, t₁, h₁, h⟩ := bind_eq_ok h
  have howner := computed_table hstep hs h₁
  have ht₁ := howner.ready hs
  rw [Lower.onCurrent_bind] at h
  obtain ⟨key, t₂, h₂, hreturn⟩ := bind_eq_ok h
  rw [Lower.onCurrent_pure] at hreturn
  cases hreturn
  obtain ⟨hextends, hplaced, ht⟩ :=
    onCurrent_result (builds_constantKey (.string name) ht₁.tidy.numLocals_le) ht₁ (le_refl _) h₂
  have hkey := computed_constantKey (m := m) ht₁ hplaced hextends ht
  exact howner.member hkey hs place.isTable_toValue hplaced.1

theorem simulates_index {ownerStep keyStep : Lower Value} {owner key : Scope V → V}
    (howner : Simulates m ownerStep owner) (hkey : Simulates m keyStep key) :
    Simulates m (do
      let owner ← Build.toTable (← ownerStep)
      let key ← Build.toKey (← keyStep)
      return .member owner.toValue key)
      fun scope ↦ m.index (owner scope) (key scope) := by
  intro s v t hs h
  simp only [← bind_assoc (m := Lower) ownerStep] at h
  obtain ⟨place, t₁, h₁, h⟩ := bind_eq_ok h
  have hplace := computed_table howner hs h₁
  have ht₁ := hplace.ready hs
  obtain ⟨w, t₂, h₂, h⟩ := bind_eq_ok h
  have hcomputed := hkey t₁ w t₂ ht₁ h₂
  obtain ⟨w', t₃, h₃, hreturn⟩ := bind_eq_ok h
  cases hreturn
  obtain ⟨hextends, ⟨hisKey, hplaced⟩, ht⟩ := onCurrent_result
    (builds_toKey (hcomputed.numLocals_le ht₁) hcomputed.holds) (hcomputed.ready ht₁) (le_refl _) h₃
  exact hplace.member (hcomputed.placed ht₁ hplaced hextends ht) hs place.isTable_toValue hisKey

/-! ## Operators -/

theorem exec_unary {op : UnaryOp} {opcode : Opcode} (hop : op.opcode? = some opcode)
    {pc a src c : Nat} :
    exec m frame pc ρ (.abc opcode a src c) =
      some (.next ⟨pc + 1, Function.update ρ a (m.unary op (ρ src))⟩) := by
  cases op <;> cases hop <;> rfl

theorem simulates_unary {op : UnaryOp} {opcode : Opcode} (hop : op.opcode? = some opcode)
    {step : Lower Value} {value : Scope V → V} (hstep : Simulates m step value) :
    Simulates m (do Build.unary opcode (← step)) fun scope ↦ m.unary op (value scope) := by
  intro s v t hs h
  obtain ⟨v₁, t₁, h₁, h₂⟩ := bind_eq_ok h
  have hoperand := hstep s v₁ t₁ hs h₁
  have ht₁ := hoperand.ready hs
  have hlo := hoperand.numLocals_le hs
  obtain ⟨hextends, ⟨rfl, src, f, hplaced, hcurrent⟩, ht⟩ :=
    onCurrent_result (builds_unary hop hlo hoperand.holds) ht₁ (le_refl _) h₂
  have hupvalues : t.current.proto.upvalues = t₁.current.proto.upvalues := by
    rw [hcurrent]
    exact hplaced.upvalues
  refine { growth := ?_, holds := ?_, captures := ?_, leads := ?_ }
  · obtain ⟨ts, hst⟩ := hoperand.growth
    exact ⟨_, hst.trans (hextends.mono hoperand.kept.size_le)⟩
  · rw [hcurrent]
    exact .inr ⟨rfl, rfl⟩
  · exact (Session.captures_congr hupvalues ht).trans hoperand.captures
  · intro outer frame ρ hprovides hcode
    have hsize := hoperand.kept.size_le
    have hkept := hextends.current.kept (le_refl _)
    rw [hcurrent] at hcode ⊢
    have hfollows : frame.Follows s.current.proto.code.size f :=
      Frame.Follows.of_emit (f := (f.downTo s.current.registers.next).taken) hcode
    have hleads := hoperand.leads outer frame ρ (hprovides.of_kept hkept)
      (hfollows.of_kept hplaced.kept)
    apply (hleads.placed hplaced hoperand.holds ht₁.tidy hlo hfollows hsize).trans
    intro ρ₁ _ hx
    have hsrc : ρ₁ src = value (s.scope outer ρ) := Option.some.inj hx
    rw [← hsrc]
    exact leads_of_exec (f := (f.downTo s.current.registers.next).taken) hcode
      (hsize.trans hplaced.kept.size_le) (exec_unary hop)

theorem computed_binary {op : BinaryOp} {joins : Bool} (hjoins : joins = true → op = .add)
    {left right : Lower Value} {leftValue rightValue : Scope V → V} (hs : s.Ready)
    (hleft : ∀ v t, left s = .ok v t → s.Computed m v t leftValue)
    (hright : Simulates m right rightValue) (h : Lower.binary op joins left right s = .ok v t) :
    s.Computed m v t fun scope ↦ m.binary op joins (leftValue scope) (rightValue scope) := by
  obtain ⟨v₁, t₁, h₁, h⟩ := bind_eq_ok h
  have hfirst := hleft v₁ t₁ h₁
  have ht₁ := hfirst.ready hs
  have hlo := hfirst.numLocals_le hs
  have hsize₁ := hfirst.kept.size_le
  obtain ⟨pending, t₂, h₂, h⟩ := bind_eq_ok h
  obtain ⟨hextends₂, ⟨hbegun, hpending⟩, ht₂⟩ :=
    onCurrent_result (builds_beginBinary op joins hlo hfirst.holds) ht₁ (le_refl _) h₂
  have hready₂ := hextends₂.ready ht₁
  have hkept₂ := hextends₂.current.kept (le_refl _)
  obtain ⟨v₃, t₃, h₃, h⟩ := bind_eq_ok h
  have hsecond := hright t₂ v₃ t₃ hready₂ h₃
  obtain ⟨us, hextends₃⟩ := hsecond.growth
  have hpending₃ := hpending.extends hextends₃.innermost
  have hlo₃ : t₃.current.registers.numLocals ≤ s.current.registers.next :=
    (hsecond.numLocals.trans hextends₂.numLocals).trans_le hlo
  have hready₃ := hsecond.ready hready₂
  have hsize₃ := hkept₂.size_le.trans hsecond.kept.size_le
  obtain ⟨hextends₄, ⟨rfl, hfinished⟩, ht₄⟩ :=
    onCurrent_result (builds_finishBinary hlo₃ hpending₃ hsecond.holds) hready₃ hsize₃ h
  have hkept₄ := hextends₄.current.kept hsize₃
  have hkept : OpenFunction.Kept t₁.current.proto.code.size t₁.current t.current :=
    (hkept₂.trans (hsecond.kept.mono hkept₂.size_le)).trans hkept₄
  have hcaptures₂ := Session.captures_congr hbegun.upvalues ht₂
  refine { growth := ?_, holds := ?_, captures := ?_, leads := ?_ }
  · obtain ⟨ts, hst⟩ := hfirst.growth
    have hthird := hextends₃.mono (hsize₁.trans hkept₂.size_le)
    exact ⟨_, ((hst.trans (hextends₂.mono hsize₁)).trans hthird).trans (hextends₄.mono hsize₁)⟩
  · exact .inr ⟨rfl, hfinished.next_eq hpending₃⟩
  · have hcaptures₄ := Session.captures_congr hfinished.upvalues ht₄
    rw [hcaptures₄, hsecond.captures, hcaptures₂, hfirst.captures]
  · intro outer frame ρ hprovides hcode
    have hprovides₃ := hprovides.of_kept hkept₄
    have hprovides₁ := hprovides.of_kept hkept
    apply (hfirst.leads outer frame ρ hprovides₁ (hcode.of_kept hkept)).trans
    intro ρ₁ hρ₁ hx
    have hrun : RightRun m frame t₂.current t₃.current s.current.registers.next ρ₁ v₃
        (rightValue (s.scope outer ρ)) := by
      refine ⟨hready₂.tidy, hready₃.tidy, hextends₂.numLocals.trans_le hlo, hlo₃, hsecond.kept,
        hsecond.holds, ?_⟩
      intro hfollows ρ₂ hρ₂
      have hscope : t₂.scope outer ρ₂ = s.scope outer ρ := by
        have hlocals := hextends₂.locals.trans hfirst.locals
        apply Session.scope_congr hs.tidy hlocals (hcaptures₂.trans hfirst.captures)
        intro r hr
        have hr := hr.trans_le hs.tidy.numLocals_le
        rw [hρ₂ r hr, hρ₁ r hr]
      rw [← hscope]
      exact hsecond.leads outer frame ρ₂ hprovides₃ hfollows
    exact leads_binary hjoins hbegun hrun hfirst.holds ht₁.tidy hlo hfinished hcode hsize₁ hx

theorem binary_joins (m : Meaning V) (op : BinaryOp) (joins : Bool) (x y : V) :
    m.binary op (op == .add && joins) x y = m.binary op joins x y := by
  cases op <;> rfl

theorem eq_add_of_joins {op : BinaryOp} {joins : Bool} (h : (op == .add && joins) = true) :
    op = .add := by
  simpa using (Bool.and_eq_true_iff.mp h).1

/-! ## The recursion over the tree -/

theorem simulates_expr (types : TypeOracle) (e : Expr) (he : e.isPure = true) :
    Simulates m (Lower.expr types e) fun scope ↦ m.eval types scope e := by
  cases e with
  | literal l => exact simulates_literal he
  | identifier name => exact simulates_lookup types name
  | this => exact simulates_this
  | member owner name => exact simulates_member types name (simulates_expr types owner he)
  | index owner key =>
    obtain ⟨howner, hkey⟩ := Bool.and_eq_true_iff.mp he
    exact simulates_index (simulates_expr types owner howner) (simulates_expr types key hkey)
  | unary op operand =>
    obtain ⟨hop, hoperand⟩ := Bool.and_eq_true_iff.mp he
    have hstep := simulates_expr types operand hoperand
    cases op with
    | minus => exact simulates_unary rfl hstep
    | bitNot => exact simulates_unary rfl hstep
    | not => exact simulates_unary rfl hstep
    | _ => cases hop
  | binary op left right =>
    obtain ⟨hop, hright⟩ := Bool.and_eq_true_iff.mp he
    have hleft := simulates_expr types left (Bool.and_eq_true_iff.mp hop).2
    have hright := simulates_expr types right hright
    intro s v t hs h
    have hcomputed := computed_binary eq_add_of_joins hs (fun v t ↦ hleft s v t hs) hright h
    simp only [binary_joins] at hcomputed
    exact hcomputed
  | _ => cases he

end LuaLower
