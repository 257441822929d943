import LuaLower.Proofs.Lowering.Operands
import LuaLower.Proofs.SemanticPreservation
import LuaLower.Proofs.Semantics.Tables

/-!
# Array literals

The elements of an array literal, except for the first, are list items. They are computed into the
registers above that of the new table and stored in groups of fifty. The first element has the key
zero and is stored last. In the end the table has every element under its position, and no more.
-/

namespace LuaLower

open OpenFunction Machine

variable {V : Type} {m : Meaning V} {types : TypeOracle} {outer : String → V}
  {frame : Frame (Datum V)} {values : Nat → V} {ρ : Nat → Datum V} {tables : List (Table V)}
  {T : Table V} {s t u : Session} {table : Nat}

/-! ## Elements -/

/-- The value of an element, which is nil if it is missing. -/
def Meaning.element (m : Meaning V) (types : TypeOracle) (scope : Scope V) (element : Option Expr) :
    V :=
  element.elim m.nil (m.eval types scope)

theorem Meaning.element_withTables (m : Meaning V) (tables : List (Table V)) (scope : Scope V)
    (element : Option Expr) :
    (m.withTables tables).element types scope.lift element =
      .value (m.element types scope element) := by
  cases element with
  | none => rfl
  | some e => exact m.eval_withTables tables scope types e

theorem Session.scope_lift (hs : s.current.registers.Tidy)
    (hρ : ∀ r < s.current.registers.numLocals, ρ r = .value (values r)) :
    s.scope (fun x ↦ .value (outer x)) ρ = (s.scope outer values).lift := by
  refine Scope.ext ?_ rfl rfl
  funext x
  have hlift : (s.scope outer values).lift.locals x =
      ((s.scope outer values).locals x).map .value := rfl
  rw [hlift, locals_scope, locals_scope]
  cases hl : s.current.local? x with
  | none => rfl
  | some l => exact congrArg some (hρ _ (hs.find?_lt hl))

/-- A frame of the machine with young tables on which the code from one function to a later one
runs. -/
structure Machine.Frame.Serves (frame : Frame (Datum V)) (m : Meaning V) (outer : String → V)
    (f g : OpenFunction) : Prop where
  provides : frame.Provides (m.withTables []) (fun x ↦ .value (outer x)) g
  follows : frame.Follows f.proto.code.size g

namespace Machine.Frame.Serves

variable {f g h : OpenFunction}

theorem withTables (hframe : frame.Serves m outer f g) (tables : List (Table V)) :
    frame.Provides (m.withTables tables) (fun x ↦ .value (outer x)) g :=
  ⟨hframe.provides.constant, hframe.provides.upvalue⟩

theorem left (hframe : frame.Serves m outer f h) (hgh : Kept g.proto.code.size g h) :
    frame.Serves m outer f g :=
  ⟨hframe.provides.of_kept hgh, hframe.follows.of_kept hgh⟩

theorem right (hframe : frame.Serves m outer f h)
    (hfg : f.proto.code.size ≤ g.proto.code.size) : frame.Serves m outer g h :=
  ⟨hframe.provides, hframe.follows.mono hfg⟩

end Machine.Frame.Serves

/-- How a session changes while the elements of an array are lowered. -/
structure Session.Advances (s t : Session) : Prop where
  ready : t.Ready
  kept : OpenFunction.Kept s.current.proto.code.size s.current t.current
  locals : t.current.registers.locals = s.current.registers.locals
  captures : t.captures = s.captures

namespace Session.Advances

theorem trans (hst : s.Advances t) (htu : t.Advances u) : s.Advances u where
  ready := htu.ready
  kept := hst.kept.trans (htu.kept.mono hst.kept.size_le)
  locals := htu.locals.trans hst.locals
  captures := htu.captures.trans hst.captures

theorem numLocals (h : s.Advances t) :
    t.current.registers.numLocals = s.current.registers.numLocals := by
  rw [Registers.numLocals, h.locals, Registers.numLocals]

theorem scope_eq (h : s.Advances t) : t.scope outer values = s.scope outer values := by
  rw [Session.scope, h.locals, h.captures, Session.scope]

theorem of_onCurrent {α : Type} {step : Build α} {R : α → OpenFunction → Prop} {a : α}
    (hstep : Builds (fun _ _ ↦ True) s.current.proto.code.size step s.current R) (hs : s.Ready)
    (h : Lower.onCurrent step s = .ok a t)
    (hR : ∀ a g, R a g → g.proto.upvalues = s.current.proto.upvalues) :
    s.Advances t ∧ R a t.current := by
  obtain ⟨hextends, hpost, ht⟩ := onCurrent_result hstep hs (le_refl _) h
  exact ⟨⟨hextends.ready hs, hextends.current.kept (le_refl _), hextends.locals,
    captures_congr (hR a _ hpost) ht⟩, hpost⟩

end Session.Advances

theorem Session.Computed.advances {W : Type} {M : Meaning W} {v : Value} {value : Scope W → W}
    (h : s.Computed M v t value) (hs : s.Ready) : s.Advances t :=
  ⟨h.ready hs, h.kept, h.locals, h.captures⟩

/-- An element is computed like the first value of a local. -/
theorem computed_arrayItem {W : Type} {M : Meaning W} {element : Option Expr}
    (helement : ∀ e ∈ element, e.isPure = true) (hs : s.Ready)
    (h : Lower.arrayItem types element s = .ok () t) :
    t.current.registers.next = s.current.registers.next + 1 ∧
      s.Computed M (.register s.current.registers.next) t fun scope ↦
        M.element types scope element := by
  have hinit : InitSimulates M (element.map (Lower.expr types)) fun scope ↦
      M.element types scope element := by
    cases element with
    | none => rfl
    | some e => exact simulates_expr types e (helement e rfl)
  have hvalue : ∃ r, Lower.initialValue (element.map (Lower.expr types)) s = .ok r t := by
    cases element with
    | none =>
      rw [Lower.arrayItem] at h
      obtain ⟨r, _, hnil, ⟨⟩⟩ := onCurrent_bind_eq_ok h
      exact ⟨r, hnil⟩
    | some e =>
      rw [Lower.arrayItem] at h
      obtain ⟨v, u, hexpr, hitem⟩ := bind_eq_ok h
      obtain ⟨r, _, hplace, ⟨⟩⟩ := onCurrent_bind_eq_ok hitem
      exact ⟨r, (bind_of_ok hexpr).trans hplace⟩
  obtain ⟨r, hvalue⟩ := hvalue
  obtain ⟨rfl, hnext, hcomputed⟩ := computed_initialValue hinit hs hvalue
  exact ⟨hnext, hcomputed⟩

theorem map_range'_succ {ρ ρ' : Nat → Datum V} {x : Datum V} {start count : Nat}
    (hkeep : ∀ r < start + count, ρ' r = ρ r) (hx : ρ' (start + count) = x) :
    (List.range' start (count + 1)).map ρ' = (List.range' start count).map ρ ++ [x] := by
  rw [List.range'_1_concat, List.map_append, List.map_singleton, hx]
  congr 1
  apply List.map_congr_left
  intro r hr
  exact hkeep r (List.mem_range'_1.mp hr).2

variable [DecidableEq V]

/-- What the code of an element does on the machine with young tables. -/
theorem Session.Computed.steps {v : Value} {element : Option Expr} (hs : s.Ready)
    (h : s.Computed (m.withTables tables) v t fun scope ↦
      (m.withTables tables).element types scope element)
    (hframe : frame.Serves m outer s.current t.current)
    (hρ : ∀ r < s.current.registers.numLocals, ρ r = .value (values r)) :
    ∃ ρ', TableState.Steps m frame ⟨s.size, ρ, tables⟩ ⟨t.size, ρ', tables⟩ ∧
      (∀ r < s.current.registers.next, ρ' r = ρ r) ∧
      frame.value? (m.withTables tables) ρ' v =
        some (.value (m.element types (s.scope outer values) element)) := by
  obtain ⟨ρ', hsteps, hkeep, hvalue⟩ :=
    h.leads _ frame ρ (hframe.withTables tables) hframe.follows
  rw [Session.scope_lift hs.tidy hρ, m.element_withTables] at hvalue
  exact ⟨ρ', .of_steps hsteps, hkeep, hvalue⟩

/-! ## Changes to the new table -/

/-- What code does to the young table in a register, from which on registers are free afterwards.
The table is the last one, and the change depends on the variables and on the registers. -/
structure Session.Changes (m : Meaning V) (table : Nat) (s : Session)
    (change : Scope V → (Nat → Datum V) → Table V → Table V) (t : Session) : Prop
    extends s.Advances t where
  next : t.current.registers.next = table + 1
  runs : ∀ (outer : String → V) (frame : Frame (Datum V)) (values : Nat → V) (ρ : Nat → Datum V)
    (tables : List (Table V)) (T : Table V), frame.Serves m outer s.current t.current →
    (∀ r < s.current.registers.numLocals, ρ r = .value (values r)) →
    ρ table = .table tables.length →
    ∃ ρ', TableState.Steps m frame ⟨s.size, ρ, tables ++ [T]⟩
        ⟨t.size, ρ', tables ++ [change (s.scope outer values) ρ T]⟩ ∧
      ∀ r ≤ table, ρ' r = ρ r

namespace Session.Changes

theorem refl (hs : s.Ready) (hnext : s.current.registers.next = table + 1) :
    s.Changes m table (fun _ _ T ↦ T) s where
  ready := hs
  kept := .refl _ _
  locals := rfl
  captures := rfl
  next := hnext
  runs _ _ _ ρ _ _ _ _ _ := ⟨ρ, .refl _, fun _ _ ↦ rfl⟩

theorem trans {change : Scope V → (Nat → Datum V) → Table V → Table V}
    {change' : Scope V → Table V → Table V} (hlo : s.current.registers.numLocals ≤ table)
    (hst : s.Changes m table change t) (htu : t.Changes m table (fun scope _ ↦ change' scope) u) :
    s.Changes m table (fun scope ρ T ↦ change' scope (change scope ρ T)) u := by
  refine { hst.toAdvances.trans htu.toAdvances with next := htu.next, runs := ?_ }
  intro outer frame values ρ tables T hframe hρ htable
  obtain ⟨ρ₁, hsteps₁, hkeep₁⟩ :=
    hst.runs outer frame values ρ tables T (hframe.left htu.kept) hρ htable
  have hρ₁ : ∀ r < t.current.registers.numLocals, ρ₁ r = .value (values r) := by
    intro r hr
    rw [hst.numLocals] at hr
    rw [hkeep₁ r (by omega), hρ r hr]
  obtain ⟨ρ₂, hsteps₂, hkeep₂⟩ := htu.runs outer frame values ρ₁ tables _
    (hframe.right hst.kept.size_le) hρ₁ ((hkeep₁ table (le_refl _)).trans htable)
  rw [hst.scope_eq] at hsteps₂
  exact ⟨ρ₂, hsteps₁.trans hsteps₂, fun r hr ↦ (hkeep₂ r hr).trans (hkeep₁ r hr)⟩

end Session.Changes

/-! ## List items -/

/-- The items that are pending in the registers above the table and those that follow are stored. -/
abbrev Session.Stores (m : Meaning V) (types : TypeOracle) (table : Nat) (s : Session)
    (first pending : Nat) (elements : List (Option Expr)) (t : Session) : Prop :=
  s.Changes m table (fun scope ρ T ↦ T.setItems m first ((List.range' (table + 1) pending).map ρ ++
    elements.map fun e ↦ .value (m.element types scope e))) t

theorem stores_batch {count batch : Nat} (hs : s.Ready)
    (hlo : s.current.registers.numLocals ≤ table)
    (hnext : s.current.registers.next = table + 1 + count) (hcount : 0 < count)
    (hbatch : 0 < batch) (h : Lower.onCurrent (Build.storeBatch table count batch) s = .ok () t) :
    s.Stores m types table ((batch - 1) * 50 + 1) count [] t := by
  obtain ⟨hadvances, hcurrent⟩ := Session.Advances.of_onCurrent (builds_storeBatch batch hlo hnext)
    hs h (by rintro _ _ rfl; rfl)
  refine { hadvances with next := by rw [hcurrent]; rfl, runs := ?_ }
  intro outer frame values ρ tables T hframe _ htable
  have hcode := hframe.follows
  rw [hcurrent] at hcode
  have hi := (Frame.Follows.codeAt (f := s.current) hcode (le_refl _)).head
  have hexec : TableState.exec m frame ⟨s.size, ρ, tables ++ [T]⟩ (.abc .setList table count batch)
      = some ⟨s.size + 1, ρ, tables ++ [T.setItems m ((batch - 1) * 50 + 1)
          ((List.range' (table + 1) count).map ρ)]⟩ :=
    TableState.exec_setList hcount hbatch htable
  have hsize : t.size = s.size + 1 := by
    rw [Session.size, hcurrent]
    simp [OpenFunction.emit, downTo, Session.size]
  rw [hsize, List.map_nil, List.append_nil]
  exact ⟨ρ, .single hi hexec, fun _ _ ↦ rfl⟩

namespace Session.Stores

/-- An item is computed, and then it is the last of those that are pending. -/
theorem cons {element : Option Expr} {rest : List (Option Expr)} {first pending : Nat}
    (hs : s.Ready) (hlo : s.current.registers.numLocals ≤ table)
    (hnext : s.current.registers.next = table + 1 + pending)
    (hitem : ∀ tables, s.Computed (m.withTables tables) (.register s.current.registers.next) u
      fun scope ↦ (m.withTables tables).element types scope element)
    (hrest : u.Stores m types table first (pending + 1) rest t) :
    s.Stores m types table first pending (element :: rest) t := by
  have hadvances := (hitem []).advances hs
  refine { hadvances.trans hrest.toAdvances with next := hrest.next, runs := ?_ }
  intro outer frame values ρ tables T hframe hρ htable
  obtain ⟨ρ₁, hsteps₁, hkeep₁, hx⟩ :=
    (hitem (tables ++ [T])).steps hs (hframe.left hrest.kept) hρ
  have hρ₁ : ∀ r < u.current.registers.numLocals, ρ₁ r = .value (values r) := by
    intro r hr
    rw [hadvances.numLocals] at hr
    rw [hkeep₁ r (by omega), hρ r hr]
  have htable₁ : ρ₁ table = .table tables.length := (hkeep₁ table (by omega)).trans htable
  obtain ⟨ρ₂, hsteps₂, hkeep₂⟩ := hrest.runs outer frame values ρ₁ tables T
    (hframe.right hadvances.kept.size_le) hρ₁ htable₁
  refine ⟨ρ₂, hsteps₁.trans ?_, fun r hr ↦ (hkeep₂ r hr).trans (hkeep₁ r (by omega))⟩
  rw [hnext] at hkeep₁ hx
  rwa [map_range'_succ hkeep₁ (Option.some.inj hx), hadvances.scope_eq, List.append_assoc,
    List.singleton_append] at hsteps₂

/-- With nothing pending, the registers do not matter. -/
theorem changes {elements : List (Option Expr)} {first : Nat}
    (h : s.Stores m types table first 0 elements t) :
    s.Changes m table (fun scope _ T ↦ T.setItems m first
      (elements.map fun e ↦ .value (m.element types scope e))) t := h

/-- The pending items are stored, and then more items. -/
theorem append {rest : List (Option Expr)} {first count : Nat}
    (hlo : s.current.registers.numLocals ≤ table)
    (hbatch : s.Stores m types table first count [] u)
    (hrest : u.Stores m types table (first + count) 0 rest t) :
    s.Stores m types table first count rest t := by
  have h := hbatch.trans hlo hrest.changes
  simpa only [Session.Stores, List.map_nil, List.append_nil, Table.setItems_append,
    List.length_map, List.length_range'] using h

end Session.Stores

/-- The invariant of the loop: the pending items are in the registers above the table, and what has
been stored before are whole groups. -/
theorem stores_arrayItems {elements : List (Option Expr)}
    (hpure : ∀ e, some e ∈ elements → e.isPure = true) {pending batch : Nat} (hs : s.Ready)
    (hlo : s.current.registers.numLocals ≤ table)
    (hnext : s.current.registers.next = table + 1 + pending) (hpending : pending < batchSize)
    (hbatch : 0 < batch) (h : Lower.arrayItems types table pending batch elements s = .ok () t) :
    s.Stores m types table ((batch - 1) * 50 + 1) pending elements t := by
  induction elements generalizing s pending batch with
  | nil =>
    rw [Lower.arrayItems] at h
    split at h
    case isTrue hpos => exact stores_batch hs hlo hnext hpos hbatch h
    case isFalse hpos =>
      cases h
      obtain rfl : pending = 0 := by omega
      exact .refl hs hnext
  | cons element rest ih =>
    rw [Lower.arrayItems] at h
    obtain ⟨_, u, hitem, h⟩ := bind_eq_ok h
    have hcomputed (tables : List (Table V)) := computed_arrayItem (M := m.withTables tables)
      (fun e he ↦ hpure e (by rw [← he]; exact List.mem_cons_self)) hs hitem
    have hadvances := (hcomputed []).2.advances hs
    have hlo₁ := hadvances.numLocals.trans_le hlo
    have hnext₁ : u.current.registers.next = table + 1 + (pending + 1) := by
      rw [(hcomputed []).1, hnext, Nat.add_assoc]
    have hpure₁ : ∀ e, some e ∈ rest → e.isPure = true :=
      fun e he ↦ hpure e (List.mem_cons_of_mem _ he)
    refine .cons hs hlo hnext (fun tables ↦ (hcomputed tables).2) ?_
    split at h
    case isTrue hfull =>
      obtain ⟨_, w, hstore, hrest⟩ := bind_eq_ok h
      have hgroup : u.Stores m types table ((batch - 1) * 50 + 1) (pending + 1) [] w :=
        stores_batch hadvances.ready hlo₁ hnext₁ (Nat.succ_pos pending) hbatch hstore
      have hlater := ih hpure₁ hgroup.ready (hgroup.numLocals.trans_le hlo₁) hgroup.next (by decide)
        (Nat.succ_pos batch) hrest
      have hfirst : (batch + 1 - 1) * 50 + 1 = (batch - 1) * 50 + 1 + (pending + 1) := by
        rw [batchSize] at hfull
        omega
      rw [hfirst] at hlater
      exact .append hlo₁ hgroup hlater
    case isFalse hroom => exact ih hpure₁ hadvances.ready hlo₁ hnext₁ (by omega) hbatch h

/-! ## The first element -/

theorem OpenFunction.FirstSet.upvalues {f g : OpenFunction} {v : Value} {lo : Nat}
    (h : f.FirstSet v table lo g) : g.proto.upvalues = f.proto.upvalues := by
  obtain ⟨value, f₁, key, f₂, hvalue, -, -, hkey, rfl⟩ := h
  exact hkey.upvalues.trans hvalue.upvalues

/-- The value is placed first, and stays where it is when the key has been placed too. -/
theorem steps_firstSet {f g : OpenFunction} {v : Value} {lo : Nat} {x : Datum V}
    (hm : m.HasIntegers) (h : f.FirstSet v table lo g) (hv : f.Holds v lo f.registers.next)
    (hf : f.registers.Tidy) (hlo : f.registers.numLocals ≤ lo) (htable : table < lo)
    (hframe : frame.Serves m outer f g)
    (hx : frame.value? (m.withTables (tables ++ [T])) ρ v = some x)
    (ha : ρ table = .table tables.length) :
    ∃ ρ', TableState.Steps m frame ⟨f.proto.code.size, ρ, tables ++ [T]⟩
        ⟨g.proto.code.size, ρ', tables ++ [Function.update T (m.key 0) x]⟩ ∧
      ∀ r < lo, ρ' r = ρ r := by
  obtain ⟨value, f₁, key, f₂, hvalue, hf₁, hlo₁, hkey, rfl⟩ := h
  have hvalue₁ := hvalue.holds hv
  obtain ⟨w, -, -, hplaced⟩ := id hvalue
  obtain ⟨w', -, -, hplacedKey⟩ := id hkey
  have hcode₂ : frame.Follows f.proto.code.size f₂ := Frame.Follows.of_emit (f := f₂) hframe.follows
  have hsize₁ := hplaced.kept.size_le
  have hsize₂ := hsize₁.trans hplacedKey.kept.size_le
  have hprovides₂ : frame.Provides (m.withTables (tables ++ [T])) (fun x ↦ .value (outer x)) f₂ :=
    ⟨hframe.provides.constant, hframe.provides.upvalue⟩
  obtain ⟨ρ₁, hsteps₁, hkeep₁, hx₁⟩ := steps_operand hvalue hv hf hlo
    (Frame.Follows.of_kept (f := f₁.intern (.integer 0)) hcode₂ hplacedKey.kept) (le_refl _) hx
  obtain ⟨ρ₂, hsteps₂, hkeep₂, hkey₂⟩ := steps_operand (f := f₁.intern (.integer 0)) hkey
    (holds_intern f₁ _) hf₁ hf₁.numLocals_le hcode₂ hsize₁
    (value?_intern (ρ := ρ₁) (hprovides₂.of_kept hplacedKey.kept))
  have hx₂ : frame.operand? ρ₂ value = some x :=
    (operand?_of_holds hvalue₁ hlo₁ hkeep₂).trans hx₁
  have hkeep : ∀ r < lo, ρ₂ r = ρ r := fun r hr ↦
    (hkeep₂ r (hr.trans_le hvalue₁.le)).trans (hkeep₁ r hr)
  have hi := (Frame.Follows.codeAt (f := f₂) hframe.follows hsize₂).head
  have hexec : TableState.exec m frame ⟨f₂.proto.code.size, ρ₂, tables ++ [T]⟩
      (.abc .setTable table key value) =
        some ⟨f₂.proto.code.size + 1, ρ₂, tables ++ [Function.update T (m.key 0) x]⟩ :=
    TableState.exec_setTable (hm.key_ne_nil 0) hkey₂ hx₂ ((hkeep table htable).trans ha)
  refine ⟨ρ₂, ((TableState.Steps.of_steps hsteps₁).trans (.of_steps hsteps₂)).trans ?_, hkeep⟩
  simpa [OpenFunction.emit, downTo] using TableState.Steps.single hi hexec

theorem changes_setFirst {first : Expr} (hfirst : first.isPure = true) (hm : m.HasIntegers)
    (hs : s.Ready) (hnext : s.current.registers.next = table + 1) {v : Value}
    (hexpr : Lower.expr types first s = .ok v t)
    (h : Lower.onCurrent (Build.setFirst table v) t = .ok () u) :
    s.Changes m table (fun scope _ T ↦
      Function.update T (m.key 0) (.value (m.eval types scope first))) u := by
  have hcomputed (tables : List (Table V)) :
      s.Computed (m.withTables tables) v t fun scope ↦
        (m.withTables tables).element types scope (some first) :=
    simulates_expr types first hfirst s v t hs hexpr
  have hadvances := (hcomputed []).advances hs
  have hlo := (hcomputed []).numLocals_le hs
  have hholds := (hcomputed []).holds
  rw [hnext] at hlo hholds
  obtain ⟨hsecond, hset⟩ := Session.Advances.of_onCurrent
    (builds_setFirst (Nat.lt_succ_self table) hlo hholds) hadvances.ready h fun _ _ h ↦ h.upvalues
  refine { hadvances.trans hsecond with next := ?_, runs := ?_ }
  · obtain ⟨_, _, _, _, _, _, _, _, hcurrent⟩ := hset
    rw [hcurrent]
    rfl
  intro outer frame values ρ tables T hframe hρ htable
  obtain ⟨ρ₁, hsteps₁, hkeep₁, hx⟩ :=
    (hcomputed (tables ++ [T])).steps hs (hframe.left hsecond.kept) hρ
  rw [hnext] at hkeep₁
  obtain ⟨ρ₂, hsteps₂, hkeep₂⟩ := steps_firstSet hm hset hholds hadvances.ready.tidy hlo
    (Nat.lt_succ_self table) (hframe.right hadvances.kept.size_le) hx
    ((hkeep₁ table (Nat.lt_succ_self table)).trans htable)
  refine ⟨ρ₂, hsteps₁.trans hsteps₂, fun r hr ↦ ?_⟩
  rw [hkeep₂ r (Nat.lt_succ_of_le hr), hkeep₁ r (Nat.lt_succ_of_le hr)]

/-! ## Whole arrays -/

/-- The elements of an array are lowered, when there is a table for them. -/
def Session.LowersElements (types : TypeOracle) (table : Nat) (s t : Session) :
    List (Option Expr) → Prop
  | [] => t = s
  | none :: rest => Lower.arrayItems types table 0 1 rest s = .ok () t
  | some first :: rest => ∃ w v w', Lower.arrayItems types table 0 1 rest s = .ok () w ∧
    Lower.expr types first w = .ok v w' ∧ Lower.onCurrent (Build.setFirst table v) w' = .ok () t

theorem expr_array_eq_ok {elements : List (Option Expr)} {v : Value}
    (h : Lower.expr types (.array elements) s = .ok v t) :
    elements.length ≤ maxArrayLength ∧ ∃ table u,
      Lower.onCurrent (Build.newTable (elements.length - 1) (min elements.length 1)) s =
        .ok table u ∧ v = .register table ∧ u.LowersElements types table t elements := by
  rw [Lower.expr] at h
  split at h
  case isTrue => cases h
  case isFalse hlength =>
    obtain ⟨table, u, htable, h⟩ := bind_eq_ok h
    refine ⟨Nat.le_of_not_lt hlength, table, u, htable, ?_⟩
    split at h
    · cases h
      exact ⟨rfl, rfl⟩
    · obtain ⟨_, _, hitems, ⟨⟩⟩ := bind_eq_ok h
      exact ⟨rfl, hitems⟩
    · obtain ⟨_, w, hitems, h⟩ := bind_eq_ok h
      obtain ⟨v, w', hfirst, h⟩ := bind_eq_ok h
      obtain ⟨_, _, hset, ⟨⟩⟩ := bind_eq_ok h
      exact ⟨rfl, w, v, w', hitems, hfirst, hset⟩

/-- The code of the elements puts them into the table. -/
theorem changes_elements {elements : List (Option Expr)}
    (hlength : elements.length ≤ maxArrayLength)
    (hpure : ∀ e, some e ∈ elements → e.isPure = true) (hm : m.HasIntegers) (hs : s.Ready)
    (hlo : s.current.registers.numLocals ≤ table)
    (hnext : s.current.registers.next = table + 1)
    (h : s.LowersElements types table t elements) :
    ∃ change : Scope V → Table V → Table V,
      s.Changes m table (fun scope _ ↦ change scope) t ∧
      ∀ scope, (change scope m.emptyTable).Lists m
        (elements.map fun e ↦ .value (m.element types scope e)) := by
  cases elements with
  | nil =>
    obtain rfl : t = s := h
    exact ⟨fun _ T ↦ T, .refl hs hnext, fun _ ↦ ⟨by simp, fun _ _ ↦ rfl⟩⟩
  | cons element rest =>
    have hrest : ∀ e, some e ∈ rest → e.isPure = true :=
      fun e he ↦ hpure e (List.mem_cons_of_mem _ he)
    have hsmall (scope : Scope V) :
        1 + (rest.map fun e ↦ Datum.value (m.element types scope e)).length ≤ 2 ^ 63 := by
      rw [List.length_cons, maxArrayLength] at hlength
      rw [List.length_map]
      omega
    cases element with
    | none =>
      have hitems := stores_arrayItems (m := m) hrest hs hlo hnext (by decide) Nat.one_pos h
      refine ⟨_, hitems.changes, fun scope ↦ ?_⟩
      refine Table.lists_cons hm (hsmall scope) ?_ fun _ _ ↦ rfl
      apply Table.setItems_of_ne
      intro i hi h
      have hzero := hm.key_injOn (by decide) (by have := hsmall scope; omega) h
      omega
    | some first =>
      obtain ⟨w, v, w', hitems, hfirst, hset⟩ := h
      have hitems := stores_arrayItems (m := m) hrest hs hlo hnext (by decide) Nat.one_pos hitems
      have hlast := changes_setFirst (hpure first List.mem_cons_self) hm hitems.ready hitems.next
        hfirst hset
      refine ⟨_, hitems.changes.trans hlo hlast, fun scope ↦ ?_⟩
      refine Table.lists_cons hm (hsmall scope) (Function.update_self _ _ _) ?_
      exact fun key hkey ↦ Function.update_of_ne hkey _ _

theorem steps_newTable {b c : Nat}
    (hu : u.current = s.current.taken.emit [.abc .newTable s.current.registers.next b c])
    (hframe : frame.Serves m outer s.current u.current) :
    TableState.Steps m frame ⟨s.size, ρ, tables⟩ ⟨u.size,
      Function.update ρ s.current.registers.next (.table tables.length),
      tables ++ [m.emptyTable]⟩ := by
  have hcode := hframe.follows
  rw [hu] at hcode
  have hi := (Frame.Follows.codeAt (f := s.current.taken) hcode (le_refl _)).head
  have hsize : u.size = s.size + 1 := by
    rw [Session.size, hu]
    simp [OpenFunction.emit, taken, Session.size]
  rw [hsize]
  exact .single hi rfl

theorem setList_of_expr {e : Expr} {v : Value} (hs : s.Ready)
    (h : Lower.expr types e s = .ok v t) {pc a b c : Nat} (hpc : s.size ≤ pc)
    (hcode : t.current.proto.code[pc]? = some (.abc .setList a b c)) : 1 ≤ b ∧ b ≤ 50 ∧ 1 ≤ c := by
  obtain ⟨code, ht, hblock⟩ := exists_expr_block types e hs h
  rw [ht, Array.getElem?_append_right hpc] at hcode
  have hi : .abc .setList a b c ∈ code := by simpa using Array.mem_of_getElem? hcode
  obtain ⟨hc, hpos, hb⟩ := of_decide_eq_true (hblock.isPlain_of_setList hi)
  exact ⟨hpos, hb, Nat.pos_of_ne_zero hc⟩

/-- The code of an array literal without effects makes a new table with every element under its
position and nothing else. Items are stored in counted groups of at most fifty. -/
theorem array_literal_builds (types : TypeOracle) (elements : List (Option Expr)) (s t : Session)
    (v : Value) (hs : s.Ready) (hpure : ∀ e, some e ∈ elements → e.isPure = true)
    (hrun : Lower.expr types (.array elements) s = .ok v t) :
    v = .register s.current.registers.next ∧
    (∀ pc a b c, s.size ≤ pc → t.current.proto.code[pc]? = some (.abc .setList a b c) →
      1 ≤ b ∧ b ≤ 50 ∧ 1 ≤ c) ∧
    ∀ (V : Type) [DecidableEq V] (m : Meaning V) (outer : String → V) (frame : Frame (Datum V))
      (values : Nat → V) (ρ : Nat → Datum V) (tables : List (Table V)), m.HasIntegers →
      frame.Serves m outer s.current t.current →
      (∀ r < s.current.registers.numLocals, ρ r = .value (values r)) →
      ∃ ρ' T, TableState.Steps m frame ⟨s.size, ρ, tables⟩ ⟨t.size, ρ', tables ++ [T]⟩ ∧
        ρ' s.current.registers.next = .table tables.length ∧
        (∀ r < s.current.registers.next, ρ' r = ρ r) ∧
        T.Lists m (elements.map fun e ↦ .value (m.element types (s.scope outer values) e)) := by
  obtain ⟨hlength, table, u, htable, rfl, helements⟩ := expr_array_eq_ok hrun
  obtain ⟨hadvances, rfl, hcurrent⟩ := Session.Advances.of_onCurrent
    (builds_newTable _ _) hs htable (by rintro _ _ ⟨-, rfl⟩; rfl)
  refine ⟨rfl, fun pc a b c ↦ setList_of_expr hs hrun, ?_⟩
  intro V _ m outer frame values ρ tables hm hframe hρ
  have hlo := hadvances.numLocals.trans_le hs.tidy.numLocals_le
  have hnext : u.current.registers.next = s.current.registers.next + 1 := by
    rw [hcurrent]
    rfl
  obtain ⟨change, hchanges, hlists⟩ :=
    changes_elements hlength hpure hm hadvances.ready hlo hnext helements
  have hmake : TableState.Steps m frame ⟨s.size, ρ, tables⟩ ⟨u.size,
      Function.update ρ s.current.registers.next (.table tables.length),
      tables ++ [m.emptyTable]⟩ := steps_newTable hcurrent (hframe.left hchanges.kept)
  have hkeep : ∀ r < s.current.registers.next,
      Function.update ρ s.current.registers.next (.table tables.length) r = ρ r :=
    fun r hr ↦ Function.update_of_ne hr.ne _ _
  have hρ₁ : ∀ r < u.current.registers.numLocals,
      Function.update ρ s.current.registers.next (.table tables.length) r = .value (values r) := by
    intro r hr
    rw [hkeep r (hr.trans_le hlo), hρ r (hadvances.numLocals ▸ hr)]
  obtain ⟨ρ', hsteps, hkeep'⟩ := hchanges.runs outer frame values _ tables m.emptyTable
    (hframe.right hadvances.kept.size_le) hρ₁ (Function.update_self _ _ _)
  refine ⟨ρ', _, hmake.trans hsteps, ?_, fun r hr ↦ (hkeep' r hr.le).trans (hkeep r hr), ?_⟩
  · rw [hkeep' _ (le_refl _), Function.update_self]
  · rw [hadvances.scope_eq]
    exact hlists _

/-- Constants as values, of which integers can be added. -/
def Meaning.constants : Meaning Constant where
  constant c := c
  truthy c := c ≠ .nil ∧ c ≠ .boolean false
  add
    | .integer i, .integer j => .integer (i + j)
    | _, _ => .nil
  sub _ _ := .nil
  mul _ _ := .nil
  div _ _ := .nil
  mod _ _ := .nil
  pow _ _ := .nil
  band _ _ := .nil
  bor _ _ := .nil
  bxor _ _ := .nil
  shl _ _ := .nil
  shr _ _ := .nil
  concat _ _ := .nil
  minus _ := .nil
  bnot _ := .nil
  not _ := .nil
  eq x y := x = y
  lt _ _ := false
  le _ _ := false
  index _ _ := .nil

theorem Meaning.hasIntegers_constants : Meaning.constants.HasIntegers :=
  ⟨fun _ _ ↦ Constant.integer.inj, nofun⟩

/-- `[true, , …, , a + b]`, with fifty holes. -/
def sparseArray : List (Option Expr) :=
  some (.literal (.boolean true)) :: (List.replicate 50 none ++
    [some (.binary .add (.identifier "a") (.identifier "b"))])

/-- The last element is alone in the second group of list items. -/
theorem array_literal_builds_sparseArray :
    Session.twoLocals.Ready ∧ ∃ v t,
      Lower.expr (SyntaxOracle.oracle {}) (.array sparseArray) Session.twoLocals = .ok v t ∧
      ∃ ρ' T, TableState.Steps .constants
          (Frame.ofPrototype (Meaning.constants.withTables []) (fun _ ↦ .value .nil)
            t.current.close)
          ⟨0, fun r ↦ .value (.integer (if r = 0 then 40 else 2)), []⟩ ⟨t.size, ρ', [T]⟩ ∧
        ρ' 3 = .table 0 ∧
        T (Meaning.constants.key 0) = .value (.boolean true) ∧
        T (Meaning.constants.key 1) = .value .nil ∧
        T (Meaning.constants.key 51) = .value (.integer 42) ∧
        T (Meaning.constants.key 52) = .value .nil := by
  have hready : Session.twoLocals.Ready := ⟨rfl, rfl, by decide, le_refl 3, by decide⟩
  refine ⟨hready, ?_⟩
  obtain ⟨t, hrun⟩ : ∃ t, Lower.expr (SyntaxOracle.oracle {}) (.array sparseArray)
      Session.twoLocals = .ok (.register 3) t := exists_ok_of_run (by decide +kernel)
  have hall : sparseArray.all (·.all Expr.isPure) = true := rfl
  have hpure : ∀ e, some e ∈ sparseArray → e.isPure = true :=
    fun e he ↦ List.all_eq_true.mp hall (some e) he
  obtain ⟨-, -, hruns⟩ :=
    array_literal_builds _ sparseArray Session.twoLocals t _ hready hpure hrun
  obtain ⟨ρ', T, hsteps, hresult, -, hlists⟩ := hruns Constant .constants (fun _ ↦ .nil)
    (Frame.ofPrototype (Meaning.constants.withTables []) (fun _ ↦ .value .nil) t.current.close)
    (fun r ↦ .integer (if r = 0 then 40 else 2)) _ [] Meaning.hasIntegers_constants
    ⟨provides_close _ _ _, follows_close _ _ _⟩ fun _ _ ↦ rfl
  refine ⟨_, t, hrun, ρ', T, hsteps, hresult, hlists.item 0 _ rfl, hlists.item 1 _ rfl,
    hlists.item 51 _ ?_, hlists.other _ ?_⟩
  · decide +kernel
  · intro i hi h
    have hlt : i < 52 := hi
    have := Meaning.hasIntegers_constants.key_injOn (by decide) (by omega) h
    omega

end LuaLower
