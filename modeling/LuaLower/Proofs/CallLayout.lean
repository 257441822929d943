import LuaLower.Proofs.ControlFlow
import LuaLower.Proofs.Lowering.Operands
import LuaLower.Proofs.Lowering.Reachability
import LuaLower.Proofs.SemanticPreservation

/-!
# The layout of calls

A call finds its callee in the register that was free when it began, and its arguments in the
registers above, in the order of the source. The code for each of them loads its value there, and
nothing that comes before the call writes the register again. Where the last argument is itself a
call, the number of its results is open: the call instruction that leaves them there is followed at
once by the one that takes them.
-/

namespace LuaLower

open OpenFunction Build Machine

variable {types : TypeOracle} {options : Options} {program : List Stmt} {p q : Prototype}
  {code : Array Instruction} {pc r : Nat} {e callee arg : Expr} {es args : List Expr}
  {use : ResultUse} {isOpen : Bool} {v : Value} {V : Type} {m : Meaning V} {s t u : Session}

/-! ## Open calls -/

/-- The results of a call that leaves an open number of them are taken by the next instruction,
unless the piece of code ends there and is open itself. -/
theorem Block.results_taken {W : Nat → Prop} {is : List Instruction} (h : Block W isOpen is)
    {a b : Nat} (hcall : is[pc]? = some (.abc .call a b 0)) :
    (∃ a' c, is[pc + 1]? = some (.abc .call a' 0 c)) ∨ isOpen = true ∧ pc + 1 = is.length := by
  induction h generalizing pc with
  | nil => cases hcall
  | @append isOpen is js _ _ ih ih' =>
    rcases Nat.lt_or_ge pc is.length with hlt | hge
    · rw [List.getElem?_append_left hlt] at hcall
      obtain ⟨a', c, hnext⟩ | ⟨hopen, -⟩ := ih hcall
      · left
        refine ⟨a', c, ?_⟩
        rw [List.getElem?_append_left (List.getElem?_eq_some_iff.mp hnext).1]
        exact hnext
      · cases hopen
    · obtain ⟨k, rfl⟩ := Nat.exists_eq_add_of_le hge
      rw [List.getElem?_append_right hge, Nat.add_sub_cancel_left] at hcall
      rw [Nat.add_assoc, List.getElem?_append_right (Nat.le_add_right _ _),
        Nat.add_sub_cancel_left, List.length_append]
      refine (ih' hcall).imp id fun hend ↦ ⟨hend.1, ?_⟩
      rw [hend.2]
  | plain hplain _ =>
    rw [List.getElem?_singleton] at hcall
    split at hcall <;> cases hcall
    cases hplain
  | wide k _ =>
    match pc with
    | 0 | 1 => cases hcall
  | comparison _ _ _ hop _ =>
    match pc with
    | 0 => rcases hop with rfl | rfl | rfl <;> cases hcall
    | 1 | 2 | 3 => cases hcall
  | guarded src decides _ _ _ ih =>
    match pc with
    | 0 | 1 => cases hcall
    | k + 2 => exact (ih hcall).imp id fun hend ↦ absurd hend.1 nofun
  | @call isOpen args base b' c _ hb _ ih =>
    rcases Nat.lt_or_ge pc args.length with hlt | hge
    · rw [List.getElem?_append_left hlt] at hcall
      left
      obtain ⟨a', c', hnext⟩ | ⟨hopen, hend⟩ := ih hcall
      · refine ⟨a', c', ?_⟩
        rw [List.getElem?_append_left (List.getElem?_eq_some_iff.mp hnext).1]
        exact hnext
      · refine ⟨base, c, ?_⟩
        rw [hend, hb.mpr hopen, List.getElem?_concat_length]
    · right
      have hlength := (List.getElem?_eq_some_iff.mp hcall).1
      rw [List.length_append, List.length_singleton] at hlength ⊢
      obtain rfl : pc = args.length := by omega
      rw [List.getElem?_concat_length] at hcall
      cases hcall
      exact ⟨rfl, rfl⟩

/-! ## Arguments -/

/-- Whether the last of the arguments of a call is itself a call. -/
def endsInCall (args : List Expr) : Bool := args.getLast?.any Expr.isCall

theorem endsInCall_cons (arg : Expr) (args : List Expr) :
    endsInCall (arg :: args) = if args = [] then arg.isCall else endsInCall args := by
  cases args with
  | nil => rfl
  | cons next rest => simp [endsInCall]

theorem isOpen_of_arguments (h : Lower.arguments types args s = .ok isOpen t) :
    isOpen = endsInCall args := by
  induction args generalizing s with
  | nil =>
    cases h
    rfl
  | cons arg args ih =>
    rw [endsInCall_cons]
    obtain ⟨r, u, -, hrest, hcall⟩ | ⟨callee, inner, base, rfl, rfl, rfl, -⟩ :=
      arguments_cons_eq_ok h
    · rw [ih hrest]
      split
      · simp_all [endsInCall]
      · rfl
    · rfl

/-- The results of a call that is forwarded are left by its last instruction. -/
theorem openCall_of_callWith (h : Lower.callWith (Lower.expr types callee)
      (Lower.arguments types args) args.length .forward s = .ok r t) :
    ∃ n b, s.size ≤ n ∧ t.size = n + 1 ∧
      t.current.proto.code[n]? = some (.abc .call r b 0) := by
  obtain ⟨v, t₁, t₂, isOpen, t₃, hcallee, hnew, hargs, hend⟩ := callWith_eq_ok h
  have hinto : EvaluatesInto types callee r s t₂ := .loaded hcallee hnew
  have hcontinues := hinto.continues.trans ((Task.arguments args).continues types _ _ _ hargs)
  have hcode := code_of_call (Lower.onCurrent_eq_ok hend).1
  refine ⟨t₃.size, if isOpen then 0 else args.length + 1, hcontinues.size_le, ?_, ?_⟩
  · rw [Session.size, hcode, Array.size_push]
  · rw [hcode, Array.getElem?_push_size]
    rfl

/-- Open results are left by a call from the register of the last argument on. -/
theorem openCall_of_arguments (hs : s.Ready) (h : Lower.arguments types args s = .ok true t) :
    ∃ n a b, s.size ≤ n ∧ t.size = n + 1 ∧
      t.current.proto.code[n]? = some (.abc .call a b 0) ∧
      a + 1 = s.current.registers.next + args.length := by
  induction args generalizing s with
  | nil => cases h
  | cons arg args ih =>
    obtain ⟨r, u, harg, hrest, -⟩ | ⟨callee, inner, base, rfl, rfl, -, hcall⟩ :=
      arguments_cons_eq_ok h
    · obtain ⟨hsu, -, hnext⟩ := harg.appends hs (hs.covers_outside _)
      obtain ⟨n, a, b, hn, hsize, hcode, ha⟩ := ih hsu.ready hrest
      refine ⟨n, a, b, harg.continues.size_le.trans hn, hsize, hcode, ?_⟩
      rw [ha, hnext, List.length_cons]
      omega
    · obtain ⟨-, rfl, -⟩ := (EvaluatesInto.forwarded hcall).appends hs (hs.covers_outside _)
      obtain ⟨n, b, hn, hsize, hcode⟩ := openCall_of_callWith hcall
      exact ⟨n, _, b, hn, hsize, hcode, rfl⟩

/-! ## Values in registers -/

/-- Whatever a description stands for, running the code from one position to another puts it into a
register and changes no other register. -/
def Value.LoadedBy (v : Value) (code : Array Instruction) (r start stop : Nat) : Prop :=
  ∀ (V : Type) (m : Meaning V) (frame : Frame V) (ρ : Nat → V) (x : V), frame.code = code →
    frame.value? m ρ v = some x → Steps m frame ⟨start, ρ⟩ ⟨stop, Function.update ρ r x⟩

theorem loadedBy_of_inNewRegister {lo : Nat} (hs : s.Ready)
    (hlo : s.current.registers.numLocals ≤ lo)
    (hv : s.current.Holds v lo s.current.registers.next)
    (h : Lower.onCurrent (inNewRegister v) s = .ok r t) (hcode : t.StaysIn s.size code) :
    v.LoadedBy code r s.size t.size := by
  obtain ⟨-, ⟨rfl, ht⟩, -⟩ := onCurrent_result (builds_inNewRegister hlo hv) hs (le_refl _) h
  rintro V m frame ρ x rfl hx
  have hfollows : frame.Follows s.size t.current := hcode
  rw [ht] at hfollows
  have hat := Frame.Follows.codeAt (f := (s.current.downTo r).taken) hfollows (le_refl _)
  have hsteps := steps_load hv hlo (next_le_256 hs.tidy) hat hx
  rw [Session.size, Session.size, ht]
  simpa [loading, OpenFunction.emit, taken, downTo] using hsteps

/-- The value of an expression is loaded into the register, or the results of a call are left there
by the call. -/
theorem EvaluatesInto.left (h : EvaluatesInto types e r s t) (hs : s.Ready)
    (hcode : t.StaysIn s.size code) :
    (∃ v u, Lower.expr types e s = .ok v u ∧ v.LoadedBy code r u.size t.size) ∨
      e.isCall = true ∧ ∃ n b, t.size = n + 1 ∧ code[n]? = some (.abc .call r b 0) := by
  cases h with
  | @loaded _ v _ _ u _ hexpr hplace =>
    obtain ⟨hsu, hv⟩ := appends_expr hs (hs.covers_outside _) hexpr
    have hlo := hsu.numLocals.trans_le hs.tidy.numLocals_le
    have hsize : s.size ≤ u.size := (continues_expr hexpr).size_le
    exact .inl ⟨v, u, hexpr, loadedBy_of_inNewRegister hsu.ready hlo hv hplace (hcode.mono hsize)⟩
  | forwarded hcall =>
    obtain ⟨n, b, hn, hsize, hlast⟩ := openCall_of_callWith hcall
    exact .inr ⟨rfl, n, b, hsize, (hcode n hn (by omega)).trans hlast⟩

/-! ## The registers of a call -/

/-- An expression is evaluated between two sessions, its value is left in register `r`, and nothing
overwrites it before position `pc`. -/
structure Delivers (types : TypeOracle) (code : Array Instruction) (pc : Nat) (e : Expr) (r : Nat)
    (s t : Session) : Prop where
  evaluates : EvaluatesInto types e r s t
  staysIn : t.StaysIn s.size code
  left : (∃ v u, Lower.expr types e s = .ok v u ∧ v.LoadedBy code r u.size t.size) ∨
    e.isCall = true ∧ ∃ n b, t.size = n + 1 ∧ code[n]? = some (.abc .call r b 0)
  kept : ∀ j i, t.size ≤ j → j < pc → code[j]? = some i → i.writes r = false

/-- From a session on, expressions are delivered one after the other in consecutive registers, of
which `r` is the first. The code for that reaches up to position `pc`. -/
inductive LaidOut (types : TypeOracle) (code : Array Instruction) (pc : Nat) :
    Nat → List Expr → Session → Prop
  | nil {r : Nat} {s : Session} : s.size = pc → LaidOut types code pc r [] s
  | cons {r : Nat} {e : Expr} {es : List Expr} {s t : Session} : Delivers types code pc e r s t →
    LaidOut types code pc (r + 1) es t → LaidOut types code pc r (e :: es) s

/-- What follows an evaluation in the same call does not write its register. -/
theorem Session.Appends.spares {j : Nat} {i : Instruction} {start : Nat}
    (h : t.Appends (fun r ↦ r < t.current.registers.numLocals ∨ t.current.registers.next ≤ r) u)
    (hu : u.StaysIn start code) (hstart : start ≤ t.size)
    (hlocal : t.current.registers.numLocals ≤ r) (hnext : r < t.current.registers.next)
    (hj : t.size ≤ j) (hlt : j < u.size) (hi : code[j]? = some i) : i.writes r = false := by
  by_contra hwrites
  rw [hu j (hstart.trans hj) hlt] at hi
  have hr := h.writes hj hi (by simpa using hwrites)
  omega

theorem laidOut_cons (hs : s.Ready) (harg : EvaluatesInto types arg r s u)
    (hrest : Lower.arguments types args u = .ok isOpen t) (hcode : t.StaysIn s.size code)
    (hlaid : LaidOut types code t.size u.current.registers.next args u) :
    LaidOut types code t.size s.current.registers.next (arg :: args) s := by
  obtain ⟨hsu, rfl, hnext⟩ := harg.appends hs (hs.covers_outside _)
  have hlocals := hsu.numLocals.trans_le hs.tidy.numLocals_le
  have hafter := (appends_arguments hsu.ready (hsu.ready.covers_outside _) hrest).1
  have hu := hcode.earlier ((Task.arguments args).continues types _ _ _ hrest)
  refine .cons ⟨harg, hu, harg.left hs hu, ?_⟩ (hnext ▸ hlaid)
  intro j i hj hlt hi
  exact hafter.spares hcode harg.continues.size_le hlocals (by omega) hj hlt hi

theorem laidOut_arguments (hs : s.Ready) (h : Lower.arguments types args s = .ok isOpen t)
    (hcode : t.StaysIn s.size code) :
    LaidOut types code t.size s.current.registers.next args s := by
  induction args generalizing s with
  | nil =>
    cases h
    exact .nil rfl
  | cons arg args ih =>
    obtain ⟨r, u, harg, hrest, -⟩ | ⟨callee, inner, base, rfl, rfl, -, hcall⟩ :=
      arguments_cons_eq_ok h
    · have hu : u.Ready := (harg.appends hs (hs.covers_outside _)).1.ready
      have hsize := harg.continues.size_le
      exact laidOut_cons hs harg hrest hcode (ih hu hrest (hcode.mono hsize))
    · have harg : EvaluatesInto types (.call callee inner) base s t := .forwarded hcall
      obtain ⟨-, rfl, -⟩ := harg.appends hs (hs.covers_outside _)
      refine .cons ⟨harg, hcode, harg.left hs hcode, ?_⟩ (.nil rfl)
      intro j i hj hlt
      omega

/-! ## Arguments without effects at work -/

/-- Running the code between two sessions leaves the values of expressions in the registers from the
first free one on, and the registers below as they were. -/
def Arranges (m : Meaning V) (types : TypeOracle) (es : List Expr) (s t : Session) : Prop :=
  ∀ (outer : String → V) (frame : Frame V) (ρ : Nat → V), frame.Provides m outer t.current →
    frame.Follows s.size t.current → ∃ σ, Steps m frame ⟨s.size, ρ⟩ ⟨t.size, σ⟩ ∧
      (∀ i e, es[i]? = some e →
        σ (s.current.registers.next + i) = m.eval types (s.scope outer ρ) e) ∧
      ∀ r < s.current.registers.next, σ r = ρ r

theorem EvaluatesInto.computed (m : Meaning V) (h : EvaluatesInto types e r s t)
    (he : e.isPure = true) (hs : s.Ready) :
    t.current.registers.next = s.current.registers.next + 1 ∧
      s.Computed m (.register s.current.registers.next) t fun scope ↦ m.eval types scope e := by
  cases h with
  | loaded hexpr hplace =>
    have hinit : InitSimulates m (some (Lower.expr types e)) fun scope ↦ m.eval types scope e :=
      simulates_expr types e he
    obtain ⟨rfl, hnext, hcomputed⟩ :=
      computed_initialValue hinit hs ((bind_of_ok hexpr).trans hplace)
    exact ⟨hnext, hcomputed⟩
  | forwarded => cases he

theorem arranges_cons (hs : s.Ready) (he : e.isPure = true) (h : EvaluatesInto types e r s u)
    (hkept : Kept u.size u.current t.current) (hrest : Arranges m types es u t) :
    Arranges m types (e :: es) s t := by
  obtain ⟨hnext, hcomputed⟩ := h.computed m he hs
  intro outer frame ρ hprovides hcode
  obtain ⟨ρ₁, hsteps₁, hkeep₁, hvalue⟩ :=
    hcomputed.leads outer frame ρ (hprovides.of_kept hkept) (hcode.of_kept hkept)
  obtain ⟨σ, hsteps, hvalues, hkeep⟩ :=
    hrest outer frame ρ₁ hprovides (hcode.mono hcomputed.kept.size_le)
  rw [hcomputed.scope_eq hs hkeep₁, hnext] at hvalues
  rw [hnext] at hkeep
  refine ⟨σ, hsteps₁.trans hsteps, ?_, ?_⟩
  · intro i e' hi
    cases i with
    | zero =>
      cases hi
      rw [Nat.add_zero, hkeep _ (Nat.lt_succ_self _)]
      exact Option.some.inj hvalue
    | succ i =>
      rw [← hvalues i e' hi, Nat.add_assoc, Nat.add_comm 1]
  · intro r hr
    rw [hkeep r (Nat.lt_succ_of_lt hr), hkeep₁ r hr]

theorem kept_arguments (hs : s.Ready) (h : Lower.arguments types args s = .ok isOpen t) :
    Kept s.size s.current t.current := by
  have hargs := translates_arguments types closesTo_trivial.block args (fun _ ↦ True) s.size s
    (.trivial s _)
  obtain ⟨hextends, -⟩ := (hargs hs (le_refl _)).result h
  exact hextends.current.kept (le_refl _)

theorem arranges_arguments (hs : s.Ready) (hargs : ∀ arg ∈ args, arg.isPure = true)
    (h : Lower.arguments types args s = .ok isOpen t) : Arranges m types args s t := by
  induction args generalizing s with
  | nil =>
    cases h
    exact fun _ _ ρ _ _ ↦ ⟨ρ, .refl _, nofun, fun _ _ ↦ rfl⟩
  | cons arg args ih =>
    obtain ⟨harg, hargs⟩ := List.forall_mem_cons.mp hargs
    obtain ⟨r, u, hinto, hrest, -⟩ | ⟨callee, inner, base, rfl, -⟩ := arguments_cons_eq_ok h
    · have hu : u.Ready := (hinto.appends hs (hs.covers_outside _)).1.ready
      exact arranges_cons hs harg hinto (kept_arguments hu hrest) (ih hu hargs hrest)
    · cases harg

/-! ## Call sites -/

/-- The call of `callee` with `args` is lowered from `s` to `t` for the function that becomes the
prototype `q`, and its instruction is at position `pc`. -/
structure CallSite (types : TypeOracle) (options : Options) (program : List Stmt) (q : Prototype)
    (pc : Nat) (callee : Expr) (args : List Expr) (use : ResultUse) (s t : Session) : Prop where
  exists_task : ∃ body entry last, Completes types options program body entry last q ∧
    s.enclosing.length = entry.enclosing.length ∧
    ∃ (task : Task) (b : task.Result), Visits types (.statements body) entry task s ∧
      task.call? = some (callee, args, use) ∧ task.lower types s = .ok b t
  size_eq : t.size = pc + 1

/-- What is known about the instruction of a call, and about the registers when it is reached. -/
structure CallLayout (types : TypeOracle) (q : Prototype) (pc : Nat) (callee : Expr)
    (args : List Expr) (use : ResultUse) (s t : Session) : Prop where
  instruction : q.code[pc]? = some (.abc .call s.current.registers.next
    (if endsInCall args then 0 else args.length + 1) use.operand)
  laidOut : LaidOut types q.code pc s.current.registers.next (callee :: args) s
  /-- Without effects, the values are those that the variables give. -/
  values : (∀ e ∈ callee :: args, e.isPure = true) →
    ∀ (V : Type) (m : Meaning V) (outer : String → V) (ρ : Nat → V),
      ∃ σ, Steps m (.ofPrototype m outer q) ⟨s.size, ρ⟩ ⟨pc, σ⟩ ∧
        (∀ i e, (callee :: args)[i]? = some e →
          σ (s.current.registers.next + i) = m.eval types (s.scope outer ρ) e) ∧
        ∀ r < s.current.registers.next, σ r = ρ r
  /-- Open results come from the call right before, and begin where the last argument belongs. -/
  forwarded : endsInCall args = true → ∃ n b, pc = n + 1 ∧
    q.code[n]? = some (.abc .call (s.current.registers.next + args.length) b 0)
  next : t.current.registers.next = use.next s.current.registers.next
  result : use = .single →
    Lower.expr types (.call callee args) s = .ok (.register s.current.registers.next) t

theorem callLayout_of_callWith {base : Nat} (hs : s.Ready)
    (h : Lower.callWith (Lower.expr types callee) (Lower.arguments types args) args.length use s =
      .ok base t) (hcode : t.StaysIn s.size q.code) (hsize : t.size = pc + 1)
    (hprovides : ∀ (V : Type) (m : Meaning V) (outer : String → V),
      (Frame.ofPrototype m outer q).Provides m outer t.current) :
    CallLayout types q pc callee args use s t := by
  have hlowers := lowers_callWith (b := 0) use (translates_expr types closesTo_trivial.block callee)
    (translates_arguments types closesTo_trivial.block args) (hs.covers_outside _)
  obtain ⟨-, -, rfl, hnext⟩ := (hlowers hs (Nat.zero_le _)).result h
  obtain ⟨v, t₁, t₂, isOpen, t₃, hcallee, hbase, hargs, hcall⟩ := callWith_eq_ok h
  have hinto : EvaluatesInto types callee s.current.registers.next s t₂ := .loaded hcallee hbase
  obtain ⟨hst₂, -, hnext₂⟩ := hinto.appends hs (hs.covers_outside _)
  have hsize₂ : s.size ≤ t₂.size := hinto.continues.size_le
  have hsize₃ : t₂.size ≤ t₃.size := ((Task.arguments args).continues types _ _ _ hargs).size_le
  have hproto := proto_of_call (Lower.onCurrent_eq_ok hcall).1
  obtain rfl : t₃.size = pc := by
    rw [Session.size, hproto, Array.size_push] at hsize
    exact Nat.succ.inj hsize
  -- Up to the call instruction the code is that of the callee and the arguments.
  have ht₃ : t₃.StaysIn s.size q.code := by
    have hworks : Works True (fun _ ↦ True) t₃.current t.current :=
      works_call trivial (Lower.onCurrent_eq_ok hcall).1
    exact hcode.earlier hworks.toContinues
  have ht₃' : t₃.StaysIn t₂.size q.code := ht₃.mono hsize₂
  obtain rfl := isOpen_of_arguments hargs
  refine {
    instruction := ?_
    laidOut := laidOut_cons hs hinto hargs ht₃ (laidOut_arguments hst₂.ready hargs ht₃')
    values := ?_
    forwarded := ?_
    next := hnext
    result := ?_ }
  · rw [hcode _ (hsize₂.trans hsize₃) (by omega), hproto, Array.getElem?_push_size]
  · intro hpure V m outer ρ
    obtain ⟨hcalleePure, hargsPure⟩ := List.forall_mem_cons.mp hpure
    have harranges := arranges_cons (m := m) hs hcalleePure hinto (kept_arguments hst₂.ready hargs)
      (arranges_arguments hst₂.ready hargsPure hargs)
    have hconstants : t₃.current.proto.constants = t.current.proto.constants := by rw [hproto]
    have hupvalues : t₃.current.proto.upvalues = t.current.proto.upvalues := by rw [hproto]
    have hprovides₃ := (hprovides V m outer).of_isPrefix (f := t₃.current)
      (hconstants ▸ List.prefix_rfl) (hupvalues ▸ List.prefix_rfl)
    exact harranges outer _ ρ hprovides₃ ht₃
  · intro hopen
    rw [hopen] at hargs
    obtain ⟨n, a, b, hn, hsize, hinner, ha⟩ := openCall_of_arguments hst₂.ready hargs
    obtain rfl : a = s.current.registers.next + args.length := by omega
    exact ⟨n, b, hsize, (ht₃' n hn (by omega)).trans hinner⟩
  · rintro rfl
    rw [Lower.expr, bind_of_ok h]
    rfl

theorem Completes.getElem?_code {body : List Stmt} {entry last : Session} {i : Instruction}
    (h : Completes types options program body entry last q) (hi : i.isCall = true) :
    q.code[pc]? = some i ↔ last.current.proto.code[pc]? = some i := by
  rw [← h.close_eq, OpenFunction.close, Array.getElem?_push]
  constructor
  · intro hpc
    split at hpc
    · cases hpc
      cases hi
    · exact hpc
  · intro hpc
    have hlt := (Array.getElem?_eq_some_iff.mp hpc).1
    rw [if_neg (by omega)]
    exact hpc

theorem CallSite.layout (h : CallSite types options program q pc callee args use s t)
    (hp : compileBody types options program = .ok p) :
    CallLayout types q pc callee args use s t := by
  obtain ⟨body, entry, last, hcompletes, hdepth, task, b, hvisits, hcall, hrun⟩ := h.exists_task
  obtain ⟨params, hbody⟩ := hcompletes.lowersBody
  have hs : s.Ready := Encounters.ready (hbody.encounters.trans hvisits) hp
  obtain ⟨base, hlower⟩ := Task.callWith_of_lower hcall hrun
  have hpreserved := hvisits.preserved (sound_statements body) hbody.encounters.reachable.regular
    hdepth hcompletes.lowered hrun
  refine callLayout_of_callWith hs hlower (hcompletes.staysIn hvisits hdepth hrun) h.size_eq ?_
  intro V m outer
  rw [← hcompletes.close_eq]
  exact (provides_close m outer last.current).of_isPrefix hpreserved.constants hpreserved.upvalues

/-- Every call instruction belongs to a call of the source. -/
theorem exists_callSite {i : Instruction} (hp : compileBody types options program = .ok p)
    (hq : p.Contains q) (hcode : q.code[pc]? = some i) (hi : i.isCall = true) :
    ∃ callee args use s t, CallSite types options program q pc callee args use s t := by
  obtain ⟨body, entry, last, hcompletes⟩ := exists_completes_of_contains hp hq
  obtain ⟨params, hbody⟩ := hcompletes.lowersBody
  have hentry : entry.size = 0 := by
    cases hbody with
    | main => rfl
    | nested _ hopen => rw [Session.size, (opened_of_openBody hopen).fresh.code, Array.size_empty]
  obtain ⟨task, s, t, b, callee, args, use, hvisits, hdepth, hcall, hrun, hsize⟩ :=
    (Task.statements body).exists_call types hcompletes.lowered (hentry ▸ Nat.zero_le pc)
      ((hcompletes.getElem?_code hi).mp hcode) hi
  exact ⟨callee, args, use, s, t,
    ⟨body, entry, last, hcompletes, hdepth, task, b, hvisits, hcall, hrun⟩, hsize⟩

/-- Every call of the source gets a call instruction. -/
theorem Encounters.exists_callSite {task : Task} (h : Encounters types options program task s)
    (hp : compileBody types options program = .ok p)
    (hcall : task.call? = some (callee, args, use)) :
    ∃ q pc t, p.Contains q ∧ CallSite types options program q pc callee args use s t := by
  obtain ⟨q, body, entry, last, hq, hcompletes, hvisits, hdepth⟩ := h.exists_completes hp
  obtain ⟨b, t, hrun⟩ := h.succeeds hp
  obtain ⟨base, hlower⟩ := Task.callWith_of_lower hcall hrun
  obtain ⟨v, t₁, t₂, isOpen, t₃, -, -, -, hend⟩ := callWith_eq_ok hlower
  refine ⟨q, t₃.size, t, hq, ⟨body, entry, last, hcompletes, hdepth, task, b, hvisits, hcall, hrun⟩,
    ?_⟩
  rw [Session.size, code_of_call (Lower.onCurrent_eq_ok hend).1, Array.size_push]

theorem openCall_next (hp : compileBody types options program = .ok p) (hq : p.Contains q)
    {a b : Nat} (hcode : q.code[pc]? = some (.abc .call a b 0)) :
    ∃ a' c, q.code[pc + 1]? = some (.abc .call a' 0 c) := by
  obtain ⟨is, his, hblock⟩ := compileBody_closes closesBlock_blocksWithin hp q hq
  rw [Prototype.getElem?_code his] at hcode
  obtain hcode | hcode := getElem?_of_closing hcode
  · obtain ⟨a', c, hnext⟩ | ⟨hopen, -⟩ := hblock.results_taken hcode
    · exact ⟨a', c, (Prototype.getElem?_code his _).trans (getElem?_closing hnext)⟩
    · cases hopen
  · cases hcode

/-- A call of which the number of arguments is open takes the results of the call before it. -/
theorem CallLayout.exists_inner {a c : Nat} (h : CallLayout types q pc callee args use s t)
    (hcode : q.code[pc]? = some (.abc .call a 0 c)) :
    args ≠ [] ∧ ∃ n b, pc = n + 1 ∧ q.code[n]? = some (.abc .call (a + args.length) b 0) := by
  have hinstruction := h.instruction.symm.trans hcode
  simp only [Option.some.injEq, Instruction.abc.injEq, true_and] at hinstruction
  obtain ⟨rfl, hopen, -⟩ := hinstruction
  have hends : endsInCall args = true := by
    by_contra hends
    rw [if_neg hends] at hopen
    cases hopen
  refine ⟨?_, h.forwarded hends⟩
  rintro rfl
  cases hends

/-- Calls of the source and call instructions correspond. The callee and the arguments are delivered
in consecutive registers from the first free one on, and open results go to the next instruction. -/
theorem calls_laid_out (types : TypeOracle) (options : Options) (program : List Stmt)
    (p : Prototype) (hp : compileBody types options program = .ok p) :
    (∀ (task : Task) (s : Session) (callee : Expr) (args : List Expr) (use : ResultUse),
      Encounters types options program task s → task.call? = some (callee, args, use) →
      ∃ q pc t, p.Contains q ∧ CallSite types options program q pc callee args use s t) ∧
    ∀ q, p.Contains q →
      (∀ pc, (∃ a b, q.code[pc]? = some (.abc .call a b 0)) ↔
        ∃ a c, q.code[pc + 1]? = some (.abc .call a 0 c)) ∧
      (∀ pc a b a' c, q.code[pc]? = some (.abc .call a b 0) →
        q.code[pc + 1]? = some (.abc .call a' 0 c) → a' < a ∧ ∀ callee args use s t,
          CallSite types options program q (pc + 1) callee args use s t → a = a' + args.length) ∧
      (∀ pc a b c, q.code[pc]? = some (.abc .call a b c) → (c = 0 ∨ c = 1 ∨ c = 2) ∧
        ∃ callee args use s t, CallSite types options program q pc callee args use s t) ∧
      ∀ pc callee args use s t, CallSite types options program q pc callee args use s t →
        CallLayout types q pc callee args use s t := by
  refine ⟨fun task s callee args use h hcall ↦ h.exists_callSite hp hcall, fun q hq ↦ ?_⟩
  have hinner (pc a c : Nat) (hcode : q.code[pc + 1]? = some (.abc .call a 0 c))
      (callee : Expr) (args : List Expr) (use : ResultUse) (s t : Session)
      (hsite : CallSite types options program q (pc + 1) callee args use s t) :
      args ≠ [] ∧ ∃ b, q.code[pc]? = some (.abc .call (a + args.length) b 0) := by
    obtain ⟨hargs, n, b, hn, hinner⟩ := (hsite.layout hp).exists_inner hcode
    obtain rfl := Nat.succ.inj hn
    exact ⟨hargs, b, hinner⟩
  refine ⟨fun pc ↦ ⟨?_, ?_⟩, ?_, ?_, fun pc callee args use s t hsite ↦ hsite.layout hp⟩
  · rintro ⟨a, b, hcode⟩
    exact openCall_next hp hq hcode
  · rintro ⟨a, c, hcode⟩
    obtain ⟨callee, args, use, s, t, hsite⟩ := exists_callSite hp hq hcode rfl
    obtain ⟨-, b, hcall⟩ := hinner pc a c hcode callee args use s t hsite
    exact ⟨a + args.length, b, hcall⟩
  · intro pc a b a' c hcode hnext
    have hregister (callee : Expr) (args : List Expr) (use : ResultUse) (s t : Session)
        (hsite : CallSite types options program q (pc + 1) callee args use s t) :
        args ≠ [] ∧ a = a' + args.length := by
      obtain ⟨hargs, b', hcall⟩ := hinner pc a' c hnext callee args use s t hsite
      cases hcode.symm.trans hcall
      exact ⟨hargs, rfl⟩
    obtain ⟨callee, args, use, s, t, hsite⟩ := exists_callSite hp hq hnext rfl
    obtain ⟨hargs, ha⟩ := hregister callee args use s t hsite
    have hpos := List.length_pos_of_ne_nil hargs
    exact ⟨by omega, fun callee args use s t hsite ↦ (hregister callee args use s t hsite).2⟩
  · intro pc a b c hcode
    obtain ⟨callee, args, use, s, t, hsite⟩ := exists_callSite hp hq hcode rfl
    refine ⟨?_, callee, args, use, s, t, hsite⟩
    cases (hsite.layout hp).instruction.symm.trans hcode
    cases use <;> simp [ResultUse.operand]

/-- `function f() {} f(f(), f(f()));` -/
def forwardedCalls : List Stmt :=
  [.function "f" [] [],
   .expression (.call (.identifier "f")
    [.call (.identifier "f") [],
     .call (.identifier "f") [.call (.identifier "f") []]])]

/-- The innermost call is the only argument of the call in register 2, which is the last argument of
the call in register 0. The first argument is cut to one result. -/
theorem calls_laid_out_forwardedCalls :
    ∃ p, compileBody (SyntaxOracle.oracle {}) {} forwardedCalls = .ok p ∧
      p.code.toList.drop 7 =
        [.abc .call 3 1 0, .abc .call 2 0 0, .abc .call 0 0 1, .abc .ret 0 1 0] ∧
      ∃ callee args use s t,
        CallSite (SyntaxOracle.oracle {}) {} forwardedCalls p 9 callee args use s t ∧
        args.length = 2 ∧ endsInCall args = true ∧ s.current.registers.next = 0 ∧
        CallLayout (SyntaxOracle.oracle {}) p 9 callee args use s t := by
  obtain ⟨p, hp, hcode⟩ : ∃ p, compileBody (SyntaxOracle.oracle {}) {} forwardedCalls = .ok p ∧
      p.code.toList.drop 7 =
        [.abc .call 3 1 0, .abc .call 2 0 0, .abc .call 0 0 1, .abc .ret 0 1 0] :=
    exists_ok_of_toOption (by decide +kernel)
  have hget (k : Nat) : p.code[7 + k]? = (p.code.toList.drop 7)[k]? := by
    rw [List.getElem?_drop, Array.getElem?_toList]
  obtain ⟨-, hmain⟩ := calls_laid_out _ _ _ p hp
  obtain ⟨-, hregister, hsite, hlayout⟩ := hmain p (.self p)
  have hinner : p.code[8]? = some (.abc .call 2 0 0) := by rw [hget 1, hcode]; rfl
  have houter : p.code[9]? = some (.abc .call 0 0 1) := by rw [hget 2, hcode]; rfl
  obtain ⟨-, callee, args, use, s, t, h⟩ := hsite 9 _ _ _ houter
  have hlength := (hregister 8 _ _ _ _ hinner houter).2 callee args use s t h
  have hlaid := hlayout 9 callee args use s t h
  have hinstruction := hlaid.instruction.symm.trans houter
  simp only [Option.some.injEq, Instruction.abc.injEq, true_and] at hinstruction
  refine ⟨p, hp, hcode, callee, args, use, s, t, h, by omega, ?_, hinstruction.1, hlaid⟩
  by_contra hends
  rw [if_neg hends] at hinstruction
  omega

end LuaLower
