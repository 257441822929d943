import LuaLower.Proofs.Lowering.Parts
import LuaLower.Proofs.Supply.Basic

/-!
# The pieces of expressions and statements are supplied

A step that furnishes builds, and the code that it emits is supplied with what it reads. For each
piece that works on the innermost function alone, what it reads is what the values, operands and
targets that are handed to it hold.
-/

namespace LuaLower

open OpenFunction Build

variable {W : Nat → Prop} {U : String → Prop} {f g h : OpenFunction} {v w : Value}
  {table x y lo mid hi dst : Nat}

/-! ## Rules -/

section Rules

variable {α β : Type} {step : Build α} {k : α → Build β} {P P' : α → OpenFunction → Prop}
  {Q : β → OpenFunction → Prop} {a : α}

def Furnishes (W : Nat → Prop) (U : String → Prop) (lo : Nat) (step : Build α) (f : OpenFunction)
    (post : α → OpenFunction → Prop) : Prop :=
  Builds (fun _ _ ↦ True) 0 step f (fun a g ↦ f.Supplied W U lo false g ∧ post a g)

namespace Furnishes

theorem of_builds (h : Builds (fun _ _ ↦ True) 0 step f P)
    (hcode : ∀ a g, P a g → f.Supplied W U lo false g) : Furnishes W U lo step f P :=
  h.mono fun a g _ hpost ↦ ⟨hcode a g hpost, hpost⟩

theorem pure (hpost : P a f) : Furnishes W U lo (pure a) f P := Builds.pure ⟨.refl f, hpost⟩

theorem bind (hx : Furnishes W U lo step f P)
    (hk : ∀ a g, Extends (fun _ _ ↦ True) 0 f [] g → P a g → Furnishes W U lo (k a) g Q) :
    Furnishes W U lo (step >>= k) f Q := by
  refine Builds.bind hx ?_
  rintro a g hfg ⟨hcode, hpost⟩
  refine (hk a g hfg hpost).mono ?_
  rintro c h _ ⟨hcode', hpost'⟩
  exact ⟨hcode.trans hcode', hpost'⟩

theorem mono (hx : Furnishes W U lo step f P)
    (h : ∀ a g, Extends (fun _ _ ↦ True) 0 f [] g → P a g → P' a g) :
    Furnishes W U lo step f P' := by
  refine Builds.mono hx ?_
  rintro a g hfg ⟨hcode, hpost⟩
  exact ⟨hcode, h a g hfg hpost⟩

theorem lower (hx : Furnishes W U mid step f P) (hlo : lo ≤ mid) (hmid : mid ≤ f.registers.next) :
    Furnishes W U lo step f P :=
  Builds.mono hx fun _ _ _ hpost ↦ ⟨hpost.1.lower hlo hmid, hpost.2⟩

theorem assuming (h : f.registers.Tidy → Furnishes W U lo step f P) : Furnishes W U lo step f P :=
  Builds.assuming fun hf _ ↦ h hf

end Furnishes

end Rules

/-! ## Placing values -/

theorem furnishes_inNewRegister (hlo : f.registers.numLocals ≤ lo) (hW : W lo)
    (hv : f.Holds v lo f.registers.next) :
    Furnishes W U lo (inNewRegister v) f (fun r g ↦ r = lo ∧ g = f.loading v lo) :=
  .of_builds (builds_inNewRegister hlo hv) fun _ _ h ↦ h.2 ▸ supplied_loading hW hv

theorem furnishes_inRegister (hlo : f.registers.numLocals ≤ lo) (hW : W lo)
    (hv : f.Holds v lo f.registers.next) :
    Furnishes W U lo (inRegister v) f (fun r g ↦ f.Placed v lo (.register r) g) :=
  .of_builds (builds_inRegister hlo hv) fun _ _ h ↦ h.supplied hW hv

theorem furnishes_toOperand (hlo : f.registers.numLocals ≤ lo) (hW : W lo)
    (hv : f.Holds v lo f.registers.next) :
    Furnishes W U lo (toOperand v) f (fun x g ↦ f.PlacedOperand v lo x g) :=
  .of_builds (builds_toOperand hlo hv) fun _ _ h ↦ h.supplied hW hv

theorem furnishes_toKey (hlo : f.registers.numLocals ≤ lo) (hW : W lo)
    (hv : f.Holds v lo f.registers.next) :
    Furnishes W U lo (toKey v) f (fun key g ↦ key.IsKey ∧ f.Placed v lo key g) :=
  .of_builds (builds_toKey hlo hv) fun _ _ h ↦ h.2.supplied hW hv

theorem furnishes_toTable (hlo : f.registers.numLocals ≤ lo) (hW : W lo)
    (hv : f.Holds v lo f.registers.next) :
    Furnishes W U lo (toTable v) f (fun place g ↦ f.Placed v lo place.toValue g) :=
  .of_builds (builds_toTable hlo hv) fun _ _ h ↦ h.supplied hW hv

theorem furnishes_intern (k : Constant) :
    Furnishes W U lo (constantIndex k) f
      (fun index g ↦ index = (f.proto.constants.insert k).1 ∧ g = f.intern k) :=
  .of_builds (.intern k) fun _ _ h ↦ h.2 ▸ supplied_intern f k

theorem furnishes_setLocal (hlo : f.registers.numLocals ≤ lo)
    (hv : f.Holds v lo f.registers.next) (hdst : dst < f.registers.numLocals) (hW : W dst) :
    Furnishes W U lo (setLocal dst v) f
      (fun _ g ↦ g = (f.downTo lo).emit (v.loadCode dst)) := by
  refine .of_builds (builds_setLocal hlo hv fun hf ↦
    hdst.trans_le (hf.numLocals_le.trans hf.next_le)) ?_
  rintro _ _ rfl
  refine supplied_load hv hW ⟨rfl, rfl, rfl⟩ rfl fun r hr ↦ ?_
  rcases hr with hr | ⟨hr, hnext⟩
  · exact .inl (.inl hr)
  · exact absurd hr (Nat.not_le.mpr hnext)

/-! ## Single instructions -/

namespace OpenFunction

/-- An instruction that writes one register, which becomes the last one in use. -/
theorem supplied_into {i : Instruction} (hcode : g.proto.code = (f.emit [i]).proto.code)
    (hfg : f.SameVariables g) (hnext : g.registers.next = dst + 1) (hdst : dst ≤ f.registers.next)
    (hplain : i.isPlain = true) (hwrites : ∀ r, i.writes r = true → W r)
    (hsets : ∀ u, i.setsUpvalue u = false) (hreads : ∀ cs top r, i.reads cs top r → f.Known lo r)
    (hassigns : ∀ top, i.assigns 1 top dst) : f.Supplied W U lo false g := by
  refine .single hfg hcode hplain (.of_not_sets hwrites hsets) hreads ?_
  rintro top r (hr | ⟨hr, hlt⟩)
  · exact .inl (.inl (hr.trans_eq (congrArg List.length hfg.locals)))
  · rcases Nat.lt_or_ge r dst with hbelow | hge
    · exact .inl (.inr ⟨hr, hbelow.trans_le hdst⟩)
    · obtain rfl : r = dst := by omega
      exact .inr (hassigns top)

/-- An instruction on whose results nothing depends, after which temporaries may be released. -/
theorem supplied_effect {i : Instruction} (hcode : g.proto.code = (f.emit [i]).proto.code)
    (hfg : f.SameVariables g) (hnext : g.registers.next ≤ f.registers.next)
    (hplain : i.isPlain = true) (hobeys : i.Obeys W (g.CanSet U))
    (hreads : ∀ cs top r, i.reads cs top r → f.Known lo r) : f.Supplied W U lo false g := by
  refine .single hfg hcode hplain hobeys hreads ?_
  rintro top r (hr | ⟨hr, hlt⟩)
  · exact .inl (.inl (hr.trans_eq (congrArg List.length hfg.locals)))
  · exact .inl (.inr ⟨hr, hlt.trans_le hnext⟩)

end OpenFunction

/-! ## Literals and tables -/

theorem supplied_loadNil (f : OpenFunction) (hnext : W f.registers.next) :
    f.Supplied W U f.registers.next false (f.taken.emit [.abc .loadNil f.registers.next 0 0]) :=
  supplied_into rfl ⟨rfl, rfl, rfl⟩ rfl (le_refl _) rfl
    ((loadNil_block hnext).writes _ (List.mem_singleton_self _)) (fun _ ↦ rfl)
    (fun _ _ _ hr ↦ hr.elim) fun _ ↦ ⟨le_refl _, le_refl _⟩

theorem furnishes_newNil (hnext : W f.registers.next) :
    Furnishes W U f.registers.next newNil f (fun r g ↦ r = f.registers.next ∧
      g = f.taken.emit [.abc .loadNil f.registers.next 0 0]) := by
  refine .of_builds builds_newNil ?_
  rintro _ _ ⟨rfl, rfl⟩
  exact supplied_loadNil f hnext

theorem furnishes_loadNil (hdst : dst < f.registers.numLocals) (hW : W dst) :
    Furnishes W U lo (loadNil dst) f (fun _ g ↦ g.registers.next = f.registers.next) := by
  refine Builds.push (fun hf ↦ .of_registers ?_ rfl rfl rfl) ⟨supplied_effect rfl ⟨rfl, rfl, rfl⟩
    (le_refl _) rfl (.of_not_sets
      ((loadNil_block hW).writes _ (List.mem_singleton_self _)) fun _ ↦ rfl) ?_, rfl⟩
  · exact List.forall_mem_singleton.mpr (hdst.trans_le (hf.numLocals_le.trans hf.next_le))
  · exact fun _ _ _ hr ↦ hr.elim

theorem OpenFunction.LiteralBuilt.supplied {l : Literal} (h : f.LiteralBuilt l v g)
    (hnext : W f.registers.next) : f.Supplied W U f.registers.next false g := by
  cases l with
  | boolean value =>
    obtain ⟨_, rfl⟩ := h
    exact supplied_into rfl ⟨rfl, rfl, rfl⟩ rfl (le_refl _) rfl
      (by simpa [Instruction.writes] using hnext) (fun _ ↦ rfl) (fun _ _ _ hr ↦ hr.elim)
      fun _ ↦ rfl
  | null =>
    obtain ⟨_, rfl⟩ := h
    exact supplied_loadNil f hnext
  | _ =>
    obtain ⟨k, _, _, rfl⟩ := h
    exact supplied_intern f k

theorem furnishes_newTable (items fields : Nat) (hnext : W f.registers.next) :
    Furnishes W U f.registers.next (newTable items fields) f
      (fun table g ↦ table = f.registers.next ∧ g.registers.next = table + 1) := by
  refine Builds.fill _ (bind_of_ok (push_apply _ _)) rfl rfl rfl rfl ⟨?_, rfl, rfl⟩
  exact supplied_into rfl ⟨rfl, rfl, rfl⟩ rfl (le_refl _) rfl
    (by simpa [Instruction.writes] using hnext) (fun _ ↦ rfl) (fun _ _ _ hr ↦ hr.elim) fun _ ↦ rfl

theorem furnishes_setField {key value : Nat} (htable : f.Known lo table)
    (hmid : f.registers.numLocals ≤ mid) (hnext : mid ≤ f.registers.next)
    (hfits : f.registers.Tidy → f.OperandFits key ∧ f.OperandFits value)
    (hkey : ∀ r ∈ RK.registers key, f.Known lo r)
    (hvalue : ∀ r ∈ RK.registers value, f.Known lo r)
    (hrelease : ∀ i : Instruction, f.registers.Tidy →
      releaseOperands key value (f.emit [i]) = .ok () ((f.emit [i]).downTo mid)) :
    Furnishes W U lo (setField table key value) f (fun _ g ↦ g.registers.next = mid) := by
  refine (Builds.pushRelease (fun hf ↦ ?_) (hrelease _) hmid hnext).mono ?_
  · have htable : table < f.registers.high := by
      have hnumLocals := hf.numLocals_le.trans hf.next_le
      have hhigh := hf.next_le
      rcases htable with htable | ⟨_, htable⟩ <;> omega
    have hrs : ∀ r ∈ [table], r < f.registers.high := by simpa using htable
    exact .of_operands (hfits hf).1 (hfits hf).2 hrs rfl rfl (List.forall_mem_nil _) rfl
  · rintro _ _ - rfl
    refine ⟨supplied_effect rfl ⟨rfl, rfl, rfl⟩ hnext rfl
      (.of_inert (fun _ ↦ rfl) fun _ ↦ rfl) ?_, rfl⟩
    rintro cs top r (rfl | hr | hr)
    · exact htable
    · exact hkey r hr
    · exact hvalue r hr

theorem furnishes_item (hlo : f.registers.numLocals ≤ lo) (hW : W lo)
    (hv : f.Holds v lo f.registers.next) :
    Furnishes W U lo (item v) f (fun _ g ↦ g.registers.next = lo + 1) := by
  refine (furnishes_inNewRegister hlo hW hv).bind ?_
  rintro _ _ - ⟨rfl, rfl⟩
  exact .pure rfl

theorem furnishes_hole (hnext : W f.registers.next) :
    Furnishes W U f.registers.next hole f
      (fun _ g ↦ g.registers.next = f.registers.next + 1) := by
  refine (furnishes_newNil hnext).bind ?_
  rintro _ _ - ⟨rfl, rfl⟩
  exact .pure rfl

theorem furnishes_storeBatch {count batch : Nat} (hbatch : batch ≠ 0) (hpos : 0 < count)
    (hcount : count ≤ batchSize) (hlo : lo ≤ table) (htable : f.registers.numLocals ≤ table)
    (hnext : f.registers.next = table + 1 + count) :
    Furnishes W U lo (storeBatch table count batch) f
      (fun _ g ↦ g.registers.next = table + 1) := by
  have hle : table + 1 ≤ f.registers.next := by omega
  refine (builds_storeBatch batch htable hnext).mono ?_
  rintro _ _ - rfl
  refine ⟨supplied_effect rfl ⟨rfl, rfl, rfl⟩ hle (decide_eq_true ⟨hbatch, hpos, hcount⟩)
    (.of_inert (fun _ ↦ rfl) fun _ ↦ rfl) ?_, rfl⟩
  rintro cs top r ⟨hr, hlt⟩
  rw [if_neg (Nat.ne_of_gt hpos)] at hlt
  exact .inr ⟨hlo.trans hr, by omega⟩

theorem furnishes_setFirst (htable : lo ≤ table) (hlt : table < mid)
    (hmid : f.registers.numLocals ≤ mid) (hW : ∀ r, mid ≤ r → W r)
    (hv : f.Holds v mid f.registers.next) :
    Furnishes W U lo (setFirst table v) f (fun _ g ↦ g.registers.next = mid) := by
  have hlo : lo ≤ mid := htable.trans hlt.le
  refine ((furnishes_toOperand hmid (hW mid (le_refl _)) hv).lower hlo hv.le).bind ?_
  intro value g hfg hplaced
  have hmidg : g.registers.numLocals ≤ mid := hfg.numLocals.trans_le hmid
  have hvalue := hplaced.holds hv
  have hnumLocals := hmidg.trans hvalue.le
  refine .bind (furnishes_intern (.integer 0)) ?_
  rintro _ _ - ⟨rfl, rfl⟩
  refine ((furnishes_toOperand (f := g.intern _) hnumLocals (hW _ hvalue.le)
    (holds_intern g _)).lower (hlo.trans hvalue.le) (le_refl _)).bind ?_
  intro key h hgh hplacedKey
  have hkey := hplacedKey.holds (holds_intern g _)
  have hmidh : h.registers.numLocals ≤ mid := hgh.numLocals.trans_le hmidg
  have hvalueh := (hvalue.within (g := g.intern _)
    ⟨rfl, (g.proto.constants.prefix_toList_insert _).length_le, le_refl _, le_refl _⟩).within
    hgh.within
  have hnext := hvalueh.le.trans hkey.le
  refine furnishes_setField (.inr ⟨htable, hlt.trans_le hnext⟩) hmidh hnext
    (fun hh ↦ ⟨hkey.fits hh hh.next_le, hvalueh.fits hh (hkey.le.trans hh.next_le)⟩)
    (fun r hr ↦ (hkey.known (le_refl _) r hr).mono (hlo.trans hvalue.le))
    (fun r hr ↦ (hvalueh.known hkey.le r hr).mono hlo) fun i hh ↦ ?_
  rw [releaseOperands_comm]
  exact releaseOperands_eq (f := h.emit [i]) hh hmidh hvalueh hkey

/-! ## Operations and calls -/

theorem furnishes_unary {o : UnaryOp} {op : Opcode} (ho : o.opcode? = some op)
    (hlo : f.registers.numLocals ≤ lo) (hW : W lo) (hv : f.Holds v lo f.registers.next) :
    Furnishes W U lo (Build.unary op v) f
      (fun w g ↦ w = .register lo ∧ g.registers.next = lo + 1) := by
  refine (builds_unary ho hlo hv).mono ?_
  rintro w _ - ⟨rfl, src, h, hplaced, rfl⟩
  have hsrc : h.HoldsRegister src lo h.registers.next := hplaced.holds hv
  refine ⟨(hplaced.supplied hW hv).trans (supplied_into (i := .abc op lo src 0) rfl ⟨rfl, rfl, rfl⟩
    rfl hsrc.le ?_ ?_ ?_ ?_ ?_), rfl, rfl⟩
  · cases o <;> cases ho <;> rfl
  · cases o <;> cases ho <;> simpa [Instruction.writes] using hW
  · cases o <;> cases ho <;> exact fun _ ↦ rfl
  · intro cs top r hr
    obtain rfl : r = src := by cases o <;> cases ho <;> exact hr
    exact hsrc.known (le_refl _)
  · cases o <;> cases ho <;> exact fun _ ↦ rfl

/-- A call finds its arguments written, however many there are, and leaves its results. -/
theorem OpenFunction.carries_call {isOpen : Bool} {base argCount : Nat} (use : ResultUse)
    (hlo : lo ≤ base) (hnext : g.registers.next = base + 1 + argCount)
    (hnumLocals : h.registers.numLocals = g.registers.numLocals)
    (hresult : h.registers.next = use.next base) (cs : List Prototype) (A : Nat → Prop) :
    Carries cs (g.Reaches lo A isOpen)
      [.abc .call base (if isOpen then 0 else argCount + 1) use.operand]
      (h.Reaches lo A (use == .forward)) := by
  refine .single (fun pc ↦ by simp [Instruction.successors]) ?_ fun x y hx hy ↦ ?_
  · rintro x hx r ⟨hr, hlt⟩
    cases isOpen with
    | false => exact hx r (.inr (.inr ⟨hlo.trans hr, by simp at hlt; omega⟩))
    | true => exact hx r (.inr (.inr ⟨hlo.trans hr, .inr hlt⟩))
  have hbelow {r : Nat} (hr : A r ∨ r < h.registers.numLocals ∨ lo ≤ r ∧ r < base) :
      y.written r := by
    refine (hy.written r).mpr (.inl ?_)
    rw [hnumLocals] at hr
    cases isOpen with
    | false => exact hx r (hr.imp id fun hr ↦ hr.imp id fun hr ↦ ⟨hr.1, by omega⟩)
    | true => exact hx r (hr.imp id fun hr ↦ hr.imp id fun hr ↦ ⟨hr.1, .inl (by omega)⟩)
  have hresults {r : Nat} (hr : lo ≤ r) (hlt : base ≤ r →
      r < if use.operand = 0 then y.top else base + use.operand - 1) : y.written r := by
    rcases Nat.lt_or_ge r base with hbase | hbase
    · exact hbelow (.inr (.inr ⟨hr, hbase⟩))
    · exact (hy.written r).mpr (.inr ⟨hbase, hlt hbase⟩)
  cases use with
  | discard =>
    rintro r (hr | hr | ⟨hr, hlt⟩)
    · exact hbelow (.inl hr)
    · exact hbelow (.inr (.inl hr))
    · exact hbelow (.inr (.inr ⟨hr, hlt.trans_eq hresult⟩))
  | single =>
    rintro r (hr | hr | ⟨hr, hlt⟩)
    · exact hbelow (.inl hr)
    · exact hbelow (.inr (.inl hr))
    · exact hresults hr fun _ ↦ hlt.trans_eq hresult
  | forward =>
    rintro r (hr | hr | ⟨hr, hlt⟩)
    · exact hbelow (.inl hr)
    · exact hbelow (.inr (.inl hr))
    · rw [hresult] at hlt
      exact hresults hr fun hbase ↦ hlt.resolve_left (by simp only [ResultUse.next]; omega)

theorem OpenFunction.Supplied.call {isOpen : Bool} {base argCount : Nat}
    (hfg : f.Supplied W U lo isOpen g) (use : ResultUse) (hlo : lo ≤ base)
    (hW : ∀ r, base ≤ r → W r) (hnext : g.registers.next = base + 1 + argCount)
    (hgh : g.SameVariables h) (hcode : h.proto.code = (g.emit
      [.abc .call base (if isOpen then 0 else argCount + 1) use.operand]).proto.code)
    (hresult : h.registers.next = use.next base) :
    f.Supplied W U lo (use == .forward) h := by
  obtain ⟨is, his, hobeys, hcarries⟩ := hfg.code
  refine ⟨hfg.toDeveloped.trans hgh.developed, fun c hc ↦ ?_,
    is ++ [.abc .call base (if isOpen then 0 else argCount + 1) use.operand], ?_, ?_, ?_⟩
  · rw [hgh.children] at hc
    exact (hfg.nested c hc).imp id fun hc ↦ hc.developed hgh.developed
  · rw [hcode]
    simp only [emit] at his ⊢
    simp [his]
  · refine List.forall_mem_append.mpr ⟨fun i hi ↦ ?_, List.forall_mem_singleton.mpr
      (.of_not_sets ?_ fun _ ↦ rfl)⟩
    · exact (hobeys i hi).mono fun u hu ↦ hu.developed hgh.developed
    · simpa [Instruction.writes] using hW
  · intro cs A hcs hA
    exact (hcarries cs A (hgh.children ▸ hcs) hA).append
      (carries_call use hlo hnext (congrArg List.length hgh.locals) hresult cs A)

theorem furnishes_drop (hlo : f.registers.numLocals ≤ lo) (hW : W lo)
    (hv : f.Holds v lo f.registers.next) :
    Furnishes W U lo (drop v) f (fun _ g ↦ g.registers.next = lo) := by
  refine (furnishes_inRegister hlo hW hv).bind ?_
  intro r g hfg hplaced
  have hlog : g.registers.numLocals ≤ lo := hfg.numLocals.trans_le hlo
  have hr : g.HoldsRegister r lo g.registers.next := hplaced.holds hv
  refine (Builds.lower (fun hg ↦ release_eq hg hlog hr) hlog hr.le).mono ?_
  rintro _ _ - rfl
  exact ⟨supplied_downTo g hr.le, rfl⟩

theorem furnishes_returnValue (hlo : f.registers.numLocals ≤ lo) (hW : W lo)
    (hv : f.Holds v lo f.registers.next) :
    Furnishes W U lo (returnValue v) f (fun _ g ↦ g.registers.next = lo) := by
  refine (builds_returnValue hlo hv).mono ?_
  rintro - _ - ⟨r, h, hplaced, rfl⟩
  have hr : h.HoldsRegister r lo h.registers.next := hplaced.holds hv
  refine ⟨(hplaced.supplied hW hv).trans
    (supplied_effect rfl ⟨rfl, rfl, rfl⟩ hr.le rfl (.of_inert (fun _ ↦ rfl) fun _ ↦ rfl) ?_), rfl⟩
  rintro cs top q ⟨hq, hlt⟩
  obtain rfl : q = r := by simp at hlt; omega
  exact hr.known (le_refl _)

theorem furnishes_returnNone :
    Furnishes W U lo returnNone f (fun _ g ↦ g.registers.next = f.registers.next) := by
  refine builds_returnNone.mono ?_
  rintro _ _ - rfl
  refine ⟨supplied_effect rfl ⟨rfl, rfl, rfl⟩ (le_refl _) rfl
    (.of_inert (fun _ ↦ rfl) fun _ ↦ rfl) ?_, rfl⟩
  rintro cs top r ⟨_, hlt⟩
  simp at hlt

end LuaLower
