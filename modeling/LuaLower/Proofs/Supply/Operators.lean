import LuaLower.Proofs.Supply.Pieces

/-!
# Operations and assignments are supplied

A binary operation finds its left operand where it was placed before the right one was lowered. If a
logical operation skips its right operand, the result is in the register that the right operand
would have been loaded into, so the two ways on agree in what has been written.
-/

namespace LuaLower

open OpenFunction Build

variable {W : Nat → Prop} {U : String → Prop} {f g h k : OpenFunction} {v w : Value}
  {x y lo mid hi dst : Nat}

/-! ## Binary operations -/

theorem OpenFunction.Placed.within (hplaced : f.Placed v lo w g) : Within f g := by
  rcases hplaced with ⟨_, rfl⟩ | ⟨_, rfl⟩
  · exact ⟨rfl, le_refl _, le_refl _, le_refl _⟩
  · exact ⟨rfl, le_refl _, le_refl _, le_max_left _ _⟩

theorem OpenFunction.Placed.sameVariables (hplaced : f.Placed v lo w g) : f.SameVariables g := by
  rcases hplaced with ⟨_, rfl⟩ | ⟨_, rfl⟩
  · exact .refl g
  · exact ⟨rfl, rfl, rfl⟩

theorem OpenFunction.PlacedOperand.within (hplaced : f.PlacedOperand v lo x g) : Within f g := by
  obtain ⟨key, _, _, hplaced⟩ := hplaced
  exact hplaced.within

/-- The jump after a test lands behind the code that follows it. -/
theorem OpenFunction.code_landing {test : Instruction} {is js : List Instruction}
    (hg : g.proto.code = (f.emit ([test, .asbx .jmp 0 0] ++ is)).proto.code) :
    ((g.emit js).landing (f.proto.code.size + 1)).proto.code =
      (f.emit ([test, .asbx .jmp 0 (is ++ js).length] ++ (is ++ js))).proto.code := by
  simp only [landing, OpenFunction.emit] at hg ⊢
  rw [hg]
  apply Array.toList_inj.mp
  simp only [Array.toList_setIfInBounds, Array.toList_append, List.append_assoc]
  rw [List.set_append_right _ _ (by simp)]
  simp

/-- The right operand of a logical operation knows nothing of the register of the result. -/
theorem OpenFunction.supplied_logical {src decides : Nat} (hW : W lo) (hsrc : f.Known lo src)
    (hright : ((f.downTo lo).taken.emit [.abc .testSet lo src decides, .asbx .jmp 0 0]).Supplied
      W U (lo + 1) false g)
    (hlocals : g.registers.numLocals = f.registers.numLocals)
    (hw : g.Holds w (lo + 1) g.registers.next)
    (hh : h = ((g.downTo (lo + 1)).emit (w.loadCode lo)).landing (f.proto.code.size + 1)) :
    f.Supplied W U lo false h := by
  obtain ⟨is, his, hobeys, hcarries⟩ := hright.code
  have hbegin : f.SameVariables
    ((f.downTo lo).taken.emit [.abc .testSet lo src decides, .asbx .jmp 0 0]) := ⟨rfl, rfl, rfl⟩
  have hgh : g.SameVariables h := hh ▸ ⟨rfl, rfl, rfl⟩
  have hnext : h.registers.next = lo + 1 := hh ▸ rfl
  have hnumLocals : h.registers.numLocals = g.registers.numLocals := congrArg List.length hgh.locals
  refine ⟨hbegin.developed.trans (hright.toDeveloped.trans hgh.developed), fun c hc ↦ ?_,
    [.abc .testSet lo src decides, .asbx .jmp 0 (is ++ w.loadCode lo).length] ++
      (is ++ w.loadCode lo), ?_, ?_, ?_⟩
  · exact (hright.nested c (hgh.children ▸ hc)).imp id fun hc ↦ hc.developed hgh.developed
  · rw [emit_emit] at his
    rw [hh]
    exact code_landing (g := g.downTo (lo + 1)) his
  · refine List.forall_mem_append.mpr ⟨?_, List.forall_mem_append.mpr ⟨fun i hi ↦ ?_, ?_⟩⟩
    · simp only [List.forall_mem_cons]
      refine ⟨.of_not_sets (by simpa [Instruction.writes] using hW) fun _ ↦ rfl,
        .of_inert (fun _ ↦ rfl) fun _ ↦ rfl, ?_⟩
      exact List.forall_mem_nil _
    · exact (hobeys i hi).mono fun u hu ↦ hu.developed hgh.developed
    · exact w.obeys_loadCode hW
  · intro cs A hcs hA
    have hbody := hcarries cs A (hgh.children ▸ hcs) fun r hr ↦ hA r (.inl ?_)
    · have hload := Value.carries_loadCode (A := fun r ↦ A r ∨ g.Known (lo + 1) r) hw
        (fun r hr ↦ .inr (hw.known (le_refl _) r hr)) cs lo
      refine .guarded (hA src hsrc) ((hbody.append hload).mono (fun x hx ↦ hx) ?_) ?_
      · rintro x hx r (hr | hr | ⟨hr, hlt⟩)
        · exact hx r (.inl (.inl hr))
        · exact hx r (.inl (.inr (.inl (hr.trans_eq hnumLocals))))
        · exact hx r (.inr (by omega))
      · rintro r (hr | hr | ⟨hr, hlt⟩)
        · exact .inl hr
        · exact .inl (hA r (.inl (by omega)))
        · exact .inr (by omega)
    · rcases hr with hr | ⟨hr, hlt⟩
      · exact hr
      · exact absurd hr (Nat.not_le.mpr hlt)

theorem Comparison.supplied_code {o : BinaryOp} {test : Comparison} {left right : Nat}
    (ho : o.comparison? = some test)
    (hcode : g.proto.code = (f.emit (test.code lo left right)).proto.code)
    (hfg : f.SameVariables g) (hnext : g.registers.next = lo + 1) (hW : W lo)
    (hleft : ∀ r ∈ RK.registers left, f.Known lo r)
    (hright : ∀ r ∈ RK.registers right, f.Known lo r) : f.Supplied W U lo false g := by
  have hop : test.op = .eq ∨ test.op = .lt ∨ test.op = .le := by
    cases o <;> cases ho <;> simp
  have hsets (u : Nat) : ∀ i ∈ test.code lo left right, i.setsUpvalue u = false := by
    rw [Comparison.code]
    rcases hop with hop | hop | hop <;> cases test.swapped <;> simp [hop, Instruction.setsUpvalue]
  have hknown {r : Nat} (hr : g.Known lo r) : f.Known lo r ∨ r = lo := by
    rcases hr with hr | ⟨hr, hlt⟩
    · exact .inl (.inl (hr.trans_eq (congrArg List.length hfg.locals)))
    · exact .inr (by omega)
  refine .of_carries hfg hcode (fun i hi ↦ ?_) fun cs A hA ↦ ?_
  · refine ⟨(Comparison.code_block ho left right hW).writes i hi, fun u hu ↦ ?_⟩
    simp [hsets u i hi] at hu
  · have hB (r : Nat) (hr : A r ∨ g.Known lo r) : A r ∨ r = lo :=
      hr.elim .inl fun hr ↦ (hknown hr).imp (hA r) id
    rw [Comparison.code]
    split
    · exact .comparison hop (fun r hr ↦ hA r (hr.elim (hright r) (hleft r))) hB
    · exact .comparison hop (fun r hr ↦ hA r (hr.elim (hleft r) (hright r))) hB

theorem supplied_arithmetic {o : BinaryOp} {op : Opcode} {left right : Nat}
    (ho : o.arithmetic? = some op)
    (hcode : g.proto.code = (f.emit [.abc op lo left right]).proto.code)
    (hfg : f.SameVariables g) (hnext : g.registers.next = lo + 1) (hlo : lo ≤ f.registers.next)
    (hW : W lo) (hleft : ∀ r ∈ RK.registers left, f.Known lo r)
    (hright : ∀ r ∈ RK.registers right, f.Known lo r) : f.Supplied W U lo false g := by
  refine supplied_into hcode hfg hnext hlo ?_
    ((arithmetic_block ho left right hW).writes _ (List.mem_singleton_self _)) ?_ ?_ ?_
  · cases o <;> cases ho <;> rfl
  · cases o <;> cases ho <;> exact fun _ ↦ rfl
  · intro cs top r hr
    have hr : r ∈ RK.registers left ∨ r ∈ RK.registers right := by
      cases o <;> cases ho <;> exact hr
    exact hr.elim (hleft r) (hright r)
  · cases o <;> cases ho <;> exact fun _ ↦ rfl

/-- A pending operation is not disturbed by the code of its right operand. -/
theorem OpenFunction.HoldsPending.supplied {isOpen : Bool} {b : Nat} {pending : Pending}
    (hpending : f.HoldsPending b pending lo hi) (hfg : f.Supplied W U mid isOpen g)
    (hwithin : Within f g) : g.HoldsPending b pending lo hi := by
  cases pending with
  | logical dst jump =>
    obtain ⟨hdst, hhi, hb, hjump⟩ := hpending
    obtain ⟨is, his, _⟩ := hfg.code
    refine ⟨hdst, hhi, hb, ?_⟩
    rw [his, OpenFunction.emit, Array.getElem?_append_left (Array.getElem?_eq_some_iff.mp hjump).1]
    exact hjump
  | comparison test left => exact ⟨hpending.1, hpending.2.within hwithin⟩
  | concat left => exact hpending
  | arithmetic op left => exact ⟨hpending.1, hpending.2.within hwithin⟩

theorem supplied_binary {op : BinaryOp} {isString : Bool} {pending : Pending}
    (hW : ∀ r, lo ≤ r → W r) (hlo : f.registers.numLocals ≤ lo)
    (hlocals : h.registers.numLocals = f.registers.numLocals)
    (hv : f.Holds v lo f.registers.next) (hbegun : f.Begun v lo op isString pending g)
    (hmid : g.registers.next = mid) (hpending : h.HoldsPending 0 pending lo mid)
    (hright : g.Supplied W U mid false h) (hw : h.Holds w mid h.registers.next)
    (hfinished : h.Finished w lo mid pending k) : f.Supplied W U lo false k := by
  have hWlo := hW lo (le_refl lo)
  have hlomid := hpending.le
  have hWmid := hW mid hlomid
  have hbetween := hright.lower hlomid hmid.ge
  cases pending with
  | logical dst jump =>
    obtain ⟨decides, src, h₀, _, hplaced, rfl, rfl, rfl⟩ := hbegun
    obtain ⟨_, rfl, _⟩ := hpending
    have hsrc : h₀.HoldsRegister src _ h₀.registers.next := hplaced.holds hv
    have hnumLocals := hlocals.trans hplaced.within.numLocals.symm
    exact (hplaced.supplied hWlo hv).trans
      (supplied_logical hWlo (hsrc.known (le_refl _)) hright hnumLocals hw hfinished)
  | comparison test left =>
    obtain ⟨_, _, hplaced⟩ := hbegun
    obtain ⟨⟨o, ho⟩, hleft⟩ := hpending
    obtain ⟨x, h₁, hplaced', rfl⟩ := hfinished
    have hx := hplaced'.holds hw
    refine (hplaced.supplied hWlo hv).trans (hbetween.trans
      (((hplaced'.supplied hWmid hw).lower hlomid hw.le).trans ?_))
    exact Comparison.supplied_code ho rfl ⟨rfl, rfl, rfl⟩ rfl hWlo
      ((hleft.within hplaced'.within).known hx.le)
      fun r hr ↦ (hx.known (le_refl _) r hr).mono hlomid
  | concat left =>
    obtain ⟨_, _, _, _, rfl⟩ := hbegun
    obtain ⟨_, rfl⟩ := hpending
    rw [hfinished]
    refine (supplied_loading hWlo hv).trans (hbetween.trans
      (((supplied_loading hWmid hw).lower hlomid hw.le).trans ?_))
    refine supplied_into (i := .abc .concat lo lo (lo + 1)) rfl ⟨rfl, rfl, rfl⟩ rfl
      (Nat.le_add_right lo 2) rfl (fun r hr ↦ hW r ?_) (fun _ ↦ rfl) ?_ fun _ ↦ rfl
    · simp only [Instruction.writes, decide_eq_true_eq] at hr
      omega
    · rintro cs top r ⟨hr, hle⟩
      exact .inr ⟨hr, Nat.lt_succ_of_le hle⟩
  | arithmetic op left =>
    obtain ⟨_, _, _, _, hplaced⟩ := hbegun
    obtain ⟨⟨o, ho⟩, hleft⟩ := hpending
    obtain ⟨x, h₁, hplaced', rfl⟩ := hfinished
    have hx := hplaced'.holds hw
    refine (hplaced.supplied hWlo hv).trans (hbetween.trans
      (((hplaced'.supplied hWmid hw).lower hlomid hw.le).trans ?_))
    exact supplied_arithmetic ho rfl ⟨rfl, rfl, rfl⟩ rfl (hlomid.trans hx.le) hWlo
      ((hleft.within hplaced'.within).known hx.le)
      fun r hr ↦ (hx.known (le_refl _) r hr).mono hlomid

/-! ## Assignments -/

namespace Target

/-- A local that may be written, an upvalue that may be set, or a field. -/
def Allowed (W : Nat → Prop) (U : String → Prop) (f : OpenFunction) : Target → Prop
  | .register r => W r
  | .upvalue u => f.CanSet U u
  | .member .. => True

variable {target : Target}

theorem Allowed.developed (h : target.Allowed W U f) (hfg : f.Developed g) :
    target.Allowed W U g := by
  cases target with
  | register r => exact h
  | upvalue u => exact CanSet.developed h hfg
  | member owner key => trivial

theorem reads_readField {cs : List Prototype} {owner : Place} {key top r : Nat}
    (hr : (readFieldCode owner key dst).reads cs top r) :
    r ∈ owner.toValue.registers ∨ r ∈ RK.registers key := by
  cases owner with
  | register t => exact hr.imp List.mem_singleton.mpr id
  | upvalue u => exact .inr hr

theorem reads_writeField {cs : List Prototype} {owner : Place} {key value top r : Nat}
    (hr : (writeFieldCode owner key value).reads cs top r) :
    r ∈ owner.toValue.registers ∨ r ∈ RK.registers key ∨ r ∈ RK.registers value := by
  cases owner with
  | register t => exact hr.imp List.mem_singleton.mpr id
  | upvalue u => exact .inr hr

theorem furnishes_read (h : f.HoldsTarget target lo f.registers.next) (hnext : W f.registers.next) :
    Furnishes W U lo target.read f (fun v g ↦ g.Holds v f.registers.next g.registers.next) := by
  cases target with
  | register r => exact .pure (.inl ⟨h.1, rfl⟩)
  | upvalue u =>
    refine Builds.take [.abc .getUpval f.registers.next u 0] (bind_of_ok (push_apply _ _)) ?_ ?_
      ⟨supplied_into rfl ⟨rfl, rfl, rfl⟩ rfl (le_refl _) rfl
        (by simpa [Instruction.writes] using hnext) (fun _ ↦ rfl) (fun _ _ _ hr ↦ hr.elim)
        fun _ ↦ rfl, .inr ⟨rfl, rfl⟩⟩
    · intro htidy
      have hdst : f.registers.next < f.taken.registers.high := htidy.next_le
      have hu : u < f.taken.proto.upvalues.length := h.1
      simp only [List.forall_mem_singleton]
      exact fits_getUpval hu hdst
    · exact .inr ⟨_, List.mem_singleton_self _, List.mem_cons_self⟩
  | member owner key =>
    obtain ⟨mid, howner, hkey⟩ := h
    simp only [read, readField_eq]
    refine Builds.take [readFieldCode owner key f.registers.next]
      (bind_of_ok (push_apply _ _)) ?_ ?_
      ⟨supplied_into (i := readFieldCode owner key f.registers.next) rfl ⟨rfl, rfl, rfl⟩ rfl
        (le_refl _) ?_ ((readFieldCode_block owner key hnext).writes _ (List.mem_singleton_self _))
        ?_ (fun cs top r hr ↦ ?_) ?_, .inr ⟨rfl, rfl⟩⟩
    · intro htidy
      have hdst : f.registers.next < f.taken.registers.high := htidy.next_le
      have hwithin := within_taken f
      simp only [List.forall_mem_singleton]
      exact fits_readField htidy (howner.within hwithin) (hkey.within hwithin) hdst.le hdst
    · refine .inr ⟨_, List.mem_singleton_self _, ?_⟩
      cases owner <;> exact List.mem_cons_self
    · cases owner <;> rfl
    · cases owner <;> exact fun _ ↦ rfl
    · rcases reads_readField hr with hr | hr
      · exact howner.known hkey.le r hr
      · exact (hkey.known (le_refl _) r hr).mono howner.le
    · cases owner <;> exact fun _ ↦ rfl

theorem furnishes_write (hlo : f.registers.numLocals ≤ lo) (h : f.HoldsTarget target lo mid)
    (hv : f.Holds v mid f.registers.next) (hmidW : W mid) (htarget : target.Allowed W U f) :
    Furnishes W U lo (target.write v) f (fun _ g ↦ g.registers.next = mid) := by
  have hlomid := h.le
  have hmid : f.registers.numLocals ≤ mid := hlo.trans hlomid
  cases target with
  | register r =>
    refine ((furnishes_setLocal hmid hv h.1 htarget).lower hlomid hv.le).mono ?_
    rintro _ _ - rfl
    rfl
  | upvalue u =>
    refine ((furnishes_inRegister hmid hmidW hv).lower hlomid hv.le).bind ?_
    intro r g hfg hplaced
    have hmidg : g.registers.numLocals ≤ mid := hfg.numLocals.trans_le hmid
    have hr : g.HoldsRegister r mid g.registers.next := hplaced.holds hv
    have hu : u < g.proto.upvalues.length := h.1.trans_le hfg.within.upvalues
    have hset : g.CanSet U u := CanSet.developed htarget hplaced.sameVariables.developed
    refine (Builds.pushRelease (fun hg ↦ ?_)
      (fun hg ↦ release_eq (f := g.emit _) hg hmidg hr) hmidg hr.le).mono ?_
    · have hlt := hr.lt_high hg hg.next_le
      exact ⟨List.forall_mem_singleton.mpr hlt, List.forall_mem_nil _,
        List.forall_mem_singleton.mpr hu, rfl⟩
    · rintro _ _ - rfl
      refine ⟨supplied_effect rfl ⟨rfl, rfl, rfl⟩ hr.le rfl ⟨?_, fun q hq ↦ ?_⟩ ?_, rfl⟩
      · exact fun _ hq ↦ absurd hq Bool.false_ne_true
      · obtain rfl : q = u := by simpa [Instruction.setsUpvalue] using hq
        exact hset
      · rintro cs top q rfl
        exact (hr.known (le_refl _)).mono hlomid
  | member owner key =>
    obtain ⟨mid', howner, hkey⟩ := h
    refine ((furnishes_toOperand hmid hmidW hv).lower hlomid hv.le).bind ?_
    intro x g hfg hplaced
    have hmidg : g.registers.numLocals ≤ mid := hfg.numLocals.trans_le hmid
    have hx := hplaced.holds hv
    have hownerg := howner.within hfg.within
    have hkeyg := hkey.within hfg.within
    rw [writeField_eq]
    refine (Builds.pushRelease (fun hg ↦ ?_)
      (fun hg ↦ releaseOperand_eq (f := g.emit _) hg hmidg hx) hmidg hx.le).mono ?_
    · exact fits_writeField hg hownerg hkeyg hx hg.next_le
    · rintro _ _ - rfl
      have hplain : (writeFieldCode owner key x).isPlain = true := by
        cases owner <;> rfl
      have hobeys (S : Nat → Prop) : (writeFieldCode owner key x).Obeys W S := by
        cases owner <;> exact .of_inert (fun _ ↦ rfl) fun _ ↦ rfl
      refine ⟨supplied_effect rfl ⟨rfl, rfl, rfl⟩ hx.le hplain (hobeys _) ?_, rfl⟩
      intro cs top r hr
      rcases reads_writeField hr with hr | hr | hr
      · exact hownerg.known (hkeyg.le.trans hx.le) r hr
      · exact (hkeyg.known hx.le r hr).mono howner.le
      · exact (hx.known (le_refl _) r hr).mono hlomid

theorem furnishes_assign (hlo : f.registers.numLocals ≤ lo) (h : f.HoldsTarget target lo mid)
    (hv : f.Holds v mid f.registers.next) (hmidW : W mid) (htarget : target.Allowed W U f) :
    Furnishes W U lo (target.assign v) f (fun _ g ↦ g.registers.next = lo) := by
  refine (furnishes_write hlo h hv hmidW htarget).bind ?_
  rintro _ g hfg rfl
  have hlog : g.registers.numLocals ≤ lo := hfg.numLocals.trans_le hlo
  have htarget := h.within hfg.within
  refine (Builds.lower (fun hg ↦ release_eq_downTo hg hlog htarget) hlog htarget.le).mono ?_
  rintro _ _ - rfl
  exact ⟨supplied_downTo g htarget.le, rfl⟩

/-- The value of an assignment moves down to where the target was. -/
theorem furnishes_keepAssigned {r : Nat} (hlo : f.registers.numLocals ≤ lo)
    (h : f.HoldsTarget target lo mid) (hr : f.HoldsRegister r mid f.registers.next)
    (hW : ∀ q, lo ≤ q → W q) (htarget : target.Allowed W U f) :
    Furnishes W U lo (do
        target.assign (.register r)
        if r < (← get).registers.numLocals then
          return .register r
        else
          let dst ← takeRegister
          load (.register r) dst
          return .register dst) f
      (fun w g ↦ g.Holds w lo g.registers.next) := by
  refine .assuming fun hf ↦ ?_
  have hhigh := hr.lt_high hf hf.next_le
  refine Builds.bind (furnishes_assign (v := .register r) hlo h hr (hW mid h.le) htarget) ?_
  rintro _ g hfg ⟨hcode, rfl⟩
  have hrg : r < g.registers.high := hhigh.trans_le hfg.within.high
  refine .get ?_
  by_cases hlocal : r < g.registers.numLocals
  · rw [if_pos hlocal]
    exact .pure ⟨hcode, .inl ⟨hlocal, rfl⟩⟩
  · rw [if_neg hlocal]
    have hheld : g.Holds (.register r) r (r + 1) := .inr ⟨rfl, rfl⟩
    have hlate : (g.downTo f.registers.next).Holds (.register r) mid f.registers.next :=
      hr.within (g := g.downTo f.registers.next) (hfg.within.trans (within_downTo g _))
    have hload : (g.downTo f.registers.next).Supplied W U mid false
        (g.taken.emit (Value.loadCode g.registers.next (.register r))) := by
      refine supplied_load hlate (hW _ (le_refl _)) ⟨rfl, rfl, rfl⟩ rfl fun q hq ↦ ?_
      rcases hq with hq | ⟨hq, hlt⟩
      · exact .inl (.inl hq)
      · exact .inr (Nat.le_antisymm (Nat.lt_succ_iff.mp hlt) (h.le.trans hq))
    refine Builds.take (Value.loadCode g.registers.next (.register r))
      (bind_of_ok (load_eq hheld _ _)) ?_ ?_
      ⟨(hcode.regain hfg.numLocals).trans (hload.lower h.le hr.le), .inr ⟨rfl, rfl⟩⟩
    · intro htidy
      have hwithin := within_taken g
      exact Value.loadCode_fits htidy (hheld.within hwithin) (hrg.trans_le hwithin.high)
        htidy.next_le
    · rcases Value.eq_register_or_named hheld g.registers.next with hsame | hnamed
      · obtain rfl : r = g.registers.next := by simpa using hsame
        exact .inl hrg
      · exact .inr hnamed

theorem furnishes_assignValue (hlo : f.registers.numLocals ≤ lo) (h : f.HoldsTarget target lo mid)
    (hv : f.Holds v mid f.registers.next) (hW : ∀ q, lo ≤ q → W q)
    (htarget : target.Allowed W U f) :
    Furnishes W U lo (target.assignValue v) f (fun w g ↦ g.Holds w lo g.registers.next) := by
  have hkeep : Furnishes W U lo (do
      let r ← inRegister v
      target.assign (.register r)
      if r < (← get).registers.numLocals then
        return .register r
      else
        let dst ← takeRegister
        load (.register r) dst
        return .register dst) f (fun w g ↦ g.Holds w lo g.registers.next) := by
    refine ((furnishes_inRegister (hlo.trans h.le) (hW mid h.le) hv).lower h.le hv.le).bind ?_
    intro r g hfg hplaced
    have hr : g.HoldsRegister r mid g.registers.next := hplaced.holds hv
    exact furnishes_keepAssigned (hfg.numLocals.trans_le hlo) (h.within hfg.within) hr hW
      (htarget.developed hplaced.sameVariables.developed)
  cases target with
  | register r =>
    obtain ⟨hr, rfl⟩ := h
    refine (furnishes_setLocal hlo hv hr htarget).bind ?_
    rintro _ _ - rfl
    exact .pure (.inl ⟨hr, rfl⟩)
  | upvalue u => exact hkeep
  | member owner key => exact hkeep

end Target

end LuaLower
