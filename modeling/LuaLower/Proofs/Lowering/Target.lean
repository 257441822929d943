import LuaLower.Proofs.Lowering.Binary

/-!
# Assignments emit code

A target holds the registers of its table and key until the value is written. Writing releases what
the value holds, and an assignment ends where the target began.
-/

namespace LuaLower

open OpenFunction

variable {Nested : ParamTree → Prototype → Prop} {W : Nat → Prop} {b : Nat} {f g : OpenFunction}
  {v : Value} {target : Target} {lo mid hi : Nat}

namespace OpenFunction

def HoldsTarget (f : OpenFunction) : Target → Nat → Nat → Prop
  | .register r, lo, hi => r < f.registers.numLocals ∧ hi = lo
  | .upvalue u, lo, hi => u < f.proto.upvalues.length ∧ hi = lo
  | .member owner key, lo, hi =>
    ∃ mid, f.Holds owner.toValue lo mid ∧ f.HoldsOperand key mid hi

theorem HoldsTarget.within (h : f.HoldsTarget target lo hi) (hfg : Within f g) :
    g.HoldsTarget target lo hi := by
  cases target with
  | register r => exact ⟨h.1.trans_eq hfg.numLocals.symm, h.2⟩
  | upvalue u => exact ⟨h.1.trans_le hfg.upvalues, h.2⟩
  | member owner key =>
    obtain ⟨mid, howner, hkey⟩ := h
    exact ⟨mid, howner.within hfg, hkey.within hfg⟩

theorem HoldsTarget.le (h : f.HoldsTarget target lo hi) : lo ≤ hi := by
  cases target with
  | register r => exact h.2.ge
  | upvalue u => exact h.2.ge
  | member owner key =>
    obtain ⟨mid, howner, hkey⟩ := h
    exact howner.le.trans hkey.le

end OpenFunction

namespace Target

open Build

/-! ## Fields -/

def readFieldCode (owner : Place) (key dst : Nat) : Instruction :=
  match owner with
  | .register t => .abc .getTable dst t key
  | .upvalue u => .abc .getTabUp dst u key

def writeFieldCode (owner : Place) (key value : Nat) : Instruction :=
  match owner with
  | .register t => .abc .setTable t key value
  | .upvalue u => .abc .setTabUp u key value

theorem readField_eq (owner : Place) (key dst : Nat) :
    readField owner key dst = push (readFieldCode owner key dst) := by
  cases owner <;> rfl

theorem writeField_eq (owner : Place) (key value : Nat) :
    writeField owner key value = push (writeFieldCode owner key value) := by
  cases owner <;> rfl

theorem fits_readField {owner : Place} {key dst : Nat} (hf : f.registers.Tidy)
    (howner : f.Holds owner.toValue lo mid) (hkey : f.HoldsOperand key mid hi)
    (hhi : hi ≤ f.registers.high) (hdst : dst < f.registers.high) :
    (readFieldCode owner key dst).Fits f := by
  have hfits := hkey.fits hf hhi
  cases owner with
  | register t =>
    have ht : t < f.registers.high := HoldsRegister.lt_high howner hf (hkey.le.trans hhi)
    exact fits_getTable hfits ht hdst
  | upvalue u => exact fits_getTabUp hfits howner.1 hdst

theorem fits_writeField {owner : Place} {key x last : Nat} (hf : f.registers.Tidy)
    (howner : f.Holds owner.toValue lo mid) (hkey : f.HoldsOperand key mid hi)
    (hx : f.HoldsOperand x hi last) (hlast : last ≤ f.registers.high) :
    (writeFieldCode owner key x).Fits f := by
  have hhi := hx.le.trans hlast
  cases owner with
  | register t =>
    have ht : t < f.registers.high := HoldsRegister.lt_high howner hf (hkey.le.trans hhi)
    have hrs : ∀ r ∈ [t], r < f.registers.high := by simpa using ht
    exact .of_operands (hkey.fits hf hhi) (hx.fits hf hlast) hrs rfl rfl
      (List.forall_mem_nil _) rfl
  | upvalue u =>
    have hu : u < f.proto.upvalues.length := howner.1
    have hrs : ∀ r ∈ [], r < f.registers.high := by simp
    exact .of_operands (hkey.fits hf hhi) (hx.fits hf hlast) hrs rfl rfl
      (List.forall_mem_singleton.mpr hu) rfl

theorem readFieldCode_block (owner : Place) (key : Nat) {dst : Nat} (hdst : W dst) :
    Block W false [readFieldCode owner key dst] := by
  cases owner <;> exact .single rfl (by simp [readFieldCode, Instruction.writes]) hdst

theorem writeFieldCode_block (owner : Place) (key value : Nat) :
    Block W false [writeFieldCode owner key value] := by
  cases owner <;> exact .plain rfl nofun

/-! ## Reading and writing -/

/-- A local that is assigned may be written. -/
def WritesIn (W : Nat → Prop) : Target → Prop
  | .register r => W r
  | _ => True

theorem emits_read (h : f.HoldsTarget target lo f.registers.next) (hnext : W f.registers.next) :
    Emits Nested W b target.read f
      (fun v g ↦ g.Holds v f.registers.next g.registers.next) := by
  cases target with
  | register r => exact .pure (.inl ⟨h.1, rfl⟩)
  | upvalue u =>
    have hcode : Block W false [.abc .getUpval f.registers.next u 0] :=
      .single rfl (by simp [Instruction.writes]) hnext
    refine Builds.take [.abc .getUpval f.registers.next u 0] (bind_of_ok (push_apply _ _)) ?_ ?_
      ⟨.of_emit rfl hcode, .inr ⟨rfl, rfl⟩⟩
    · intro htidy
      have hdst : f.registers.next < f.taken.registers.high := htidy.next_le
      have hu : u < f.taken.proto.upvalues.length := h.1
      simp only [List.forall_mem_singleton]
      exact fits_getUpval hu hdst
    · exact .inr ⟨_, List.mem_singleton_self _, List.mem_cons_self⟩
  | member owner key =>
    obtain ⟨mid, howner, hkey⟩ := h
    simp only [read, readField_eq]
    refine Builds.take [readFieldCode owner key f.registers.next]
      (bind_of_ok (push_apply _ _)) ?_ ?_
      ⟨.of_emit rfl (readFieldCode_block owner key hnext), .inr ⟨rfl, rfl⟩⟩
    · intro htidy
      have hdst : f.registers.next < f.taken.registers.high := htidy.next_le
      have hwithin := within_taken f
      simp only [List.forall_mem_singleton]
      exact fits_readField htidy (howner.within hwithin) (hkey.within hwithin) hdst.le hdst
    · refine .inr ⟨_, List.mem_singleton_self _, ?_⟩
      cases owner <;> exact List.mem_cons_self

theorem emits_write (hlo : f.registers.numLocals ≤ lo) (h : f.HoldsTarget target lo mid)
    (hv : f.Holds v mid f.registers.next) (hmidW : W mid) (htarget : target.WritesIn W) :
    Emits Nested W b (target.write v) f (fun _ g ↦ g.registers.next = mid) := by
  have hmid : f.registers.numLocals ≤ mid := hlo.trans h.le
  cases target with
  | register r =>
    have hr (hf : f.registers.Tidy) : r < f.registers.high :=
      h.1.trans_le (hf.numLocals_le.trans hf.next_le)
    refine (emits_setLocal hmid hv hr htarget).mono ?_
    rintro _ _ - rfl
    rfl
  | upvalue u =>
    refine (emits_inRegister hmid hmidW hv).bind ?_
    intro r g hfg hplaced
    have hmidg : g.registers.numLocals ≤ mid := hfg.numLocals.trans_le hmid
    have hr : g.HoldsRegister r mid g.registers.next := hplaced.holds hv
    have hu : u < g.proto.upvalues.length := h.1.trans_le hfg.within.upvalues
    have hcode : Block W false [.abc .setUpval r u 0] := .plain rfl nofun
    refine (Builds.pushRelease (fun hg ↦ ?_)
      (fun hg ↦ release_eq (f := g.emit _) hg hmidg hr) hmidg hr.le).mono ?_
    · have hlt := hr.lt_high hg hg.next_le
      exact ⟨List.forall_mem_singleton.mpr hlt, List.forall_mem_nil _,
        List.forall_mem_singleton.mpr hu, rfl⟩
    · rintro _ _ - rfl
      exact ⟨.of_emit rfl hcode, rfl⟩
  | member owner key =>
    obtain ⟨mid', howner, hkey⟩ := h
    refine (emits_toOperand hmid hmidW hv).bind ?_
    intro x g hfg hplaced
    have hmidg : g.registers.numLocals ≤ mid := hfg.numLocals.trans_le hmid
    have hx := hplaced.holds hv
    rw [writeField_eq]
    refine (Builds.pushRelease (fun hg ↦ ?_)
      (fun hg ↦ releaseOperand_eq (f := g.emit _) hg hmidg hx) hmidg hx.le).mono ?_
    · exact fits_writeField hg (howner.within hfg.within) (hkey.within hfg.within) hx hg.next_le
    · rintro _ _ - rfl
      exact ⟨.of_emit rfl (writeFieldCode_block owner key x), rfl⟩

theorem release_eq_downTo (hf : f.registers.Tidy) (hlo : f.registers.numLocals ≤ lo)
    (h : f.HoldsTarget target lo f.registers.next) : target.release f = .ok () (f.downTo lo) := by
  cases target with
  | register r =>
    obtain ⟨_, rfl⟩ := h
    rfl
  | upvalue u =>
    obtain ⟨_, rfl⟩ := h
    rfl
  | member owner key =>
    obtain ⟨mid, howner, hkey⟩ := h
    cases owner with
    | register t => exact releaseOperands_eq hf hlo (.inr howner) hkey
    | upvalue u =>
      obtain ⟨_, rfl⟩ := howner
      exact releaseOperand_eq hf hlo hkey

theorem emits_assign (hlo : f.registers.numLocals ≤ lo) (h : f.HoldsTarget target lo mid)
    (hv : f.Holds v mid f.registers.next) (hmidW : W mid) (htarget : target.WritesIn W) :
    Emits Nested W b (target.assign v) f (fun _ g ↦ g.registers.next = lo) := by
  refine (emits_write hlo h hv hmidW htarget).bind ?_
  rintro _ g hfg rfl
  have hlog : g.registers.numLocals ≤ lo := hfg.numLocals.trans_le hlo
  have htarget := h.within hfg.within
  refine (Builds.lower (fun hg ↦ release_eq_downTo hg hlog htarget) hlog htarget.le).mono ?_
  rintro _ _ - rfl
  exact ⟨.of_code_eq rfl, rfl⟩

/-- The value of an assignment, once it is in a register: it moves down to where the target was. -/
theorem emits_keepAssigned {r : Nat} (hlo : f.registers.numLocals ≤ lo)
    (h : f.HoldsTarget target lo mid) (hr : f.HoldsRegister r mid f.registers.next)
    (hW : ∀ q, lo ≤ q → W q) (htarget : target.WritesIn W) :
    Emits Nested W b (do
        target.assign (.register r)
        if r < (← get).registers.numLocals then
          return .register r
        else
          let dst ← takeRegister
          load (.register r) dst
          return .register dst) f
      (fun w g ↦ g.Holds w lo g.registers.next) := by
  refine .assuming fun hf _ ↦ ?_
  have hhigh := hr.lt_high hf hf.next_le
  refine (emits_assign (v := .register r) hlo h hr (hW mid h.le) htarget).bind ?_
  rintro _ g hfg rfl
  have hrg : r < g.registers.high := hhigh.trans_le hfg.within.high
  refine .get ?_
  by_cases hlocal : r < g.registers.numLocals
  · rw [if_pos hlocal]
    exact .pure (.inl ⟨hlocal, rfl⟩)
  · rw [if_neg hlocal]
    have hheld : g.Holds (.register r) r (r + 1) := .inr ⟨rfl, rfl⟩
    have hnext := hW g.registers.next (le_refl _)
    refine Builds.take (Value.loadCode g.registers.next (.register r))
      (bind_of_ok (load_eq hheld _ _)) ?_ ?_
      ⟨.of_emit rfl (Value.loadCode_block _ hnext), .inr ⟨rfl, rfl⟩⟩
    · intro htidy
      have hwithin := within_taken g
      exact Value.loadCode_fits htidy (hheld.within hwithin) (hrg.trans_le hwithin.high)
        htidy.next_le
    · rcases Value.eq_register_or_named hheld g.registers.next with hsame | hnamed
      · obtain rfl : r = g.registers.next := by simpa using hsame
        exact .inl hrg
      · exact .inr hnamed

theorem emits_assignValue (hlo : f.registers.numLocals ≤ lo) (h : f.HoldsTarget target lo mid)
    (hv : f.Holds v mid f.registers.next) (hW : ∀ q, lo ≤ q → W q) (htarget : target.WritesIn W) :
    Emits Nested W b (target.assignValue v) f (fun w g ↦ g.Holds w lo g.registers.next) := by
  have hkeep : Emits Nested W b (do
      let r ← inRegister v
      target.assign (.register r)
      if r < (← get).registers.numLocals then
        return .register r
      else
        let dst ← takeRegister
        load (.register r) dst
        return .register dst) f (fun w g ↦ g.Holds w lo g.registers.next) := by
    refine (emits_inRegister (hlo.trans h.le) (hW mid h.le) hv).bind ?_
    intro r g hfg hplaced
    have hr : g.HoldsRegister r mid g.registers.next := hplaced.holds hv
    exact emits_keepAssigned (hfg.numLocals.trans_le hlo) (h.within hfg.within) hr hW htarget
  cases target with
  | register r =>
    obtain ⟨hr, rfl⟩ := h
    refine (emits_setLocal hlo hv
      (fun hf ↦ hr.trans_le (hf.numLocals_le.trans hf.next_le)) htarget).bind ?_
    rintro _ _ - rfl
    exact .pure (.inl ⟨hr, rfl⟩)
  | upvalue u => exact hkeep
  | member owner key => exact hkeep

end Target

end LuaLower
