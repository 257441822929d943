import LuaLower.Prototype
import LuaLower.Proofs.Instruction.Flow
import LuaLower.Proofs.Instruction.Operands

/-!
# Registers that are written before they are read

On its way through a piece of code, control leaves behind the registers that were written. A piece
of code leads from one condition on them to another if its positions can be annotated so that every
instruction finds written what it reads, and every step establishes what the next position assumes.
-/

namespace LuaLower

/-! ## Reading and writing -/

namespace Instruction

/-- Whether an instruction reads a register. Operands without a count of their own reach up to
`top`, and a closure reads the registers that the function captures. -/
def reads (children : List Prototype) (top : Nat) (i : Instruction) (r : Nat) : Prop :=
  match i with
  | .abc op a b c =>
    match op with
    | .move | .unm | .bnot | .not | .len | .testSet => r = b
    | .setUpval | .test => r = a
    | .getTabUp => r ∈ RK.registers c
    | .getTable | .self => r = b ∨ r ∈ RK.registers c
    | .setTable => r = a ∨ r ∈ RK.registers b ∨ r ∈ RK.registers c
    | .setTabUp | .add | .sub | .mul | .mod | .pow | .div | .idiv
    | .band | .bor | .bxor | .shl | .shr
    | .eq | .lt | .le => r ∈ RK.registers b ∨ r ∈ RK.registers c
    | .concat => b ≤ r ∧ r ≤ c
    | .call | .tailCall => a ≤ r ∧ r < if b = 0 then top else a + b
    | .ret => a ≤ r ∧ r < if b = 0 then top else a + b - 1
    | .setList => a ≤ r ∧ r < if b = 0 then top else a + b + 1
    | .tforCall => a ≤ r ∧ r ≤ a + 2
    | _ => False
  | .abx op _ bx =>
    op = .closure ∧ ∃ child, children[bx]? = some child ∧
      ∃ u ∈ child.upvalues, u.inStack = true ∧ u.index.toNat = r
  | .asbx op a _ =>
    match op with
    | .forLoop | .forPrep => a ≤ r ∧ r ≤ a + 2
    | .tforLoop => r = a + 1
    | _ => False
  | .ax .. => False

/-- Whether an instruction has written a register when control has gone on by `d` positions. Results
without a count of their own reach up to `top`, and a test writes only if it is passed. -/
def assigns (d : Int) (top : Nat) (i : Instruction) (r : Nat) : Prop :=
  match i with
  | .abc op a b c =>
    match op with
    | .move | .loadBool | .getUpval | .getTabUp | .getTable | .newTable
    | .add | .sub | .mul | .mod | .pow | .div | .idiv
    | .band | .bor | .bxor | .shl | .shr
    | .unm | .bnot | .not | .len | .concat => r = a
    | .loadNil => a ≤ r ∧ r ≤ a + b
    | .self => r = a ∨ r = a + 1
    | .testSet => d = 1 ∧ r = a
    | .call | .tailCall => a ≤ r ∧ r < if c = 0 then top else a + c - 1
    | .vararg => a ≤ r ∧ r < if b = 0 then top else a + b - 1
    | .tforCall => a + 3 ≤ r ∧ r ≤ a + 2 + c
    | _ => False
  | .abx op a _ => (op = .loadK ∨ op = .loadKX ∨ op = .closure) ∧ r = a
  | .asbx op a _ =>
    match op with
    | .forPrep => r = a
    | .forLoop => r = a ∨ d ≠ 1 ∧ r = a + 3
    | .tforLoop => d ≠ 1 ∧ r = a
    | _ => False
  | .ax .. => False

/-- The first register of results without a count of their own. -/
def openResults? : Instruction → Option Nat
  | .abc .call a _ 0 | .abc .tailCall a _ 0 | .abc .vararg a 0 _ => some a
  | _ => none

end Instruction

/-- What control leaves behind: the registers that were written, and where the latest results
without a count of their own end. -/
structure Progress where
  written : Nat → Prop
  top : Nat

structure Instruction.Effect (i : Instruction) (d : Int) (x y : Progress) : Prop where
  written : ∀ r, y.written r ↔ x.written r ∨ i.assigns d y.top r
  top : match i.openResults? with
    | some first => first ≤ y.top
    | none => y.top = x.top

namespace Prototype

/-- Control can reach a position of the code, starting with the parameters, and has then made some
progress. -/
inductive Path (p : Prototype) : Nat → Progress → Prop
  | start (top : Nat) : Path p 0 ⟨(· < p.numParams.toNat), top⟩
  | step {pc next : Nat} {i : Instruction} {x y : Progress} : Path p pc x → p.code[pc]? = some i →
    (next : Int) ∈ i.successors pc → i.Effect (next - pc) x y → Path p next y

/-- Whatever path is taken, every register was written before it is read. -/
def ReadsWritten (p : Prototype) : Prop :=
  ∀ pc x i, p.Path pc x → p.code[pc]? = some i →
    ∀ r, i.reads p.children x.top r → x.written r

end Prototype

/-! ## Annotated code -/

/-- At every position of the code, what is assumed there covers what the instruction reads, and
wherever control goes next, inside the code or right behind it, what is assumed there holds. -/
def Annotated (children : List Prototype) (code : List Instruction)
    (assumed : Nat → Progress → Prop) : Prop :=
  ∀ pc i, code[pc]? = some i → ∀ x, assumed pc x →
    (∀ r, i.reads children x.top r → x.written r) ∧
    ∀ target : Int, target ∈ i.successors pc → ∀ y, i.Effect (target - pc) x y →
      ∃ next : Nat, target = next ∧ next ≤ code.length ∧ assumed next y

/-- Control that enters the code with `P` leaves it with `Q`, if at all, and reads nothing on its
way that was not written. -/
def Carries (children : List Prototype) (P : Progress → Prop) (code : List Instruction)
    (Q : Progress → Prop) : Prop :=
  ∃ assumed, Annotated children code assumed ∧ (∀ x, P x → assumed 0 x) ∧
    ∀ x, assumed code.length x → Q x

theorem Instruction.successors_add (i : Instruction) (n pc : Nat) :
    i.successors (n + pc) = (i.successors pc).map fun target ↦ (n : Int) + target := by
  cases i with
  | abc op a b c => cases op <;> simp [successors, add_assoc, apply_ite (List.map _)]
  | abx op a bx => simp [successors, add_assoc, apply_ite (List.map _)]
  | asbx op a offset => cases op <;> simp [successors, add_assoc]
  | ax op k => rfl

namespace Carries

variable {children : List Prototype} {P P' Q Q' R : Progress → Prop} {is js : List Instruction}

theorem nil (h : ∀ x, P x → Q x) : Carries children P [] Q :=
  ⟨fun _ ↦ P, nofun, fun _ hx ↦ hx, h⟩

theorem mono (h : Carries children P is Q) (hP : ∀ x, P' x → P x) (hQ : ∀ x, Q x → Q' x) :
    Carries children P' is Q' := by
  obtain ⟨assumed, hcode, hbegin, hend⟩ := h
  exact ⟨assumed, hcode, fun x hx ↦ hbegin x (hP x hx), fun x hx ↦ hQ x (hend x hx)⟩

theorem append (his : Carries children P is Q) (hjs : Carries children Q js R) :
    Carries children P (is ++ js) R := by
  obtain ⟨first, hfirst, hbegin, hmiddle⟩ := his
  obtain ⟨second, hsecond, hmiddle', hend⟩ := hjs
  -- Where the two pieces meet, the annotation of the second one applies.
  let assumed (k : Nat) : Progress → Prop :=
    if k < is.length then first k else second (k - is.length)
  have hmeet {k : Nat} {x : Progress} (hk : k ≤ is.length) (hx : first k x) : assumed k x := by
    rcases Nat.lt_or_eq_of_le hk with hlt | rfl
    · simpa only [assumed, if_pos hlt] using hx
    · simpa only [assumed, lt_irrefl, if_false, Nat.sub_self] using hmiddle' x (hmiddle x hx)
  refine ⟨assumed, ?_, fun x hx ↦ hmeet (Nat.zero_le _) (hbegin x hx), fun x hx ↦ ?_⟩
  · intro pc i hi x hx
    rcases Nat.lt_or_ge pc is.length with hlt | hge
    · rw [List.getElem?_append_left hlt] at hi
      simp only [assumed, if_pos hlt] at hx
      obtain ⟨hreads, hnext⟩ := hfirst pc i hi x hx
      refine ⟨hreads, fun target htarget y hy ↦ ?_⟩
      obtain ⟨next, rfl, hle, hnext⟩ := hnext target htarget y hy
      exact ⟨next, rfl, by simp only [List.length_append]; omega, hmeet hle hnext⟩
    · obtain ⟨k, rfl⟩ := Nat.exists_eq_add_of_le hge
      rw [List.getElem?_append_right hge, Nat.add_sub_cancel_left] at hi
      simp only [assumed, Nat.not_lt.mpr hge, if_false, Nat.add_sub_cancel_left] at hx
      obtain ⟨hreads, hnext⟩ := hsecond k i hi x hx
      refine ⟨hreads, fun target htarget y hy ↦ ?_⟩
      rw [Instruction.successors_add] at htarget
      obtain ⟨inside, hinside, rfl⟩ := List.mem_map.mp htarget
      have hd : (is.length + inside - (is.length + k : Nat) : Int) = inside - k := by
        push_cast
        omega
      rw [hd] at hy
      obtain ⟨next, rfl, hle, hnext⟩ := hnext inside hinside y hy
      refine ⟨is.length + next, by push_cast; rfl, by simp only [List.length_append]; omega, ?_⟩
      simpa only [assumed, Nat.not_lt.mpr (Nat.le_add_right _ _), if_false, Nat.add_sub_cancel_left]
        using hnext
  · simp only [assumed, List.length_append, Nat.not_lt.mpr (Nat.le_add_right _ _), if_false,
      Nat.add_sub_cancel_left] at hx
    exact hend x hx

/-- An instruction after which control goes on to the next one, or leaves the function. -/
theorem single {i : Instruction} (hnext : ∀ pc, i.successors pc ⊆ [(pc : Int) + 1])
    (hreads : ∀ x, P x → ∀ r, i.reads children x.top r → x.written r)
    (heffect : ∀ x y, P x → i.Effect 1 x y → Q y) : Carries children P [i] Q := by
  refine ⟨fun k ↦ if k = 0 then P else Q, ?_, fun x hx ↦ hx, fun x hx ↦ hx⟩
  intro pc j hj x hx
  obtain ⟨rfl, rfl⟩ : pc = 0 ∧ j = i := by
    obtain ⟨hlt, hj⟩ := List.getElem?_eq_some_iff.mp hj
    obtain rfl : pc = 0 := by simpa using hlt
    exact ⟨rfl, hj.symm⟩
  refine ⟨hreads x hx, fun target htarget y hy ↦ ⟨1, ?_, le_refl 1, ?_⟩⟩
  · simpa using hnext 0 htarget
  · obtain rfl : target = 1 := by simpa using hnext 0 htarget
    exact heffect x y hx hy

end Carries

/-! ## Written registers -/

/-- All registers of a set have been written. -/
def Progress.Has (A : Nat → Prop) (x : Progress) : Prop := ∀ r, A r → x.written r

namespace Instruction.Effect

variable {i : Instruction} {d : Int} {x y : Progress} {A B : Nat → Prop}

/-- What was written stays written. -/
theorem has (h : i.Effect d x y) (hx : x.Has A) : y.Has A :=
  fun r hr ↦ (h.written r).mpr (.inl (hx r hr))

theorem has_of_assigns (h : i.Effect d x y) (hx : x.Has A)
    (hB : ∀ r, B r → A r ∨ i.assigns d y.top r) : y.Has B :=
  fun r hr ↦ (h.written r).mpr ((hB r hr).imp (hx r) id)

end Instruction.Effect

namespace Carries

variable {children : List Prototype} {A B C : Nat → Prop} {dst : Nat}

theorem plain {i : Instruction} (hplain : i.isPlain = true)
    (hreads : ∀ top r, i.reads children top r → A r)
    (hwrites : ∀ top r, B r → A r ∨ i.assigns 1 top r) :
    Carries children (Progress.Has A) [i] (Progress.Has B) := by
  refine .single (fun pc ↦ ?_) (fun x hx r hr ↦ hx r (hreads _ r hr))
    fun x y hx hy ↦ hy.has_of_assigns hx (hwrites _)
  have hnext : _ ∧ i.successors pc = [] ∨ _ ∧ i.successors pc = [(pc : Int) + 1] :=
    Instruction.successors_of_isPlain hplain
  rcases hnext with ⟨-, h⟩ | ⟨-, h⟩ <;> simp [h]

/-- A constant whose index takes a word of its own, which is not executed. -/
theorem wide {k : Nat} (hB : ∀ r, B r → A r ∨ r = dst) :
    Carries children (Progress.Has A) [.abx .loadKX dst 0, .ax .extraArg k] (Progress.Has B) := by
  refine ⟨fun k ↦ if k = 0 then Progress.Has A else if k = 1 then fun _ ↦ False else Progress.Has B,
    ?_, fun x hx ↦ hx, fun x hx ↦ hx⟩
  intro pc i hi x hx
  match pc with
  | 0 =>
    cases hi
    refine ⟨fun r hr ↦ by simp [Instruction.reads] at hr, fun target htarget y hy ↦ ?_⟩
    obtain rfl : target = 2 := by simpa [Instruction.successors] using htarget
    exact ⟨2, rfl, le_refl 2, hy.has_of_assigns hx (by simpa [Instruction.assigns] using hB)⟩
  | 1 => exact hx.elim
  | pc + 2 => simp at hi

/-- The truth value of a comparison: the test selects one of two loads. -/
theorem comparison {op : Opcode} {holdsOn left right : Nat} (hop : op = .eq ∨ op = .lt ∨ op = .le)
    (hreads : ∀ r, r ∈ RK.registers left ∨ r ∈ RK.registers right → A r)
    (hB : ∀ r, B r → A r ∨ r = dst) :
    Carries children (Progress.Has A) [.abc op holdsOn left right, .asbx .jmp 0 1,
      .abc .loadBool dst 0 1, .abc .loadBool dst 1 0] (Progress.Has B) := by
  refine ⟨fun k ↦ if k < 4 then Progress.Has A else Progress.Has B, ?_, fun x hx ↦ hx,
    fun x hx ↦ hx⟩
  intro pc i hi x hx
  match pc with
  | 0 =>
    cases hi
    refine ⟨fun r hr ↦ hx r (hreads r ?_), fun target htarget y hy ↦ ?_⟩
    · rcases hop with rfl | rfl | rfl <;> exact hr
    · have htarget : target = 1 ∨ target = 2 := by
        rcases hop with rfl | rfl | rfl <;> simpa [Instruction.successors] using htarget
      rcases htarget with rfl | rfl
      · exact ⟨1, rfl, by simp, hy.has hx⟩
      · exact ⟨2, rfl, by simp, hy.has hx⟩
  | 1 =>
    cases hi
    refine ⟨fun r hr ↦ by simp [Instruction.reads] at hr, fun target htarget y hy ↦ ?_⟩
    obtain rfl : target = 3 := by simpa [Instruction.successors] using htarget
    exact ⟨3, rfl, by simp, hy.has hx⟩
  | 2 =>
    cases hi
    refine ⟨fun r hr ↦ by simp [Instruction.reads] at hr, fun target htarget y hy ↦ ?_⟩
    obtain rfl : target = 4 := by simpa [Instruction.successors] using htarget
    exact ⟨4, rfl, le_refl 4, hy.has_of_assigns hx hB⟩
  | 3 =>
    cases hi
    refine ⟨fun r hr ↦ by simp [Instruction.reads] at hr, fun target htarget y hy ↦ ?_⟩
    obtain rfl : target = 4 := by simpa [Instruction.successors] using htarget
    exact ⟨4, rfl, le_refl 4, hy.has_of_assigns hx hB⟩
  | pc + 4 => simp at hi

/-- A piece of code that is skipped if a value decides a logical operation alone. The value is then
in the register that the skipped code would have written. -/
theorem guarded {body : List Instruction} {src decides : Nat} (hsrc : A src)
    (hbody : Carries children (Progress.Has A) body (Progress.Has B))
    (hskip : ∀ r, B r → A r ∨ r = dst) :
    Carries children (Progress.Has A)
      ([.abc .testSet dst src decides, .asbx .jmp 0 body.length] ++ body) (Progress.Has B) := by
  obtain ⟨assumed, hcode, hbegin, hend⟩ := hbody
  let passed (k : Nat) : Progress → Prop := match k with
    | 0 => Progress.Has A
    | 1 => Progress.Has fun r ↦ A r ∨ r = dst
    | k + 2 => fun x ↦ assumed k x ∨ k = body.length ∧ x.Has B
  refine ⟨passed, ?_, fun x hx ↦ hx, fun x hx ↦ ?_⟩
  · intro pc i hi x hx
    match pc with
    | 0 =>
      cases hi
      refine ⟨fun r hr ↦ hr ▸ hx src hsrc, fun target htarget y hy ↦ ?_⟩
      have htarget : target = 1 ∨ target = 2 := by simpa [Instruction.successors] using htarget
      rcases htarget with rfl | rfl
      · exact ⟨1, rfl, by simp, hy.has_of_assigns hx fun r hr ↦ hr.imp id fun h ↦ ⟨rfl, h⟩⟩
      · exact ⟨2, rfl, by simp, .inl (hbegin y (hy.has hx))⟩
    | 1 =>
      cases hi
      refine ⟨fun r hr ↦ by simp [Instruction.reads] at hr, fun target htarget y hy ↦ ?_⟩
      obtain rfl : target = body.length + 2 := by
        have htarget : target = 1 + 1 + body.length := by
          simpa [Instruction.successors] using htarget
        omega
      refine ⟨body.length + 2, by push_cast; rfl, by simp, .inr ⟨rfl, ?_⟩⟩
      exact fun r hr ↦ hy.has hx r (hskip r hr)
    | pc + 2 =>
      have hi : body[pc]? = some i := hi
      obtain hx | ⟨rfl, -⟩ := hx
      · obtain ⟨hreads, hnext⟩ := hcode pc i hi x hx
        refine ⟨hreads, fun target htarget y hy ↦ ?_⟩
        rw [Nat.add_comm, Instruction.successors_add] at htarget
        obtain ⟨inside, hinside, rfl⟩ := List.mem_map.mp htarget
        have hd : ((2 : Nat) + inside - (pc + 2 : Nat) : Int) = inside - pc := by
          push_cast
          omega
        rw [hd] at hy
        obtain ⟨next, rfl, hle, hnext⟩ := hnext inside hinside y hy
        exact ⟨next + 2, by push_cast; omega, by simp; omega, .inl hnext⟩
      · simp at hi
  · rw [List.length_append, Nat.add_comm] at hx
    obtain hx | ⟨-, hx⟩ := hx
    · exact hend x hx
    · exact hx

end Carries

/-- Code that carries the parameters through reads nothing that was not written. -/
theorem Prototype.readsWritten_of_carries {p : Prototype} {is : List Instruction}
    {Q : Progress → Prop} (hcode : p.code = is.toArray)
    (h : Carries p.children (Progress.Has (· < p.numParams.toNat)) is Q) : p.ReadsWritten := by
  obtain ⟨assumed, hannotated, hbegin, -⟩ := h
  have hpath {pc : Nat} {x : Progress} (hpath : p.Path pc x) : assumed pc x := by
    induction hpath with
    | start top => exact hbegin _ fun r hr ↦ hr
    | step _ hi hnext heffect ih =>
      rw [hcode, List.getElem?_toArray] at hi
      obtain ⟨next, heq, -, hassumed⟩ := (hannotated _ _ hi _ ih).2 _ hnext _ heffect
      rwa [Int.ofNat_inj.mp heq]
  intro pc x i hx hi
  rw [hcode, List.getElem?_toArray] at hi
  exact (hannotated pc i hi x (hpath hx)).1

end LuaLower
