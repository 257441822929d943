import LuaLower.Proofs.Supply.Constructs

/-!
# Every syntax tree is supplied

By induction over the syntax. Statements declare variables, and a declaration writes a local even if
it is constant, so the names that are declared count.
-/

namespace LuaLower

open OpenFunction Build

variable {W : Nat → Prop} {U : String → Prop} {s t : Session} {names others : List String}
  {x y : Lower Unit} {value : Lower Value} {init : Option (Lower Value)}

/-! ## Rules for statements -/

theorem Session.MayDeclare.follows (h : s.MayDeclare W names) (hs : s.Allows W U)
    (hst : s.Follows t) (ht : t.Ready) : t.MayDeclare W names := fun name hname l hl ↦
  (hst.current.local?_cases ht.tidy hl).elim (h name hname l) (hs.free l.register)

theorem Settles.of_supplies (h : Supplies W U s.current.registers.next x s fun _ t ↦
    t.current.registers.next = s.current.registers.next) : Settles W U x s := by
  intro hs hsettled
  refine (h hs).mono ?_ fun _ _ _ ↦ trivial
  rintro _ t ⟨hst, hcode, hnext⟩
  exact ⟨⟨hst.toFollows, hst.ready, hnext.trans (hsettled.trans hst.numLocals_eq.symm)⟩,
    hcode.lower (Nat.zero_le _) (le_refl _)⟩

theorem Settles.get {k : Session → Lower Unit} (hk : Settles W U (k s) s) :
    Settles W U (get >>= k) s := hk

namespace SuppliesStatement

theorem pure : SuppliesStatement (pure ()) names := fun _ _ _ _ _ ↦ .of_supplies (.pure rfl)

theorem throw {e : Failure} : SuppliesStatement (throw e) names :=
  fun _ _ _ _ _ _ _ ↦ yields_throw trivial

theorem bind (hx : SuppliesStatement x names) (hy : SuppliesStatement y others) :
    SuppliesStatement (do x; y) (names ++ others) := by
  intro W U s hs hnames hready hsettled
  have hnames := List.forall_mem_append.mp hnames
  refine (hx W U s hs hnames.1 hready hsettled).bind ?_
  rintro _ t ⟨⟨hst, ht, hsettled⟩, hcode⟩
  have hothers : t.MayDeclare W others := Session.MayDeclare.follows hnames.2 hs hst ht
  refine (hy W U t (hs.follows hst ht) hothers ht hsettled).mono ?_ fun _ _ _ ↦ trivial
  rintro _ u ⟨⟨htu, hu, hsettled⟩, hcode'⟩
  exact ⟨⟨hst.trans htu, hu, hsettled⟩, hcode.trans hcode'⟩

theorem settle : SuppliesStatement (Lower.onCurrent settle) [] := by
  intro W U s _ _ hready hsettled
  have hsettle := settle_apply hready.tidy hsettled
  exact .of_ok (Lower.onCurrent_of_ok hsettle) ⟨⟨.refl s, hready, hsettled⟩, .refl _⟩

end SuppliesStatement

/-! ## Declarations -/

theorem supplies_initialValue (hinit : ∀ value ∈ init, SuppliesValue value) (hs : s.Allows W U) :
    Supplies W U s.current.registers.next (Lower.initialValue init) s fun r t ↦
      r = s.current.registers.next ∧
        t.current.registers.next = s.current.registers.next + 1 := by
  refine Continues.assuming fun hready ↦ ?_
  cases init with
  | none =>
    refine (Supplies.onCurrent (furnishes_newNil (hs.next hready)) (by simp)).mono ?_
    rintro _ t - ⟨rfl, ht⟩
    exact ⟨rfl, by rw [ht]; rfl⟩
  | some value =>
    refine Supplies.bind (hinit value rfl W U s hs) ?_
    intro v t hst hv
    refine (Supplies.onCurrent
      (furnishes_inNewRegister (hst.numLocals_le hready) (hs.next hready) hv) (by simp)).mono ?_
    rintro _ u - ⟨rfl, hu⟩
    exact ⟨rfl, by rw [hu]; rfl⟩

/-- The register of a new local has been written before the local is bound to it. -/
theorem settles_bindNew (name : String) (isConst : Bool)
    (hinit : ∀ value ∈ init, SuppliesValue value) (hs : s.Allows W U) :
    Settles W U (do
      let r ← Lower.initialValue init
      bindLocal name r isConst) s := by
  intro hready hsettled
  refine (supplies_initialValue hinit hs hready).bind ?_
  rintro _ t ⟨hst, hcode, rfl, hnext⟩
  have hnumLocals : s.current.registers.next = t.current.registers.numLocals :=
    hsettled.trans hst.numLocals_eq.symm
  have hcode := hcode.lower (Nat.zero_le _) (le_refl _)
  rw [hnumLocals] at hnext ⊢
  have hlt : t.current.registers.numLocals < Registers.limit := by
    have htidy := hst.ready.tidy
    have := htidy.next_le.trans htidy.high_le
    omega
  have hbind := bindLocal_apply hst.ready.tidy name isConst hnext
  have hdeveloped : t.current.Developed (t.current.binding name isConst) :=
    ⟨List.suffix_cons _ _, List.prefix_rfl, List.prefix_rfl⟩
  have hfollows : t.Follows { t with current := t.current.binding name isConst } :=
    .of_current hdeveloped (ChainStep.declare hlt hbind).linked
  have hgrows : Grows (fun _ _ ↦ True) 0 t.current [] (t.current.binding name isConst) :=
    .bind t.current name isConst hnext
  refine .of_ok (Lower.onCurrent_of_ok hbind) ⟨⟨hst.toFollows.trans hfollows,
    ⟨hst.ready.owners, hgrows.tidy hst.ready.tidy⟩, hnext⟩,
    hcode.trans (.of_known hdeveloped rfl rfl fun r hr ↦ .inr ⟨Nat.zero_le r, ?_⟩)⟩
  rcases hr with hr | hr
  · exact hr.trans_eq hnext.symm
  · exact hr.2

theorem supplies_declareGlobal (name : String) (hinit : ∀ value ∈ init, SuppliesValue value)
    (hs : s.Allows W U) :
    Supplies W U s.current.registers.next (do
      Lower.addGlobal name
      match init with
      | some init => Lower.setGlobal name init
      | none => return) s fun _ t ↦
      t.current.registers.next = s.current.registers.next := by
  refine Supplies.bind (supplies_addGlobal name) ?_
  intro _ t hst ht
  cases init with
  | none => exact .pure (by rw [ht])
  | some value =>
    rw [← ht]
    exact supplies_setGlobal name (hinit value rfl) (hst.allows hs)

theorem suppliesStatement_declare (kind : DeclKind) (name : String)
    (hinit : ∀ value ∈ init, SuppliesValue value) :
    SuppliesStatement (Lower.declare kind name init) [name] := by
  intro W U s hs hnames
  refine .get ?_
  cases hlocal : s.current.local? name with
  | some l =>
    have hW : W l.register := hnames name (List.mem_singleton_self name) l hlocal
    cases init with
    | some value => exact .of_supplies (supplies_setLocal hlocal hW (hinit value rfl) hs)
    | none =>
      simp only
      split
      · exact .of_supplies (Continues.assuming fun hready ↦
          Supplies.onCurrent (furnishes_loadNil (hready.tidy.find?_lt hlocal) hW) (by simp))
      · exact .of_supplies (.pure rfl)
  | none =>
    by_cases hkind : kind.bindsLocal = true
    · simp only [hkind, if_true]
      exact settles_bindNew name _ hinit hs
    · simp only [hkind]
      exact .of_supplies (supplies_declareGlobal name hinit hs)

theorem suppliesStatement_declareFunction (name : String) (hvalue : SuppliesValue value) :
    SuppliesStatement (Lower.declareFunction name value) [name] := by
  intro W U s hs hnames
  refine .get (.of_supplies ?_)
  cases hlocal : s.current.local? name with
  | some l =>
    exact supplies_setLocal hlocal (hnames name (List.mem_singleton_self name) l hlocal) hvalue hs
  | none =>
    have hinit : ∀ x ∈ some value, SuppliesValue x := by
      rintro _ ⟨⟩
      exact hvalue
    exact supplies_declareGlobal name hinit hs

/-! ## Induction over the syntax -/

/-- The names that a statement declares in its function. -/
def Stmt.declaredNames : Stmt → List String
  | .declaration _ declarators => declarators.map Declarator.name
  | .function name .. => [name]
  | _ => []

section Syntax

variable (types : TypeOracle)

mutual

theorem supplies_expr : ∀ e : Expr, SuppliesValue (Lower.expr types e)
  | .literal l => suppliesValue_literal l
  | .identifier name => suppliesValue_lookup types name
  | .this => suppliesValue_lookupThis
  | .object properties => suppliesValue_table 0 _ _ fun W U table s hs _ hnext ↦ by
    have h := supplies_objectProperties properties W U table s hs (by omega)
    rwa [hnext] at h
  | .array [] => by
    have h : SuppliesValue _ :=
      suppliesValue_table 0 0 (fun _ ↦ pure ()) fun _ _ _ _ _ _ hnext ↦ .pure hnext
    simp only [pure_bind] at h
    exact h
  | .array (none :: rest) => by
    rw [Lower.expr]
    split
    · exact fun _ _ _ _ ↦ Continues.throw
    · exact suppliesValue_table _ _ _ fun W U table s hs hlo hnext ↦
        supplies_arrayItems rest W U table 0 1 s (by decide) (by decide) hs hlo hnext
  | .array (some first :: rest) => by
    rw [Lower.expr]
    split
    · exact fun _ _ _ _ ↦ Continues.throw
    · have h := suppliesValue_table (List.length (some first :: rest) - 1)
        (min (List.length (some first :: rest)) 1) _ fun W U table s hs hlo hnext ↦
          (supplies_arrayItems rest W U table 0 1 s (by decide) (by decide) hs hlo hnext).bind
            fun _ t hst ht ↦ ht ▸ supplies_setFirst (le_refl table) (by omega)
              (supplies_expr first) (hst.allows hs)
      simp only [bind_assoc] at h
      exact h
  | .member object name => suppliesValue_member types name (supplies_expr object)
  | .index object key => suppliesValue_index (supplies_expr object) (supplies_expr key)
  | .unary op operand => by
    rw [Lower.expr]
    cases hop : op.opcode? with
    | some opcode => exact suppliesValue_unary hop (supplies_expr operand)
    | none => exact fun _ _ _ _ ↦ Continues.throw
  | .binary _ left right => suppliesValue_binary _ _ (supplies_expr left) (supplies_expr right)
  | .call callee args => suppliesValue_call (supplies_expr callee) (supplies_arguments args)
  | .assign _ target value => suppliesValue_assign (supplies_target target) (supplies_expr value)
  | .update _ _ target =>
    suppliesValue_assign (supplies_target target) (suppliesValue_literal (.number .one))
  | .function _ params body => suppliesValue_function (supplies_statements body) params
  | .arrow params (.block body) => suppliesValue_function (supplies_statements body) params
  | .arrow _ (.expression _) => fun _ _ _ _ ↦ Continues.throw
  | .conditional _ _ _ => fun _ _ _ _ ↦ Continues.throw
  | .new _ _ => fun _ _ _ _ ↦ Continues.throw
  | .sequence _ => fun _ _ _ _ ↦ Continues.throw

theorem supplies_arguments : ∀ args : List Expr,
    SuppliesArguments (Lower.arguments types args) args.length
  | [] => fun _ _ _ _ ↦ .pure ⟨.refl _, rfl⟩
  | arg :: args => by
    have hcons := suppliesArguments_cons (supplies_expr arg) (supplies_arguments args)
    cases arg with
    | call callee forwarded =>
      cases args with
      | nil =>
        intro W U s hs
        rw [Lower.arguments]
        refine Continues.bind (continues_callWith .forward (supplies_expr callee)
          (supplies_arguments forwarded) hs) ?_
        rintro _ t - ⟨hcode, rfl, hnext⟩
        exact .pure ⟨hcode, hnext⟩
      | cons _ _ => exact hcons
    | _ => exact hcons

theorem supplies_propertyKey : ∀ key : PropertyKey, SuppliesValue (Lower.propertyKey types key)
  | .identifier name => suppliesValue_constant (.string name)
  | .literal l => by
    rw [Lower.propertyKey]
    cases l.constant? with
    | some k => exact suppliesValue_constant k
    | none => exact fun _ _ _ _ ↦ Continues.throw
  | .computed key => supplies_expr key

theorem supplies_objectProperties : ∀ (properties : List Property) (W : Nat → Prop)
    (U : String → Prop) (table : Nat) (s : Session), s.Allows W U →
    table < s.current.registers.next →
    Supplies W U table (Lower.objectProperties types table properties) s fun _ t ↦
      t.current.registers.next = s.current.registers.next
  | [], _, _, _, _, _, _ => .pure rfl
  | ⟨key, value⟩ :: properties, W, U, table, s, hs, htable => by
    refine Supplies.bind (supplies_property (le_refl table) htable (supplies_propertyKey key)
      (supplies_expr value) hs) ?_
    intro _ t hst ht
    rw [← ht] at htable ⊢
    exact supplies_objectProperties properties W U table t (hst.allows hs) htable

theorem supplies_arrayItem : ∀ (element : Option Expr) (W : Nat → Prop) (U : String → Prop)
    (s : Session), s.Allows W U →
    Supplies W U s.current.registers.next (Lower.arrayItem types element) s fun _ t ↦
      t.current.registers.next = s.current.registers.next + 1
  | some e, _, _, _, hs => supplies_item (supplies_expr e) hs
  | none, _, _, _, hs => Continues.assuming fun hready ↦
    Supplies.onCurrent (furnishes_hole (hs.next hready)) (by simp)

theorem supplies_arrayItems : ∀ (elements : List (Option Expr)) (W : Nat → Prop)
    (U : String → Prop) (table pending batch : Nat) (s : Session), batch ≠ 0 →
    pending < batchSize → s.Allows W U → s.current.registers.numLocals ≤ table →
    s.current.registers.next = table + 1 + pending →
    Supplies W U table (Lower.arrayItems types table pending batch elements) s fun _ t ↦
      t.current.registers.next = table + 1
  | [], W, U, table, pending, batch, s, hbatch, hpending, _, hlo, hnext => by
    rw [Lower.arrayItems]
    split
    case isTrue hpos =>
      exact .onCurrent (furnishes_storeBatch hbatch hpos hpending.le (le_refl _) hlo hnext)
        (by simp)
    case isFalse => exact .pure (by omega)
  | element :: elements, W, U, table, pending, batch, s, hbatch, hpending, hs, hlo, hnext => by
    rw [Lower.arrayItems]
    refine Supplies.bind ((supplies_arrayItem element W U s hs).lower (by omega) (le_refl _)) ?_
    intro _ t hst ht
    have hlot := hst.numLocals_eq.trans_le hlo
    split
    · refine Supplies.bind (.onCurrent (furnishes_storeBatch hbatch (Nat.succ_pos pending)
        hpending (le_refl _) hlot (by omega)) (by simp)) ?_
      intro _ u htu hu
      exact supplies_arrayItems elements W U table 0 (batch + 1) u (Nat.succ_ne_zero batch)
        (by decide) (htu.allows (hst.allows hs)) (htu.numLocals_eq.trans_le hlot) hu
    · exact supplies_arrayItems elements W U table (pending + 1) batch t hbatch (by omega)
        (hst.allows hs) hlot (by omega)

theorem supplies_target : ∀ e : Expr, SuppliesTarget (Lower.target types e)
  | .identifier name => suppliesTarget_name name
  | .member object name => suppliesTarget_field name (supplies_expr object)
  | .index object key => suppliesTarget_index (supplies_expr object) (supplies_expr key)
  | .literal _ | .this | .array _ | .object _ | .binary _ _ _ | .unary _ _ | .assign _ _ _
  | .call _ _ | .conditional _ _ _ | .function _ _ _ | .arrow _ _ | .new _ _ | .update _ _ _
  | .sequence _ => fun _ _ _ _ ↦ Continues.throw

theorem supplies_declarators : ∀ (kind : DeclKind) (declarators : List Declarator),
    SuppliesStatement (Lower.declarators types kind declarators) (declarators.map Declarator.name)
  | _, [] => .pure
  | kind, ⟨name, some init⟩ :: rest =>
    .bind (suppliesStatement_declare kind name (by rintro _ ⟨⟩; exact supplies_expr init))
      (supplies_declarators kind rest)
  | kind, ⟨name, none⟩ :: rest =>
    .bind (suppliesStatement_declare kind name (by rintro _ ⟨⟩)) (supplies_declarators kind rest)

theorem supplies_statement : ∀ stmt : Stmt,
    SuppliesStatement (Lower.statement types stmt) stmt.declaredNames
  | .empty => .pure
  | .declaration kind declarators => supplies_declarators kind declarators
  | .function name params body =>
    suppliesStatement_declareFunction name
      (suppliesValue_function (supplies_statements body) params)
  | .expression e => by
    have hdrop (h : Lower.statement types (.expression e) = do drop (← Lower.expr types e)) :
        SuppliesStatement (Lower.statement types (.expression e)) [] := by
      rw [h]
      exact fun _ _ _ hs _ ↦ .of_supplies (supplies_drop (supplies_expr e) hs)
    cases e with
    | call callee args =>
      refine fun W U s hs _ ↦ .of_supplies (Continues.bind
        (continues_callWith .discard (supplies_expr callee) (supplies_arguments args) hs) ?_)
      rintro _ t - ⟨hcode, rfl, hnext⟩
      exact .pure ⟨hcode, hnext⟩
    | assign op target value =>
      exact fun _ _ _ hs _ ↦ .of_supplies
        (supplies_assignStatement (supplies_target target) (supplies_expr value) hs)
    | update op form target =>
      exact fun _ _ _ hs _ ↦ .of_supplies
        (supplies_assignStatement (supplies_target target)
          (suppliesValue_literal (.number .one)) hs)
    | _ => exact hdrop rfl
  | .ret (some value) => fun _ _ _ hs _ ↦
    .of_supplies (supplies_returnValue (supplies_expr value) hs)
  | .ret none => fun _ _ _ _ _ ↦ .of_supplies (.onCurrent furnishes_returnNone (by simp))
  | .block _ | .cond _ _ _ | .while _ _ | .for _ _ _ _ | .break | .continue | .throw _
  | .class _ _ =>
    .throw

theorem supplies_statements : ∀ body : List Stmt,
    SuppliesStatement (Lower.statements types body) (body.flatMap Stmt.declaredNames)
  | [] => .pure
  | stmt :: rest => .bind (supplies_statement stmt) (.bind .settle (supplies_statements rest))

end

end Syntax

/-! ## Bodies -/

theorem Session.allows_all (h : Linked s.functions) :
    s.Allows (fun _ ↦ True) (fun _ ↦ True) where
  linked := h
  free _ _ := trivial
  assigned _ _ _ _ := trivial
  upvalue _ _ := trivial

end LuaLower
