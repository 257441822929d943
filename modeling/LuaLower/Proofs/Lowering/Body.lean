import LuaLower.Lowering.Body
import LuaLower.Proofs.Lowering.Constructs

/-!
# Every syntax tree translates

By induction over the syntax: expressions become blocks and values that hold the temporaries above
those in use, statements proceed, and the nested functions are those of the source in the order in
which they are compiled.
-/

namespace LuaLower

/-! ## Nested functions of the source -/

mutual

/-- The functions nested in an expression, in the order in which they are compiled. The first
element of an array comes last. What cannot be compiled has none. -/
def Expr.paramTrees : Expr → List ParamTree
  | .object properties => propertiesParamTrees properties
  | .array [] => []
  | .array (first :: rest) => itemsParamTrees rest ++ itemParamTrees first
  | .member object _ => object.paramTrees
  | .index object key => object.paramTrees ++ key.paramTrees
  | .unary _ operand => operand.paramTrees
  | .binary _ left right => left.paramTrees ++ right.paramTrees
  | .call callee args => callee.paramTrees ++ argumentsParamTrees args
  | .assign _ target value => target.paramTrees ++ value.paramTrees
  | .update _ _ target => target.paramTrees
  | .function _ params body => [.node params.length (statementsParamTrees body)]
  | .arrow params (.block body) => [.node params.length (statementsParamTrees body)]
  | _ => []

def argumentsParamTrees : List Expr → List ParamTree
  | [] => []
  | arg :: args => arg.paramTrees ++ argumentsParamTrees args

def PropertyKey.paramTrees : PropertyKey → List ParamTree
  | .computed key => key.paramTrees
  | _ => []

def propertiesParamTrees : List Property → List ParamTree
  | [] => []
  | ⟨key, value⟩ :: properties =>
    (key.paramTrees ++ value.paramTrees) ++ propertiesParamTrees properties

def itemParamTrees : Option Expr → List ParamTree
  | some e => e.paramTrees
  | none => []

def itemsParamTrees : List (Option Expr) → List ParamTree
  | [] => []
  | item :: items => itemParamTrees item ++ itemsParamTrees items

def declaratorsParamTrees : List Declarator → List ParamTree
  | [] => []
  | ⟨_, some init⟩ :: rest => init.paramTrees ++ declaratorsParamTrees rest
  | ⟨_, none⟩ :: rest => declaratorsParamTrees rest

def Stmt.paramTrees : Stmt → List ParamTree
  | .declaration _ declarators => declaratorsParamTrees declarators
  | .function _ params body => [.node params.length (statementsParamTrees body)]
  | .expression e => e.paramTrees
  | .ret (some e) => e.paramTrees
  | _ => []

def statementsParamTrees : List Stmt → List ParamTree
  | [] => []
  | s :: rest => s.paramTrees ++ statementsParamTrees rest

end

/-! ## Names assigned in the source -/

def Expr.name? : Expr → Option String
  | .identifier name => some name
  | _ => none

mutual

/-- The names that an expression assigns or updates, apart from what nested functions do. -/
def Expr.assignedNames : Expr → List String
  | .object properties => propertiesAssignedNames properties
  | .array [] => []
  | .array (first :: rest) => itemsAssignedNames rest ++ itemAssignedNames first
  | .member object _ => object.assignedNames
  | .index object key => object.assignedNames ++ key.assignedNames
  | .unary _ operand => operand.assignedNames
  | .binary _ left right => left.assignedNames ++ right.assignedNames
  | .call callee args => callee.assignedNames ++ argumentsAssignedNames args
  | .assign _ target value =>
    (target.name?.toList ++ target.assignedNames) ++ value.assignedNames
  | .update _ _ target => target.name?.toList ++ target.assignedNames
  | _ => []

def argumentsAssignedNames : List Expr → List String
  | [] => []
  | arg :: args => arg.assignedNames ++ argumentsAssignedNames args

def PropertyKey.assignedNames : PropertyKey → List String
  | .computed key => key.assignedNames
  | _ => []

def propertiesAssignedNames : List Property → List String
  | [] => []
  | ⟨key, value⟩ :: properties =>
    (key.assignedNames ++ value.assignedNames) ++ propertiesAssignedNames properties

def itemAssignedNames : Option Expr → List String
  | some e => e.assignedNames
  | none => []

def itemsAssignedNames : List (Option Expr) → List String
  | [] => []
  | item :: items => itemAssignedNames item ++ itemsAssignedNames items

end

/-! ## Induction over the syntax -/

open OpenFunction Build

variable {Nested : ParamTree → Prototype → Prop} {W : Nat → Prop} {b : Nat} {s : Session}
  {ts us : List ParamTree} {names others : List String} {object key value right : Lower Value}
  {target : Lower Target}

theorem proceeds_settle : Proceeds Nested b (Lower.onCurrent settle) s [] := by
  intro hs hsettled _
  have hsettle := settle_apply hs.tidy hsettled
  exact .of_ok (Lower.onCurrent_of_ok hsettle) ⟨.refl s, hsettled, .refl _⟩

theorem proceeds_hoist (body : List Stmt) : Proceeds Nested b (Lower.hoist body) s [] := by
  intro _ hsettled _
  refine .of_ok rfl ⟨⟨.refl _, forall₂_gained_refl _, ?_⟩, hsettled, .refl _⟩
  exact Names.owners_addGlobals _ _

theorem proceeds_body {types : TypeOracle} {body : List Stmt}
    (h : ∀ b s, Proceeds Nested b (Lower.statements types body) s ts) :
    Proceeds Nested b (do Lower.hoist body; Lower.statements types body) s ts :=
  .bind_first (proceeds_hoist body) fun t _ _ ↦ h b t

theorem translatesValue_function {params : List String} {body : Lower Unit}
    (hNested : ClosesBlock Nested) (hbody : ∀ t, Proceeds Nested 0 body t ts) :
    TranslatesValue Nested (Lower.function params body) [] [.node params.length ts] := by
  intro W b s hs
  refine (translates_function hNested hbody hs.next).mono ?_
  rintro _ t - ⟨rfl, hnext⟩
  exact .inr ⟨rfl, hnext⟩

theorem translatesValue_literal (l : Literal) :
    TranslatesValue Nested (Lower.onCurrent (literal l)) [] [] := by
  intro W b s hs
  refine (Lowers.onCurrent (builds_literal l)).mono ?_
  intro v t _ hbuilt
  exact ⟨hbuilt.emitted hs.next, hbuilt.holds⟩

theorem translatesValue_constant (k : Constant) :
    TranslatesValue Nested (do return .constant (← constantIndex k)) [] [] := by
  intro W b s _
  refine .bind_last (.onCurrent (emits_intern k)) ?_
  rintro _ t - ⟨rfl, ht⟩
  refine .pure ?_
  rw [ht]
  exact holds_intern s.current k

theorem translatesValue_lookup (types : TypeOracle) (name : String) :
    TranslatesValue Nested (Lower.lookup types name) [] [] := by
  intro W b s hs
  refine .assuming fun hready _ ↦ (lowers_lookup types name).mono ?_
  intro v t _ hfound
  exact ⟨hfound.emitted hs.next, hfound.holds hready⟩

theorem translatesValue_lookupThis : TranslatesValue Nested Lower.lookupThis [] [] := by
  intro W b s _
  refine .assuming fun hready _ ↦ lowers_lookupThis.mono ?_
  rintro _ t - (⟨place, rfl, hfound⟩ | ⟨env, rfl, hfound, henv⟩)
  · exact ⟨hfound.emitted, hfound.holds hready⟩
  · exact ⟨hfound.emitted, upvalueIndex?_lt henv, hfound.next_eq⟩

/-- The table of a member access is placed before its key is lowered. -/
theorem translates_table (hobject : TranslatesValue Nested object names ts)
    (hs : s.Covers W names) :
    Translates Nested W b (do toTable (← object)) s ts (fun owner t ↦
      t.current.Holds owner.toValue s.current.registers.next t.current.registers.next) := by
  refine .assuming fun hready _ ↦ .bind_last (hobject W b s hs) ?_
  intro v t hst hv
  have hlo := hst.numLocals.trans_le hready.tidy.numLocals_le
  exact (Translates.onCurrent (emits_toTable hlo hs.next hv)).mono
    fun _ _ _ hplaced ↦ hplaced.holds hv

theorem translatesValue_member (types : TypeOracle) (name : String)
    (hobject : TranslatesValue Nested object names ts) :
    TranslatesValue Nested (do
      let owner ← toTable (← object)
      Lower.withOwner owner.toValue (Lower.lookup types name)) names ts := by
  intro W b s hs
  refine .assuming fun hready _ ↦ ?_
  simp only [withOwner_lookup, ← bind_assoc]
  refine .bind_last (translates_table hobject hs) ?_
  intro owner t hst howner
  have hlo : t.current.registers.numLocals ≤ t.current.registers.next :=
    (hst.ready hready).tidy.numLocals_le
  have hnext : W t.current.registers.next := hs.free _ howner.le
  refine Translates.onCurrent (R := fun v g ↦ g.Holds v s.current.registers.next g.registers.next)
    (Emits.bind (.of_builds (builds_constantKey (.string name) hlo) fun _ _ h ↦ h.emitted hnext) ?_)
  intro key g hg hkey
  exact .pure ⟨owner.isTable_toValue, hkey.1, _, howner.within hg.within, hkey.holds⟩

theorem translatesValue_index (hobject : TranslatesValue Nested object names ts)
    (hkey : TranslatesValue Nested key others us) :
    TranslatesValue Nested (do
      let owner ← toTable (← object)
      let key ← toKey (← key)
      return .member owner.toValue key) (names ++ others) (ts ++ us) := by
  intro W b s hs
  refine .assuming fun hready _ ↦ ?_
  simp only [← bind_assoc (m := Lower) object]
  refine (translates_table hobject hs.left).bind ?_
  intro owner t hst howner
  have hlo : t.current.registers.numLocals ≤ t.current.registers.next :=
    (hst.ready hready).tidy.numLocals_le
  have ht : t.Covers W others := hs.right.later hst howner.le
  refine .bind_last (hkey W b t ht) ?_
  intro k u htu hk
  have hlou := htu.numLocals.trans_le hlo
  refine .bind_last (.onCurrent (emits_toKey hlou ht.next hk)) ?_
  rintro key w huw ⟨hkey, hplaced⟩
  exact .pure ⟨owner.isTable_toValue, hkey, _, (howner.within htu.within).within huw.within,
    hplaced.holds hk⟩

theorem translatesValue_unary {o : UnaryOp} {op : Opcode} (ho : o.opcode? = some op)
    (hvalue : TranslatesValue Nested value names ts) :
    TranslatesValue Nested (do Build.unary op (← value)) names ts := by
  intro W b s hs
  refine .assuming fun hready _ ↦ .bind_last (hvalue W b s hs) ?_
  intro v t hst hv
  have hlo := hst.numLocals.trans_le hready.tidy.numLocals_le
  refine (Translates.onCurrent (emits_unary ho hlo hs.next hv)).mono ?_
  rintro _ u - ⟨rfl, hnext⟩
  exact .inr ⟨rfl, hnext⟩

theorem translatesValue_call {callee : Lower Value} {args : Lower Bool} {argCount : Nat}
    (hcallee : TranslatesValue Nested callee names ts)
    (hargs : TranslatesArguments Nested args argCount others us) :
    TranslatesValue Nested (do
      let base ← Lower.callWith callee args argCount .single
      return .register base) (names ++ others) (ts ++ us) := by
  intro W b s hs
  refine Lowers.bind_last (lowers_callWith .single hcallee hargs hs) ?_
  rintro _ t - ⟨hcode, rfl, hnext⟩
  exact .pure ⟨hcode, .inr ⟨rfl, hnext⟩⟩

theorem translatesValue_assign {compound : Except Failure (Option (BinaryOp × Bool))}
    (htarget : TranslatesTarget Nested target names ts)
    (hright : TranslatesValue Nested right others us) :
    TranslatesValue Nested (do
      let compound ← MonadExcept.ofExcept compound
      let (target, value) ← Lower.assignment target compound right
      target.assignValue value) (names ++ others) (ts ++ us) := by
  intro W b s hs
  refine .assuming fun hready _ ↦ .ofExcept fun compound _ ↦ ?_
  refine .bind_last (translates_assignment compound htarget hright hs) ?_
  rintro ⟨target, value⟩ t hst ⟨hwrites, mid, htarget, hvalue⟩
  have hlo := hst.numLocals.trans_le hready.tidy.numLocals_le
  exact .onCurrent (Target.emits_assignValue hlo htarget hvalue hs.free hwrites)

theorem translates_assignStatement {compound : Except Failure (Option (BinaryOp × Bool))}
    (htarget : TranslatesTarget Nested target names ts)
    (hright : TranslatesValue Nested right others us) :
    Translates Nested (fun _ ↦ True) b (do
      let compound ← MonadExcept.ofExcept compound
      let (target, value) ← Lower.assignment target compound right
      target.assign value) s (ts ++ us)
      (fun _ t ↦ t.current.registers.next = s.current.registers.next) := by
  refine .assuming fun hready _ ↦ .ofExcept fun compound _ ↦ ?_
  refine .bind_last (translates_assignment compound htarget hright (.trivial s _)) ?_
  rintro ⟨target, value⟩ t hst ⟨hwrites, mid, htarget, hvalue⟩
  have hlo := hst.numLocals.trans_le hready.tidy.numLocals_le
  exact .onCurrent (Target.emits_assign hlo htarget hvalue trivial hwrites)

theorem translatesTarget_name (name : String) :
    TranslatesTarget Nested (Lower.nameTarget name) [name] [] := by
  intro W b s hs
  exact (translates_nameTarget name hs).mono fun _ _ _ h ↦ h.1

theorem translatesTarget_field (name : String) (hobject : TranslatesValue Nested object names ts) :
    TranslatesTarget Nested (do
      let owner ← toTable (← object)
      let key ← toOperand (.constant (← stringIndex name))
      return .member owner key) names ts := by
  intro W b s hs
  refine .assuming fun hready _ ↦ ?_
  simp only [← bind_assoc (m := Lower) object]
  refine .bind_last (translates_table hobject hs) ?_
  intro owner t hst howner
  have hlo : t.current.registers.numLocals ≤ t.current.registers.next :=
    (hst.ready hready).tidy.numLocals_le
  refine .bind_last (.onCurrent (emits_intern (.string name))) ?_
  rintro _ u htu ⟨rfl, hu⟩
  have hconstant := holds_intern t.current (.string name)
  have hlou : u.current.registers.numLocals ≤ t.current.registers.next := by
    rw [hu]
    exact hlo
  rw [← hu] at hconstant
  have hnext : u.current.registers.next = t.current.registers.next := by
    rw [hu]
    rfl
  refine .bind_last (.onCurrent
    (emits_toOperand hlou (hs.free _ howner.le) (hnext ▸ hconstant))) ?_
  intro key w huw hplaced
  exact .pure ⟨trivial, _, (howner.within htu.within).within huw.within,
    hplaced.holds (hnext ▸ hconstant)⟩

theorem translatesTarget_index (hobject : TranslatesValue Nested object names ts)
    (hkey : TranslatesValue Nested key others us) :
    TranslatesTarget Nested (do
      let owner ← toTable (← object)
      let key ← toOperand (← key)
      return .member owner key) (names ++ others) (ts ++ us) := by
  intro W b s hs
  refine .assuming fun hready _ ↦ ?_
  simp only [← bind_assoc (m := Lower) object]
  refine (translates_table hobject hs.left).bind ?_
  intro owner t hst howner
  have hlo : t.current.registers.numLocals ≤ t.current.registers.next :=
    (hst.ready hready).tidy.numLocals_le
  have ht : t.Covers W others := hs.right.later hst howner.le
  refine .bind_last (hkey W b t ht) ?_
  intro k u htu hk
  have hlou := htu.numLocals.trans_le hlo
  refine .bind_last (.onCurrent (emits_toOperand hlou ht.next hk)) ?_
  intro key w huw hplaced
  exact .pure ⟨trivial, _, (howner.within htu.within).within huw.within, hplaced.holds hk⟩

/-- A table that stays in its register while its fields are set. -/
theorem translatesValue_table (items fields : Nat) (fill : Nat → Lower Unit)
    (hfill : ∀ W table b s, s.Covers W names → s.current.registers.numLocals ≤ table →
      s.current.registers.next = table + 1 →
      Translates Nested W b (fill table) s ts (fun _ t ↦ t.current.registers.next = table + 1)) :
    TranslatesValue Nested (do
      let table ← newTable items fields
      fill table
      return .register table) names ts := by
  intro W b s hs
  refine .assuming fun hready _ ↦ .bind (.onCurrent (emits_newTable items fields hs.next)) ?_
  rintro _ t hst ⟨rfl, hnext⟩
  have ht : t.Covers W names := hs.later hst (by omega)
  refine .bind_last
    (hfill W _ b t ht (hst.numLocals.trans_le hready.tidy.numLocals_le) hnext) ?_
  intro _ u _ hu
  exact .pure (.inr ⟨rfl, hu⟩)

theorem translates_item (hvalue : TranslatesValue Nested value names ts) (hs : s.Covers W names) :
    Translates Nested W b (do item (← value)) s ts
      (fun _ t ↦ t.current.registers.next = s.current.registers.next + 1) := by
  refine .assuming fun hready _ ↦ .bind_last (hvalue W b s hs) ?_
  intro v t hst hv
  have hlo := hst.numLocals.trans_le hready.tidy.numLocals_le
  exact .onCurrent (emits_item hlo hs.next hv)

theorem translates_setFirst (table : Nat) (htable : table < s.current.registers.next)
    (hvalue : TranslatesValue Nested value names ts) (hs : s.Covers W names) :
    Translates Nested W b (do setFirst table (← value)) s ts
      (fun _ t ↦ t.current.registers.next = s.current.registers.next) := by
  refine .assuming fun hready _ ↦ .bind_last (hvalue W b s hs) ?_
  intro v t hst hv
  have hlo := hst.numLocals.trans_le hready.tidy.numLocals_le
  exact .onCurrent (emits_setFirst htable hlo hs.free hv)

theorem translates_drop (hvalue : TranslatesValue Nested value names ts) :
    Translates Nested (fun _ ↦ True) b (do drop (← value)) s ts
      (fun _ t ↦ t.current.registers.next = s.current.registers.next) := by
  refine .assuming fun hready _ ↦ .bind_last (hvalue _ b s (.trivial s names)) ?_
  intro v t hst hv
  have hlo := hst.numLocals.trans_le hready.tidy.numLocals_le
  exact .onCurrent (emits_drop hlo trivial hv)

theorem translates_returnValue (hvalue : TranslatesValue Nested value names ts) :
    Translates Nested (fun _ ↦ True) b (do returnValue (← value)) s ts
      (fun _ t ↦ t.current.registers.next = s.current.registers.next) := by
  refine .assuming fun hready _ ↦ .bind_last (hvalue _ b s (.trivial s names)) ?_
  intro v t hst hv
  have hlo := hst.numLocals.trans_le hready.tidy.numLocals_le
  exact .onCurrent (emits_returnValue hlo trivial hv)

theorem translates_returnNone :
    Translates Nested W b returnNone s []
      (fun _ t ↦ t.current.registers.next = s.current.registers.next) := by
  refine (Lowers.onCurrent builds_returnNone).mono ?_
  intro _ t _ ht
  have hreturn : Block W false [.abc .ret 0 1 0] := .plain rfl nofun
  exact ⟨.of_emit (by rw [ht]) hreturn, congrArg (·.registers.next) ht⟩

/-- Properties are set one after the other, and each gives back its registers. -/
theorem translates_properties_cons {table : Nat} {rest : Lower Unit} {vs : List ParamTree}
    {later : List String} (htable : table < s.current.registers.next)
    (hkey : TranslatesValue Nested key names ts) (hvalue : TranslatesValue Nested value others us)
    (hrest : ∀ t, t.Covers W later → table < t.current.registers.next →
      Translates Nested W b rest t vs
        (fun _ u ↦ u.current.registers.next = t.current.registers.next))
    (hs : s.Covers W ((names ++ others) ++ later)) :
    Translates Nested W b (do Lower.property table key value; rest) s ((ts ++ us) ++ vs)
      (fun _ t ↦ t.current.registers.next = s.current.registers.next) := by
  refine (translates_property htable hkey hvalue hs.left).bind ?_
  intro _ t hst ht
  have hcovers : t.Covers W later := hs.right.later hst ht.ge
  rw [← ht] at htable ⊢
  exact hrest t hcovers htable

mutual

theorem translates_expr (types : TypeOracle) (hNested : ClosesBlock Nested) :
    ∀ e : Expr, TranslatesValue Nested (Lower.expr types e) e.assignedNames e.paramTrees
  | .literal l => translatesValue_literal l
  | .identifier name => translatesValue_lookup types name
  | .this => translatesValue_lookupThis
  | .object properties => translatesValue_table 0 _ _ fun W table b s hs _ hnext ↦ by
    have h := translates_objectProperties types hNested properties W table b s hs (by omega)
    rwa [hnext] at h
  | .array [] => by
    have h : TranslatesValue Nested _ [] [] :=
      translatesValue_table 0 0 (fun _ ↦ pure ()) fun _ _ _ _ _ _ hnext ↦ .pure hnext
    simp only [pure_bind] at h
    exact h
  | .array (none :: rest) => by
    rw [Lower.expr, Expr.paramTrees, itemParamTrees, List.append_nil, Expr.assignedNames,
      itemAssignedNames, List.append_nil]
    split
    · exact fun _ _ _ _ ↦ .throw
    · exact translatesValue_table _ _ _ fun W table b s hs hlo hnext ↦
        translates_arrayItems types hNested rest W table 0 1 b s (by decide) (by decide)
          (hnext ▸ hs.free) hs hlo hnext
  | .array (some first :: rest) => by
    rw [Lower.expr, Expr.paramTrees, itemParamTrees, Expr.assignedNames, itemAssignedNames]
    split
    · exact fun _ _ _ _ ↦ .throw
    · have h := translatesValue_table (List.length (some first :: rest) - 1)
        (min (List.length (some first :: rest)) 1) _
        fun W table b s (hs : s.Covers W (itemsAssignedNames rest ++ first.assignedNames)) hlo
            hnext ↦
          (translates_arrayItems types hNested rest W table 0 1 b s (by decide) (by decide)
            (hnext ▸ hs.free) hs.left hlo hnext).bind
            fun _ t hst ht ↦ ht ▸ translates_setFirst table (by omega)
              (translates_expr types hNested first) (hs.right.later hst (by omega))
      simp only [bind_assoc] at h
      exact h
  | .member object name => translatesValue_member types name (translates_expr types hNested object)
  | .index object key =>
    translatesValue_index (translates_expr types hNested object) (translates_expr types hNested key)
  | .unary op operand => by
    rw [Lower.expr, Expr.paramTrees, Expr.assignedNames]
    cases hop : op.opcode? with
    | some opcode => exact translatesValue_unary hop (translates_expr types hNested operand)
    | none => exact fun _ _ _ _ ↦ .throw
  | .binary op left right => fun W b s hs ↦
    translates_binary _ _ (translates_expr types hNested left W b s hs.left)
      (translates_expr types hNested right) hs.right
  | .call callee args =>
    translatesValue_call (translates_expr types hNested callee)
      (translates_arguments types hNested args)
  | .assign op target value =>
    translatesValue_assign (translates_target types hNested target)
      (translates_expr types hNested value)
  | .update op form target => by
    have h : TranslatesValue Nested (Lower.expr types (.update op form target))
        ((target.name?.toList ++ target.assignedNames) ++ []) (target.paramTrees ++ []) :=
      translatesValue_assign (translates_target types hNested target)
        (translatesValue_literal (.number .one))
    rwa [List.append_nil, List.append_nil] at h
  | .function _ params body =>
    translatesValue_function hNested fun t ↦ proceeds_body (proceeds_statements types hNested body)
  | .arrow params (.block body) =>
    translatesValue_function hNested fun t ↦ proceeds_body (proceeds_statements types hNested body)
  | .arrow _ (.expression _) => fun _ _ _ _ ↦ .throw
  | .conditional _ _ _ => fun _ _ _ _ ↦ .throw
  | .new _ _ => fun _ _ _ _ ↦ .throw
  | .sequence _ => fun _ _ _ _ ↦ .throw

theorem translates_arguments (types : TypeOracle) (hNested : ClosesBlock Nested) :
    ∀ args : List Expr, TranslatesArguments Nested (Lower.arguments types args) args.length
      (argumentsAssignedNames args) (argumentsParamTrees args)
  | [] => fun _ _ _ _ ↦ .pure ⟨.refl _, rfl⟩
  | arg :: args => by
    have hcons (h : Lower.arguments types (arg :: args) = do
        item (← Lower.expr types arg)
        Lower.arguments types args) :
        TranslatesArguments Nested (Lower.arguments types (arg :: args)) (arg :: args).length
          (argumentsAssignedNames (arg :: args)) (argumentsParamTrees (arg :: args)) := by
      intro W b s hs
      rw [argumentsAssignedNames] at hs
      rw [h]
      simp only [← bind_assoc]
      refine Lowers.bind (translates_item (translates_expr types hNested arg) hs.left) ?_
      rintro _ t hst ⟨hcode, ht⟩
      have hcovers : t.Covers W (argumentsAssignedNames args) :=
        hs.right.later hst (by omega)
      refine (translates_arguments types hNested args W b t hcovers).mono ?_
      rintro isOpen u _ ⟨hcode', hu⟩
      refine ⟨hcode.trans hcode', ?_⟩
      rw [hu, ht, List.length_cons]
      omega
    cases arg with
    | call callee forwarded =>
      cases args with
      | nil =>
        intro W b s hs
        rw [argumentsAssignedNames, argumentsAssignedNames, List.append_nil] at hs
        rw [Lower.arguments, argumentsParamTrees, argumentsParamTrees, List.append_nil]
        refine .bind_last (lowers_callWith .forward (translates_expr types hNested callee)
          (translates_arguments types hNested forwarded) hs) ?_
        rintro _ t - ⟨hcode, rfl, hnext⟩
        exact .pure ⟨hcode, hnext⟩
      | cons _ _ => exact hcons rfl
    | _ => exact hcons rfl

theorem translates_propertyKey (types : TypeOracle) (hNested : ClosesBlock Nested) :
    ∀ key : PropertyKey,
      TranslatesValue Nested (Lower.propertyKey types key) key.assignedNames key.paramTrees
  | .identifier name => translatesValue_constant (.string name)
  | .literal l => by
    rw [Lower.propertyKey]
    cases l.constant? with
    | some k => exact translatesValue_constant k
    | none => exact fun _ _ _ _ ↦ .throw
  | .computed key => translates_expr types hNested key

theorem translates_objectProperties (types : TypeOracle) (hNested : ClosesBlock Nested) :
    ∀ (properties : List Property) (W : Nat → Prop) (table b : Nat) (s : Session),
      s.Covers W (propertiesAssignedNames properties) → table < s.current.registers.next →
      Translates Nested W b (Lower.objectProperties types table properties) s
        (propertiesParamTrees properties)
        (fun _ t ↦ t.current.registers.next = s.current.registers.next)
  | [], _, _, _, _, _, _ => .pure rfl
  | ⟨key, value⟩ :: properties, W, table, b, _, hs, htable =>
    translates_properties_cons htable (translates_propertyKey types hNested key)
      (translates_expr types hNested value)
      (translates_objectProperties types hNested properties W table b) hs

theorem translates_arrayItem (types : TypeOracle) (hNested : ClosesBlock Nested) :
    ∀ (element : Option Expr) (W : Nat → Prop) (b : Nat) (s : Session),
      s.Covers W (itemAssignedNames element) →
      Translates Nested W b (Lower.arrayItem types element) s (itemParamTrees element)
        (fun _ t ↦ t.current.registers.next = s.current.registers.next + 1)
  | some e, _, _, _, hs => translates_item (translates_expr types hNested e) hs
  | none, _, _, _, hs => .onCurrent (emits_hole hs.next)

theorem translates_arrayItems (types : TypeOracle) (hNested : ClosesBlock Nested) :
    ∀ (elements : List (Option Expr)) (W : Nat → Prop) (table pending batch b : Nat) (s : Session),
      batch ≠ 0 → pending < batchSize → (∀ r, table + 1 ≤ r → W r) →
      s.Covers W (itemsAssignedNames elements) → s.current.registers.numLocals ≤ table →
      s.current.registers.next = table + 1 + pending →
      Translates Nested W b (Lower.arrayItems types table pending batch elements) s
        (itemsParamTrees elements) (fun _ t ↦ t.current.registers.next = table + 1)
  | [], W, table, pending, batch, b, s, hbatch, hpending, _, _, hlo, hnext => by
    rw [Lower.arrayItems]
    split
    case isTrue hpos => exact .onCurrent (emits_storeBatch hbatch hpos hpending.le hlo hnext)
    case isFalse => exact .pure (by omega)
  | element :: rest, W, table, pending, batch, b, s, hbatch, hpending, hfree, hs, hlo, hnext => by
    rw [itemsAssignedNames] at hs
    rw [Lower.arrayItems]
    refine (translates_arrayItem types hNested element W b s hs.left).bind ?_
    intro _ t hst ht
    have hlot := hst.numLocals.trans_le hlo
    split
    · have hfull : t.current.registers.next = table + 1 + (pending + 1) := by omega
      refine .bind
        (.onCurrent (emits_storeBatch hbatch (Nat.succ_pos pending) hpending hlot hfull)) ?_
      intro _ u htu hu
      have hcovers : u.Covers W (itemsAssignedNames rest) :=
        hs.right.of_extends (hst.trans htu) (hu ▸ hfree)
      exact translates_arrayItems types hNested rest W table 0 (batch + 1) b u
        (Nat.succ_ne_zero batch) (by decide) hfree hcovers (htu.numLocals.trans_le hlot) hu
    · exact translates_arrayItems types hNested rest W table (pending + 1) batch b t hbatch
        (by omega) hfree (hs.right.later hst (by omega)) hlot (by omega)

theorem translates_target (types : TypeOracle) (hNested : ClosesBlock Nested) :
    ∀ e : Expr, TranslatesTarget Nested (Lower.target types e)
      (e.name?.toList ++ e.assignedNames) e.paramTrees
  | .identifier name => translatesTarget_name name
  | .member object name => translatesTarget_field name (translates_expr types hNested object)
  | .index object key => by
    have h := translatesTarget_index (translates_expr types hNested object)
      (translates_expr types hNested key)
    exact h
  | .literal _ | .this | .array _ | .object _ | .binary _ _ _ | .unary _ _ | .assign _ _ _
  | .call _ _ | .conditional _ _ _ | .function _ _ _ | .arrow _ _ | .new _ _ | .update _ _ _
  | .sequence _ => fun _ _ _ _ ↦ .throw

theorem proceeds_declarators (types : TypeOracle) (hNested : ClosesBlock Nested) :
    ∀ (kind : DeclKind) (declarators : List Declarator) (b : Nat) (s : Session),
      Proceeds Nested b (Lower.declarators types kind declarators) s
        (declaratorsParamTrees declarators)
  | _, [], _, _ => .pure
  | kind, ⟨name, some init⟩ :: rest, b, _ =>
    .bind (proceeds_declare kind name ⟨init.assignedNames, translates_expr types hNested init⟩)
      fun t _ _ ↦ proceeds_declarators types hNested kind rest b t
  | kind, ⟨name, none⟩ :: rest, b, _ =>
    .bind_first (proceeds_declare kind name rfl)
      fun t _ _ ↦ proceeds_declarators types hNested kind rest b t

theorem proceeds_statement (types : TypeOracle) (hNested : ClosesBlock Nested) :
    ∀ (stmt : Stmt) (b : Nat) (s : Session),
      Proceeds Nested b (Lower.statement types stmt) s stmt.paramTrees
  | .empty, b, s => .pure
  | .declaration kind declarators, b, s => proceeds_declarators types hNested kind declarators b s
  | .function name params body, b, s =>
    proceeds_declareFunction name
      (translatesValue_function hNested fun t ↦
        proceeds_body (proceeds_statements types hNested body))
  | .expression e, b, s => by
    have hdrop (h : Lower.statement types (.expression e) = do drop (← Lower.expr types e)) :
        Proceeds Nested b (Lower.statement types (.expression e)) s e.paramTrees := by
      rw [h]
      exact .of_translates fun _ ↦ translates_drop (translates_expr types hNested e)
    cases e with
    | call callee args =>
      refine .of_translates fun _ ↦ Lowers.bind_last
        (lowers_callWith .discard (translates_expr types hNested callee)
          (translates_arguments types hNested args) (.trivial s _)) ?_
      rintro _ t - ⟨hcode, rfl, hnext⟩
      exact .pure ⟨hcode, hnext⟩
    | assign op target value =>
      exact .of_translates fun _ ↦
        translates_assignStatement (translates_target types hNested target)
          (translates_expr types hNested value)
    | update op form target =>
      have h : Translates Nested (fun _ ↦ True) b
          (Lower.statement types (.expression (.update op form target))) s (target.paramTrees ++ [])
          (fun _ t ↦ t.current.registers.next = s.current.registers.next) :=
        translates_assignStatement (translates_target types hNested target)
          (translatesValue_literal (.number .one))
      rw [List.append_nil] at h
      exact .of_translates fun _ ↦ h
    | _ => exact hdrop rfl
  | .ret (some value), b, s =>
    .of_translates fun _ ↦ translates_returnValue (translates_expr types hNested value)
  | .ret none, b, s => .of_translates fun _ ↦ translates_returnNone
  | .block _, b, s | .cond _ _ _, b, s | .while _ _, b, s | .for _ _ _ _, b, s | .break, b, s
  | .continue, b, s | .throw _, b, s | .class _ _, b, s => .throw

theorem proceeds_statements (types : TypeOracle) (hNested : ClosesBlock Nested) :
    ∀ (body : List Stmt) (b : Nat) (s : Session),
      Proceeds Nested b (Lower.statements types body) s (statementsParamTrees body)
  | [], _, _ => .pure
  | stmt :: rest, b, s =>
    .bind (proceeds_statement types hNested stmt b s) fun _ _ _ ↦
      .bind_first proceeds_settle fun u _ _ ↦ proceeds_statements types hNested rest b u

end

/-! ## Without the code -/

theorem advances_hoist (body : List Stmt) : Advances Nested b (Lower.hoist body) s [] :=
  (proceeds_hoist body).advances

theorem advances_body {types : TypeOracle} {body : List Stmt}
    (h : ∀ b s, Advances Nested b (Lower.statements types body) s ts) :
    Advances Nested b (do Lower.hoist body; Lower.statements types body) s ts :=
  .bind_first (advances_hoist body) fun t _ _ ↦ h b t

section Syntax

variable (types : TypeOracle) (hNested : ClosesTo Nested)
include hNested

theorem lowers_expr (e : Expr) (b : Nat) (s : Session) :
    Lowers Nested b (Lower.expr types e) s e.paramTrees
      (fun v t ↦ t.current.Holds v s.current.registers.next t.current.registers.next) :=
  (translates_expr types hNested.block e _ b s (.trivial s _)).lowers

theorem advances_statement (stmt : Stmt) (b : Nat) (s : Session) :
    Advances Nested b (Lower.statement types stmt) s stmt.paramTrees :=
  (proceeds_statement types hNested.block stmt b s).advances

theorem advances_statements (body : List Stmt) (b : Nat) (s : Session) :
    Advances Nested b (Lower.statements types body) s (statementsParamTrees body) :=
  (proceeds_statements types hNested.block body b s).advances

end Syntax

end LuaLower
