import LuaLower.Proofs.OpenFunction.Growth

/-!
# Prototypes nested in a prototype

A property of all prototypes of a tree holds if it holds at the root and in the trees of the
children.
-/

namespace LuaLower

namespace Prototype

/-- `p.Contains q` if `q` is `p` itself or is nested in it at any depth. -/
inductive Contains : Prototype → Prototype → Prop
  | self (p : Prototype) : Contains p p
  | nested {p c q : Prototype} : c ∈ p.children → Contains c q → Contains p q

theorem forall_contains {P : Prototype → Prop} {p : Prototype} (hp : P p)
    (hchildren : ∀ c ∈ p.children, ∀ q, c.Contains q → P q) : ∀ q, p.Contains q → P q := by
  intro q hq
  cases hq with
  | self => exact hp
  | nested hc hq => exact hchildren _ hc q hq

theorem sizeOf_lt_of_mem_children {p c : Prototype} (h : c ∈ p.children) : sizeOf c < sizeOf p := by
  have hchildren := List.sizeOf_lt_of_mem h
  cases p
  simp only [mk.sizeOf_spec] at hchildren ⊢
  omega

/-- What holds of a prototype if it holds of its children holds of every prototype. -/
theorem induction_on_children {P : Prototype → Prop} (p : Prototype)
    (h : ∀ p : Prototype, (∀ c ∈ p.children, P c) → P p) : P p :=
  h p fun c hc ↦
    have := sizeOf_lt_of_mem_children hc
    induction_on_children c h
termination_by sizeOf p

mutual

/-- The parameter counts of a prototype and of those nested in it. -/
def paramTree : Prototype → ParamTree
  | ⟨_, _, _, numParams, _, _, _, _, _, children, _⟩ => .node numParams.toNat (paramTrees children)

def paramTrees : List Prototype → List ParamTree
  | [] => []
  | p :: ps => p.paramTree :: paramTrees ps

end

theorem paramTree_eq (p : Prototype) :
    p.paramTree = .node p.numParams.toNat (paramTrees p.children) := by
  cases p
  rfl

end Prototype

end LuaLower
