/-
Schema trees by their children.

A node holds nodes in four ways: as properties, as what other members must satisfy, as elements, as
branches.  Most arguments about trees do not care which, so the nodes directly below a kind are gathered
into one list, with an induction that gives a fact for every child, and with the closure of a property
over a whole tree.
-/
import ZodRoutes.Schema.Node

namespace ZodRoutes.Schema

/-- The nodes directly below a kind. -/
def Kind.children : Kind → List Node
  | .object properties _ additional _ => properties.map Prod.snd ++ additional.toList
  | .array items => [items]
  | .union branches => branches
  | .intersection branches => branches
  | _ => []

/-- A child is smaller than its parent. -/
theorem Node.sizeOf_child_lt {node child : Node} (h : child ∈ node.kind.children) :
    sizeOf child < sizeOf node := by
  obtain ⟨kind, rules, nullable⟩ := node
  cases kind with
  | object properties required additional closed =>
      simp only [Kind.children, List.mem_append, List.mem_map, Option.mem_toList] at h
      rcases h with ⟨⟨name, node⟩, hmem, rfl⟩ | hsome
      · have := List.sizeOf_lt_of_mem hmem
        simp only [Node.mk.sizeOf_spec, Kind.object.sizeOf_spec, Prod.mk.sizeOf_spec] at this ⊢
        omega
      · rw [hsome]
        simp only [Node.mk.sizeOf_spec, Kind.object.sizeOf_spec, Option.some.sizeOf_spec]
        omega
  | array items =>
      simp only [Kind.children, List.mem_singleton] at h
      subst h
      simp only [Node.mk.sizeOf_spec, Kind.array.sizeOf_spec]
      omega
  | union branches =>
      have := List.sizeOf_lt_of_mem (show child ∈ branches from h)
      simp only [Node.mk.sizeOf_spec, Kind.union.sizeOf_spec]
      omega
  | intersection branches =>
      have := List.sizeOf_lt_of_mem (show child ∈ branches from h)
      simp only [Node.mk.sizeOf_spec, Kind.intersection.sizeOf_spec]
      omega
  | _ => simp [Kind.children] at h

/-- What holds of a node whenever it holds of its children holds of every node. -/
@[elab_as_elim]
theorem Node.induction {motive : Node → Prop}
    (step : ∀ node : Node, (∀ child ∈ node.kind.children, motive child) → motive node) :
    ∀ node, motive node := by
  intro node
  exact step node fun child hchild => Node.induction step child
termination_by node => sizeOf node
decreasing_by exact Node.sizeOf_child_lt hchild

/-- A property holds at a node and at every node below it. -/
inductive Node.Everywhere (holds : Node → Prop) : Node → Prop
  | intro {node : Node} (here : holds node)
      (below : ∀ child ∈ node.kind.children, Node.Everywhere holds child) :
      Node.Everywhere holds node

namespace Node.Everywhere

variable {holds holds' : Node → Prop} {node : Node}

theorem self (h : node.Everywhere holds) : holds node := by
  cases h with
  | intro here _ => exact here

theorem child (h : node.Everywhere holds) :
    ∀ child ∈ node.kind.children, child.Everywhere holds := by
  cases h with
  | intro _ below => exact below

theorem imp (h : node.Everywhere holds) (himp : ∀ node, holds node → holds' node) : node.Everywhere holds' := by
  induction h with
  | intro here _ ih => exact .intro (himp _ here) ih

end Node.Everywhere

end ZodRoutes.Schema
