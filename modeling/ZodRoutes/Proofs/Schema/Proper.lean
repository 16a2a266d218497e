/-
The reader builds proper trees only.

The mapping to expressions refuses three things: a closed set without values, a composite without
branches, and a rule on a kind that it does not apply to.  A node is *proper* when it shows none of them.
Everything that the reader puts together is proper at every depth: the nodes that a schema object is made into
gather something if they gather at all, and rules stand on a node only after they were found to apply to it.
-/
import ZodRoutes.Proofs.Schema.Built

namespace ZodRoutes.Schema

/-- A node that the mapping to expressions has no reason to refuse. -/
structure Node.Proper (node : Node) : Prop where
  filled : node.kind.Filled
  applies : ∀ rule ∈ node.rules, rule.appliesTo node.kind

/-- A kind that a proper tree can be made of: filled, and proper below. -/
structure Kind.Proper (kind : Kind) : Prop where
  filled : kind.Filled
  below : ∀ child ∈ kind.children, child.Everywhere Node.Proper

theorem Kind.Proper.plain {kind : Kind} (h : kind.Proper) : kind.plain.Everywhere Node.Proper :=
  .intro ⟨h.filled, fun _ hrule => absurd hrule List.not_mem_nil⟩ h.below

/-- The rules that apply are kept alone. -/
theorem Built.applies {members : Reader.Members} {node : Node} (h : Built members node) :
    ∀ rule ∈ node.rules, rule.appliesTo node.kind := by
  cases h with
  | described _ _ =>
      intro rule hrule
      simpa using (List.mem_filter.mp hrule).2
  | gathered _ _ => simp

/-- **Every tree that the reader gives is proper at every depth.** -/
theorem readAt_proper {schema : Json.Value} {path : Path} {node : Node}
    (h : readAt schema path = .ok node) : node.Everywhere Node.Proper := by
  refine (readAt_stems h).imp fun node hstems => ?_
  obtain ⟨members, -, hbuilt⟩ := hstems
  exact ⟨hbuilt.filled, hbuilt.applies⟩

end ZodRoutes.Schema
