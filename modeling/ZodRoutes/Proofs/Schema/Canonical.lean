/-
The trees that the reader builds are in canonical form.

Rules are read keyword by keyword in the order in which they are written out, each keyword giving rules of its own
range of ranks: one rank for most, two for an inclusive bound with its exclusive variant, whichever of the three forms
the exclusive keyword has.  So the rules of a schema object are sorted without repeats, and what is left of them on a
kind that only some apply to is sorted too.  The object keywords are read together once, and nothing later changes
what they gave.  Every node of a tree stems from some schema object, so both carry over to all of them.
-/
import ZodRoutes.Proofs.Schema.ObjectForm

namespace ZodRoutes.Schema

open Json (Value)
open Reader (Members TypedKind fails_ne_ok)
open Steps (bind_eq_ok pure_eq_ok)

/-! ### The order of rules -/

/-- The place of a rule in the order in which rules are written out. -/
def Rule.rank : Rule → Nat
  | .format _ => 0
  | .minLength _ => 1
  | .maxLength _ => 2
  | .pattern _ => 3
  | .min _ => 4
  | .greaterThan _ => 5
  | .max _ => 6
  | .lessThan _ => 7
  | .multipleOf _ => 8
  | .minItems _ => 9
  | .maxItems _ => 10

/-- The order of the rules of a node: ranks grow, so no rank is there twice. -/
def Rule.Sorted (rules : List Rule) : Prop :=
  rules.Pairwise fun rule later => rule.rank < later.rank

/-- Sorted rules of a range of ranks. -/
structure Ranked (low high : Nat) (rules : List Rule) : Prop where
  sorted : Rule.Sorted rules
  range : ∀ rule ∈ rules, low ≤ rule.rank ∧ rule.rank < high

namespace Ranked

variable {low middle high : Nat} {rules others : List Rule}

theorem nil : Ranked low high [] :=
  ⟨.nil, by simp⟩

theorem single {rule : Rule} (h : low ≤ rule.rank ∧ rule.rank < high) : Ranked low high [rule] :=
  ⟨List.pairwise_singleton _ _, by simpa using h⟩

/-- Ranges that follow each other. -/
theorem append (h : Ranked low middle rules) (hothers : Ranked middle high others) (hlow : low ≤ middle)
    (hhigh : middle ≤ high) : Ranked low high (rules ++ others) := by
  refine ⟨List.pairwise_append.mpr ⟨h.sorted, hothers.sorted, ?_⟩, ?_⟩
  · intro rule hrule other hother
    have hbelow := (h.range rule hrule).2
    have habove := (hothers.range other hother).1
    omega
  · intro rule hrule
    rcases List.mem_append.mp hrule with hrule | hrule
    · have hrange := h.range rule hrule
      omega
    · have hrange := hothers.range rule hrule
      omega

/-- A value that may be absent gives at most one rule. -/
theorem option {α : Type} {make : α → Rule} {rank : Nat} (hrank : ∀ a, (make a).rank = rank) (value : Option α) :
    Ranked rank (rank + 1) (value.map make).toList := by
  cases value with
  | none => exact nil
  | some a =>
      have hmake := hrank a
      exact single (by omega)

end Ranked

namespace Reader

variable {members : Members} {path : Path} {result : List Rule}

theorem countRules_ranked {keyword : String} {make : Nat → Rule} {rank : Nat}
    (h : countRules keyword make members path = .ok result) (hrank : ∀ n, (make n).rank = rank) :
    Ranked rank (rank + 1) result := by
  obtain ⟨count, -, h⟩ := bind_eq_ok.mp h
  rw [pure_eq_ok] at h
  subst h
  exact .option hrank count

theorem formatRules_ranked (h : formatRules members path = .ok result) : Ranked 0 1 result := by
  obtain ⟨format, -, h⟩ := bind_eq_ok.mp h
  rw [pure_eq_ok] at h
  subst h
  have hrank : ∀ f, (Rule.format f).rank = 0 := fun _ => rfl
  exact .option hrank _

theorem patternRules_ranked (h : patternRules members path = .ok result) : Ranked 3 4 result := by
  obtain ⟨source, -, h⟩ := bind_eq_ok.mp h
  rw [pure_eq_ok] at h
  subst h
  have hrank : ∀ text, (Rule.pattern text).rank = 3 := fun _ => rfl
  exact .option hrank source

/-- A step is positive, and there is at most one. -/
theorem stepRules_eq_ok (h : stepRules members path = .ok result) :
    result = [] ∨ ∃ step, step.isPositive ∧ result = [.multipleOf step] := by
  unfold stepRules at h
  obtain ⟨step, -, h⟩ := bind_eq_ok.mp h
  cases step with
  | none => exact .inl (pure_eq_ok.mp h).symm
  | some step =>
      dsimp only at h
      by_cases hpositive : step.isPositive
      · rw [if_pos hpositive, pure_eq_ok] at h
        exact .inr ⟨step, hpositive, h.symm⟩
      · rw [if_neg hpositive] at h
        exact absurd h fails_ne_ok

theorem stepRules_ranked (h : stepRules members path = .ok result) : Ranked 8 9 result := by
  rcases stepRules_eq_ok h with rfl | ⟨step, -, rfl⟩
  · exact .nil
  · exact .single (by simp [Rule.rank])

/-- Whatever form the exclusive keyword has, the inclusive bound stands before the exclusive one. -/
theorem boundRules_ranked {inclusive exclusive : String} {within beyond : Decimal.Double → Rule} {rank : Nat}
    (h : boundRules inclusive exclusive within beyond members path = .ok result)
    (hwithin : ∀ x, (within x).rank = rank) (hbeyond : ∀ x, (beyond x).rank = rank + 1) :
    Ranked rank (rank + 2) result := by
  have hnone : Ranked (rank + 1) (rank + 2) [] := .nil
  have hinclusive : ∀ bound : Option Decimal.Double, Ranked rank (rank + 2) (bound.map within).toList := by
    intro bound
    rw [← List.append_nil (bound.map within).toList]
    exact (Ranked.option hwithin bound).append hnone (by omega) (by omega)
  unfold boundRules at h
  obtain ⟨bound, -, h⟩ := bind_eq_ok.mp h
  split at h
  · rw [pure_eq_ok] at h
    subst h
    exact hinclusive bound
  · rw [pure_eq_ok] at h
    subst h
    exact hinclusive bound
  · cases bound with
    | none => exact absurd h fails_ne_ok
    | some x =>
        rw [pure_eq_ok] at h
        subst h
        have hrank := hbeyond x
        exact .single (by omega)
  · obtain ⟨own, -, h⟩ := bind_eq_ok.mp h
    rw [pure_eq_ok] at h
    subst h
    exact (Ranked.option hwithin bound).append (Ranked.option hbeyond own) (by omega) (by omega)

/-- **The rules of a schema object are sorted without repeats.** -/
theorem rules_sorted (h : rules members path = .ok result) : Rule.Sorted result := by
  unfold rules at h
  simp only [bind_eq_ok, pure_eq_ok] at h
  obtain ⟨format, hformat, minLength, hminLength, maxLength, hmaxLength, pattern, hpattern, lower,
    hlower, upper, hupper, step, hstep, minItems, hminItems, maxItems, hmaxItems, rfl⟩ := h
  have htext : Ranked 0 4 (format ++ minLength ++ maxLength ++ pattern) :=
    (((formatRules_ranked hformat).append (countRules_ranked hminLength fun _ => rfl) (by omega) (by omega)).append
      (countRules_ranked hmaxLength fun _ => rfl) (by omega) (by omega)).append
      (patternRules_ranked hpattern) (by omega) (by omega)
  have hbounds : Ranked 0 8 (format ++ minLength ++ maxLength ++ pattern ++ lower ++ upper) :=
    (htext.append (boundRules_ranked hlower (fun _ => rfl) fun _ => rfl) (by omega) (by omega)).append
      (boundRules_ranked hupper (fun _ => rfl) fun _ => rfl) (by omega) (by omega)
  have hnumber := hbounds.append (stepRules_ranked hstep) (by omega) (by omega)
  have hitems := (hnumber.append (countRules_ranked hminItems fun _ => rfl) (by omega) (by omega)).append
    (countRules_ranked hmaxItems fun _ => rfl) (by omega) (by omega)
  exact hitems.sorted

/-- Every step among the rules of a schema object is positive. -/
theorem rules_positive (h : rules members path = .ok result) {step : Decimal.Double}
    (hstep : .multipleOf step ∈ result) : step.isPositive := by
  have hstated : Meaning.HasNumber members "multipleOf" step := (mem_rules h).mp hstep
  unfold rules at h
  simp only [bind_eq_ok] at h
  obtain ⟨-, -, -, -, -, -, -, -, -, -, -, -, steps, hsteps, -⟩ := h
  have hread : .multipleOf step ∈ steps := (mem_stepRules hsteps).mpr ⟨step, rfl, hstated⟩
  rcases stepRules_eq_ok hsteps with rfl | ⟨other, hpositive, rfl⟩
  · cases hread
  · rw [Rule.multipleOf.inj (List.mem_singleton.mp hread)]
    exact hpositive

end Reader

/-! ### Every node -/

/-- The form in which a node is read from a schema, or from one inside it. -/
structure Node.Canonical (root : Value) (node : Node) : Prop where
  /-- The order is that of the ranks, so no sort of rule is there twice. -/
  sorted : Rule.Sorted node.rules
  ruled : node.rules ≠ [] →
    node.kind = .string ∨ node.kind = .number ∨ node.kind = .integer ∨ ∃ items, node.kind = .array items
  positive : ∀ step, .multipleOf step ∈ node.rules → step.isPositive
  object : ∀ properties required additional closed, node.kind = .object properties required additional closed →
    ¬ (closed ∧ additional.isSome) ∧ (Entries.names properties).Nodup ∧
      (∀ name ∈ required, name ∈ Entries.names properties) ∧
      ∃ members, Within root members ∧
        Entries.FirstOccurrences (Entries.names (declaredProperties members)) (Entries.names properties) ∧
        ObjectForm members properties required additional closed

/-- A rule applies to texts, numbers and lists alone. -/
theorem Rule.appliesTo_cases {rule : Rule} {kind : Kind} (h : rule.appliesTo kind) :
    kind = .string ∨ kind = .number ∨ kind = .integer ∨ ∃ items, kind = .array items := by
  unfold Rule.appliesTo at h
  cases kind <;> simp_all [Kind.subject?]

theorem Built.canonical {root : Value} {members : Members} {node : Node} (h : Built members node)
    (hwithin : Within root members) : node.Canonical root := by
  cases h with
  | @described name kind rules path nullable read stated =>
      refine ⟨(Reader.rules_sorted stated).filter _, ?_, ?_, ?_⟩
      · intro hruled
        obtain ⟨rule, hrule⟩ := List.exists_mem_of_ne_nil _ hruled
        exact Rule.appliesTo_cases (List.mem_filter.mp hrule).2
      · intro step hstep
        exact Reader.rules_positive stated (List.mem_filter.mp hstep).1
      · rintro properties required additional closed rfl
        have hform := objectForm_of_typedKind read
        refine ⟨hform.exclusive, hform.distinct, ?_, members, hwithin, hform.ordered, hform⟩
        intro name hname
        rw [hform.required] at hname
        exact List.mem_of_mem_filter hname
  | gathered unruled _ =>
      refine ⟨.nil, fun hruled => absurd rfl hruled, by simp, ?_⟩
      rintro properties required additional closed rfl
      exact unruled.elim

/-- **The trees that the reader gives are in canonical form**: at every depth rules are sorted without repeats and
stand on texts, numbers and lists alone, steps are positive, and an object has its properties in document order, only
requires what it has, and never both refuses other members and says what they must satisfy. -/
theorem read_canonical {schema : Value} {node : Node} (h : Schema.read schema = .ok node) :
    node.Everywhere (Node.Canonical schema) := by
  refine (readAt_stems h).imp fun node hstems => ?_
  obtain ⟨members, hwithin, hbuilt⟩ := hstems
  exact hbuilt.canonical hwithin

/-- The smallest positive number, as a step. -/
def smallestStep : Decimal.Double := ⟨false, 1, by decide⟩

/-- An object with a bounded number in it, its keywords in another order than its rules. -/
def boundedSchema : Value :=
  .obj [("type", .str "object"), ("properties", .obj [
      ("size", .obj [("exclusiveMaximum", .num (.int 9)), ("multipleOf", .num (.real smallestStep)),
        ("maximum", .num (.int 8)), ("type", .arr [.str "integer", .str "null", .str "string"]),
        ("minLength", .num (.int 1))]),
      ("id", .obj [("type", .str "string")])]),
    ("required", .arr [.str "id", .str "name"]), ("additionalProperties", .bool false)]

/-- Its tree. -/
def boundedNode : Node :=
  (Kind.object [
    ("size", ⟨.union [
      ⟨.integer, [.max (Json.Number.int 8).toDouble, .lessThan (Json.Number.int 9).toDouble,
        .multipleOf smallestStep], false⟩,
      ⟨.string, [.minLength 1], false⟩], [], true⟩),
    ("id", Kind.string.plain)] ["id"] none true).plain

theorem read_canonical_bounded :
    Schema.read boundedSchema = .ok boundedNode ∧ boundedNode.Everywhere (Node.Canonical boundedSchema) := by
  have h : Schema.read boundedSchema = .ok boundedNode := rfl
  exact ⟨h, read_canonical h⟩

end ZodRoutes.Schema
