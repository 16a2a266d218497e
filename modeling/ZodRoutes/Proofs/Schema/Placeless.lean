/-
The place of a schema shows in errors alone.

A reader is told the place of what it reads only to name it when it fails.  So whatever it reads it reads as the
same at every other place, and it fails at every place or at none.  A step for which this holds is *placeless*;
steps put together from placeless ones are placeless too, and every reader of a schema object is such a step.
-/
import ZodRoutes.Proofs.Steps
import ZodRoutes.Schema.Reader

namespace ZodRoutes.Schema

open Json (Value)
open Steps (EndsAs)

/-- A step ends with the same value wherever it is taken, or fails. -/
def Placeless {α : Type} (step : Path → Except SchemaError α) : Prop :=
  ∀ path path', EndsAs (fun _ => True) (step path) (step path')

namespace Placeless

variable {α β : Type} {step : Path → Except SchemaError α} {path : Path}

/-- **What a placeless step gives at one place, it gives at every place.** -/
theorem eq_ok {value : α} (h : Placeless step) (hvalue : step path = .ok value) (path' : Path) :
    step path' = .ok value := by
  rcases h path path' with heq | ⟨e, herror, -⟩
  · exact heq.symm.trans hvalue
  · rw [hvalue] at herror
    cases herror

theorem of_const (result : Except SchemaError α) : Placeless fun _ => result :=
  fun _ _ => .refl result

theorem fails (fault : Fault) : Placeless fun path => (path.fails fault : Except SchemaError α) :=
  fun _ _ => .of_error trivial

/-- A guard that does not look at the place chooses between steps. -/
theorem guard {c : Prop} [Decidable c] {other : Path → Except SchemaError α} (h : Placeless step)
    (hother : Placeless other) : Placeless fun path => if c then step path else other path := by
  intro path path'
  by_cases hc : c
  · simpa only [if_pos hc] using h path path'
  · simpa only [if_neg hc] using hother path path'

/-- A step may be taken at a place that is told by another one. -/
theorem at_place (h : Placeless step) (place : Path → Path) : Placeless fun path => step (place path) :=
  fun path path' => h (place path) (place path')

theorem bind {next : α → Path → Except SchemaError β} (h : Placeless step) (hnext : ∀ value, Placeless (next value)) :
    Placeless fun path => step path >>= fun value => next value path :=
  fun path path' => (h path path').bind fun value => hnext value path path'

/-- Nothing can fail after the first step. -/
theorem map {f : α → β} (h : Placeless step) : Placeless fun path => step path >>= fun value => pure (f value) :=
  h.bind fun value => of_const (pure (f value))

theorem mapM {γ : Type} {read : γ → Path → Except SchemaError β} {items : List γ}
    (h : ∀ item, Placeless (read item)) : Placeless fun path => items.mapM fun item => read item path :=
  fun path path' => EndsAs.mapM (List.forall₂_same.mpr fun item _ => h item path path')

end Placeless

namespace Reader

open Placeless (of_const)

variable {inner : Inner} {members : Members}

theorem keyword?_placeless {α : Type} (view : Value → Option α) (misuse : Misuse) (keyword : String) :
    Placeless (keyword? view misuse members keyword) := by
  intro path path'
  unfold keyword?
  split
  · exact .refl _
  · split
    · exact .refl _
    · exact .of_error trivial

/-! ### Types, null, constraints -/

theorem types_placeless : Placeless (types members) :=
  (keyword?_placeless _ _ _).map

theorem nullable_placeless : Placeless (nullable members) :=
  (keyword?_placeless _ _ _).map

theorem formatRules_placeless : Placeless (formatRules members) :=
  (keyword?_placeless _ _ _).map

theorem patternRules_placeless : Placeless (patternRules members) :=
  (keyword?_placeless _ _ _).map

theorem countRules_placeless (keyword : String) (rule : Nat → Rule) : Placeless (countRules keyword rule members) :=
  (keyword?_placeless _ _ _).map

theorem stepRules_placeless : Placeless (stepRules members) := by
  refine (keyword?_placeless _ _ _).bind fun step => ?_
  cases step with
  | none => exact of_const _
  | some x => exact .guard (of_const _) (Placeless.fails _)

theorem boundRules_placeless (inclusive exclusive : String) (within beyond : Decimal.Double → Rule) :
    Placeless (boundRules inclusive exclusive within beyond members) := by
  unfold boundRules
  refine (keyword?_placeless _ _ _).bind fun bound => ?_
  split
  · exact of_const _
  · exact of_const _
  · cases bound with
    | none => exact Placeless.fails _
    | some x => exact of_const _
  · exact (keyword?_placeless _ _ _).map

theorem rules_placeless : Placeless (rules members) := by
  refine formatRules_placeless.bind fun _ => ?_
  refine (countRules_placeless _ _).bind fun _ => (countRules_placeless _ _).bind fun _ => ?_
  refine patternRules_placeless.bind fun _ => ?_
  refine (boundRules_placeless _ _ _ _).bind fun _ => (boundRules_placeless _ _ _ _).bind fun _ => ?_
  refine stepRules_placeless.bind fun _ => ?_
  exact (countRules_placeless _ _).bind fun _ => (countRules_placeless _ _).map

/-! ### Literals -/

theorem enumLiterals_placeless : Placeless (enumLiterals members) := by
  unfold enumLiterals
  refine (keyword?_placeless _ _ _).bind fun listed => ?_
  split
  · exact of_const _
  · exact Placeless.fails _
  · split
    · exact Placeless.fails _
    · exact of_const _

theorem allowed_placeless : Placeless (allowed members) := by
  unfold allowed
  refine enumLiterals_placeless.bind fun listed => (keyword?_placeless _ _ _).bind fun constant => ?_
  split
  · exact of_const _
  · exact .guard (of_const _) (Placeless.fails _)

theorem checkTypes_placeless (allowed : Allowed) (names : List String) : Placeless (checkTypes allowed names) :=
  .guard (of_const _) (Placeless.fails _)

/-! ### Objects, lists and parts -/

theorem requiredNames_placeless : Placeless (requiredNames members) := by
  unfold requiredNames
  refine (keyword?_placeless _ _ _).bind fun listed => ?_
  split
  · exact of_const _
  · split
    · exact Placeless.fails _
    · exact of_const _

section Parts

variable (h : ∀ schema, Placeless (inner schema))

include h

theorem properties_placeless : Placeless (properties inner members) := by
  unfold properties
  refine (keyword?_placeless _ _ _).bind fun schemas => ?_
  split
  · exact of_const _
  · refine Placeless.map (Placeless.mapM fun property => ?_)
    exact ((h property.2).at_place _).map

theorem additional_placeless : Placeless (additional inner members) := by
  unfold additional
  split
  · exact of_const _
  · exact of_const _
  · exact of_const _
  · next schema _ _ _ => exact ((h schema).at_place _).map

theorem objectKind_placeless : Placeless (objectKind inner members) :=
  requiredNames_placeless.bind fun _ => (properties_placeless h).bind fun _ => (additional_placeless h).map

theorem typedKind_placeless (name : String) : Placeless (typedKind inner members name) := by
  unfold typedKind
  split
  · exact of_const _
  · exact of_const _
  · exact of_const _
  · exact of_const _
  · exact of_const _
  · split
    · next items _ => exact ((h items).at_place _).map
    · exact Placeless.fails _
  · exact objectKind_placeless h
  · exact Placeless.fails _

theorem typedNode_placeless (names : List String) (rules : List Rule) :
    Placeless (typedNode inner members names rules) := by
  unfold typedNode
  split
  · refine (typedKind_placeless h _).bind fun kind => ?_
    split
    · exact Placeless.fails _
    · exact of_const _
  · refine Placeless.bind (Placeless.mapM fun item => (typedKind_placeless h item.1).at_place _) fun kinds => ?_
    split
    · exact Placeless.fails _
    · exact of_const _

theorem impliedNode?_placeless (rules : List Rule) : Placeless (impliedNode? inner members rules) := by
  unfold impliedNode?
  split
  · exact (objectKind_placeless h).map
  · split
    · next items _ => exact ((h items).at_place _).map
    · exact of_const _

theorem branches_placeless (keyword kind : String) : Placeless (branches inner members keyword kind) := by
  unfold branches
  refine (keyword?_placeless _ _ _).bind fun schemas => ?_
  split
  · exact of_const _
  · exact Placeless.fails _
  · exact Placeless.map (Placeless.mapM fun item => (h item.1).at_place _)

theorem ownParts_placeless (names : List String) (rules : List Rule) (allowed : Option Allowed) :
    Placeless (ownParts inner members names rules allowed) := by
  unfold ownParts
  split
  · refine (checkTypes_placeless _ _).bind fun _ => ?_
    split
    · exact of_const _
    · exact (typedNode_placeless h names rules).map
  · split
    · exact (impliedNode?_placeless h rules).map
    · exact (typedNode_placeless h names rules).map

theorem objectNode_placeless : Placeless (objectNode inner members) := by
  unfold objectNode
  split
  · exact Placeless.fails _
  · refine types_placeless.bind fun _ => nullable_placeless.bind fun _ => rules_placeless.bind fun _ => ?_
    refine allowed_placeless.bind fun _ => (ownParts_placeless h _ _ _).bind fun _ => ?_
    refine (branches_placeless h _ _).bind fun _ => (branches_placeless h _ _).bind fun _ => ?_
    exact (branches_placeless h _ _).map

end Parts

theorem readWithin_placeless (depth : Nat) (schema : Value) : Placeless (readWithin depth schema) := by
  induction depth generalizing schema with
  | zero =>
      intro path path'
      rw [readWithin]
      · exact .of_error trivial
      · simp
  | succ depth ih =>
      cases schema with
      | obj members => exact objectNode_placeless ih
      | _ => exact Placeless.fails _

end Reader

/-- **A schema is read as the same node wherever it stands.** -/
theorem readAt_placeless (schema : Value) : Placeless (readAt schema) :=
  Reader.readWithin_placeless _ schema

end ZodRoutes.Schema
