/-
Changes inside a schema.

A change of schema objects may be made at one place of a schema: at the schema object itself, or at one that
stands below a keyword that holds schemas.  Made at any number of places, one after the other, it leads from a
schema to a changed one.  Whatever the change is, when it keeps what a single schema object is read as, it
keeps what the whole schema is read as, because every schema object around the place holds, under the same
keywords, values that are read alike.
-/
import Mathlib.Logic.Relation
import ZodRoutes.Proofs.Schema.Alike

namespace ZodRoutes.Schema

open Json (Value)
open Reader (Members Supports Alike HoldsAlike schemaKeywords objectNode)
open Steps

/-- One schema object of a schema is changed, at any depth. -/
inductive ChangedOnce (change : Members → Members → Prop) : Value → Value → Prop
  | here {members members' : Members} (h : change members members') :
      ChangedOnce change (.obj members) (.obj members')
  | schema {keyword : String} {front back : Members} {schema schema' : Value}
      (holds : keyword ∈ ["items", "additionalProperties"]) (h : ChangedOnce change schema schema') :
      ChangedOnce change (.obj (front ++ (keyword, schema) :: back)) (.obj (front ++ (keyword, schema') :: back))
  | property {front back before after : Members} {name : String} {schema schema' : Value}
      (h : ChangedOnce change schema schema') :
      ChangedOnce change (.obj (front ++ ("properties", .obj (before ++ (name, schema) :: after)) :: back))
        (.obj (front ++ ("properties", .obj (before ++ (name, schema') :: after)) :: back))
  | branch {keyword : String} {front back : Members} {before after : List Value} {schema schema' : Value}
      (composite : keyword ∈ composites) (h : ChangedOnce change schema schema') :
      ChangedOnce change (.obj (front ++ (keyword, .arr (before ++ schema :: after)) :: back))
        (.obj (front ++ (keyword, .arr (before ++ schema' :: after)) :: back))

/-- Any number of schema objects of a schema are changed. -/
def Changed (change : Members → Members → Prop) : Value → Value → Prop :=
  Relation.ReflTransGen (ChangedOnce change)

/-- The same value, or one schema and the other that takes its place. -/
def Exchanged (schema schema' value value' : Value) : Prop :=
  value = value' ∨ (value = schema ∧ value' = schema')

variable {p : SchemaError → Prop} {related : Value → Value → Prop} {change : Members → Members → Prop}
  {schema schema' : Value}

/-- Only schema objects are changed. -/
theorem ChangedOnce.objects (h : ChangedOnce change schema schema') :
    ∃ members members', schema = .obj members ∧ schema' = .obj members' := by
  cases h <;> exact ⟨_, _, rfl, rfl⟩

/-- Any value of a keyword is like itself, when related values are. -/
theorem holdsAlike_self (hself : ∀ value, related value value) (keyword : String) (value : Value) :
    HoldsAlike related keyword value value := by
  unfold HoldsAlike
  split
  · exact Reader.propertiesAlike_self fun _ _ _ _ => hself _
  · split
    · exact Reader.listsAlike_self fun _ _ _ _ => hself _
    · exact hself value

/-- Exchanging what one keyword holds for something alike. -/
theorem alike_exchange (hself : ∀ value, related value value) {keyword : String} {value value' : Value}
    (hkeyword : keyword ∈ schemaKeywords) (h : HoldsAlike related keyword value value') (front back : Members) :
    Alike related (front ++ (keyword, value) :: back) (front ++ (keyword, value') :: back) := by
  have hother : ∀ {other}, other ≠ keyword →
      Entries.get? (front ++ (keyword, value) :: back) other =
        Entries.get? (front ++ (keyword, value') :: back) other :=
    fun hne => Entries.get?_exchange_of_ne hne
  have hne : ∀ {other}, other ∉ schemaKeywords → other ≠ keyword := by
    intro other hnot heq
    exact hnot (heq ▸ hkeyword)
  refine Reader.alike_of_schemas ?_ (hother (hne (by decide))) ?_
  · intro other hnot
    exact hother (hne fun hmem => hnot (List.mem_cons_of_mem _ hmem))
  · intro other _
    by_cases heq : other = keyword
    · subst heq
      exact Entries.rel_get?_exchange (holdsAlike_self hself other) h front back
    · rw [hother heq]
      exact Reader.rel_self fun value _ => holdsAlike_self hself other value

/-- A schema object may take the place of another one that is read as it is. -/
theorem readAt_exchange (hobjects : ∃ members members', schema = .obj members ∧ schema' = .obj members')
    (hreads : ∀ path, EndsAs p (readAt schema path) (readAt schema' path)) {keyword : String}
    {value value' : Value} (hkeyword : keyword ∈ schemaKeywords)
    (h : HoldsAlike (Exchanged schema schema') keyword value value') (front back : Members) (path : Path) :
    EndsAs p (readAt (.obj (front ++ (keyword, value) :: back)) path)
      (readAt (.obj (front ++ (keyword, value') :: back)) path) := by
  have hsupports : Supports p readAt readAt (Exchanged schema schema') := by
    refine ⟨?_, ?_⟩
    · rintro inside _ (rfl | ⟨rfl, rfl⟩) path
      · exact .refl _
      · exact hreads path
    · rintro inside _ (rfl | ⟨rfl, rfl⟩) b
      · exact Iff.rfl
      · obtain ⟨members, members', rfl, rfl⟩ := hobjects
        simp
  rw [Reader.readAt_obj, Reader.readAt_obj]
  exact Reader.objectNode_alike hsupports (alike_exchange (fun _ => .inl rfl) hkeyword h front back) path

/-- One changed schema object, whatever stands around it. -/
theorem ChangedOnce.readAt (hchange : ∀ members members', change members members' →
      ∀ path, EndsAs p (objectNode readAt members path) (objectNode readAt members' path))
    (h : ChangedOnce change schema schema') (path : Path) :
    EndsAs p (readAt schema path) (readAt schema' path) := by
  -- One case for each keyword on the way down to the changed schema object.
  induction h generalizing path with
  | here h =>
      rw [Reader.readAt_obj, Reader.readAt_obj]
      exact hchange _ _ h path
  | @schema keyword front back schema schema' holds h ih =>
      have hkeyword : keyword = "items" ∨ keyword = "additionalProperties" := by simpa using holds
      refine readAt_exchange h.objects ih ?_ ?_ front back path
      · rcases hkeyword with rfl | rfl <;> decide
      · rcases hkeyword with rfl | rfl <;> exact .inr ⟨rfl, rfl⟩
  | @property front back before after name schema schema' h ih =>
      refine readAt_exchange h.objects ih (by decide) ?_ front back path
      exact .object (forall₂_exchange (fun _ => ⟨rfl, .inl rfl⟩) ⟨rfl, .inr ⟨rfl, rfl⟩⟩ before after)
  | @branch keyword front back before after schema schema' composite h ih =>
      refine readAt_exchange h.objects ih (List.mem_append_right _ composite) ?_ front back path
      rw [Reader.holdsAlike_composite composite]
      exact .list (forall₂_exchange (fun _ => .inl rfl) (.inr ⟨rfl, rfl⟩) before after)

/-- **A change that keeps what a schema object is read as keeps what the whole schema is read as.** -/
theorem Changed.readAt (hchange : ∀ members members', change members members' →
      ∀ path, EndsAs p (objectNode readAt members path) (objectNode readAt members' path))
    (h : Changed change schema schema') (path : Path) :
    EndsAs p (Schema.readAt schema path) (Schema.readAt schema' path) := by
  induction h with
  | refl => exact .refl _
  | tail _ hlast ih => exact ih.trans (hlast.readAt hchange path)

/-- Where the groups of every changed schema object are read as the same, so is the whole schema. -/
theorem Changed.readAt_eq (hchange : ∀ members members', change members members' → Alike Eq members members')
    (h : Changed change schema schema') (path : Path) : Schema.readAt schema path = Schema.readAt schema' path := by
  have hsupports : Supports (fun _ => False) Schema.readAt Schema.readAt Eq := by
    refine ⟨?_, ?_⟩
    · rintro inside _ rfl path
      exact .refl _
    · rintro inside _ rfl b
      exact Iff.rfl
  have hobjects : ∀ members members', change members members' → ∀ path,
      EndsAs (fun _ => False) (objectNode Schema.readAt members path) (objectNode Schema.readAt members' path) :=
    fun members members' hmembers => Reader.objectNode_alike hsupports (hchange members members' hmembers)
  exact (h.readAt hobjects path).eq fun _ => id

end ZodRoutes.Schema
