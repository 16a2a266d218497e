/-
Where the place of an error leads when it is followed as a pointer.

Schema by schema a place always leads to what the error is about.  Read as a pointer it does so only where
every segment is a member or an element of the document, and a listed type breaks that: below its index the
place goes on with the keywords of the object that lists it, while the pointer has arrived at a text.

The index itself counts the types that count.  Repeats and a null among several names are left out first, so
the name that the document lists there may be another one.
-/
import ZodRoutes.Proofs.Schema.Fault

namespace ZodRoutes.Schema

open Json (Value)
open Reader (Members Types)

/-! ### Indices and keywords -/

/-- An index is written in digits. -/
theorem toString_index_ne {index : Nat} {word : String} (c : Char) (hc : c ∈ word.toList)
    (hdigit : ¬ c.isDigit) : toString index ≠ word := by
  intro heq
  rw [Nat.toString_eq_ofList_toDigits] at heq
  rw [← heq, String.toList_ofList] at hc
  exact hdigit (Nat.isDigit_of_mem_toDigits (by decide) (by decide) hc)

theorem Child.ne_nil {members : Members} {steps : List String} {schema : Value}
    (h : Child members steps schema) : steps ≠ [] := by
  cases h <;> simp

/-- No schema stands below an index alone. -/
theorem Child.ne_index {members : Members} {steps : List String} {schema : Value}
    (h : Child members steps schema) (index : Nat) : steps ≠ [toString index] := by
  intro heq
  cases h with
  | items _ => exact toString_index_ne 'i' (by decide) (by decide) (List.cons.inj heq).1.symm
  | additional _ => exact toString_index_ne 'a' (by decide) (by decide) (List.cons.inj heq).1.symm
  | property _ _ => simp at heq
  | branch _ _ _ => simp at heq

/-- Where two segments end a list that is put together, they end its second part, unless that is shorter. -/
theorem eq_append_pair {steps rest front : List String} {first second : String}
    (h : steps ++ rest = front ++ [first, second]) :
    rest = [] ∨ rest = [second] ∨ ∃ back, rest = back ++ [first, second] ∧ front = steps ++ back := by
  rcases List.append_eq_append_iff.mp h with ⟨back, hfront, hrest⟩ | ⟨between, hsteps, hpair⟩
  · exact .inr (.inr ⟨back, hrest, hfront⟩)
  · cases between with
    | nil => exact .inr (.inr ⟨[], by simpa using hpair.symm, by simpa using hsteps.symm⟩)
    | cons _ between =>
        cases between with
        | nil =>
            simp only [List.cons_append, List.nil_append, List.cons.injEq] at hpair
            exact .inr (.inl hpair.2.symm)
        | cons _ between =>
            simp only [List.cons_append, List.cons.injEq] at hpair
            exact .inl (List.append_eq_nil_iff.mp hpair.2.2.symm).2

/-! ### The pointer -/

variable {schema : Value} {segments : List String} {fault : Fault}

/-- A pointer to what is blamed arrives exactly when it does not go on below a listed type. -/
theorem Blames.isSome_follow? (h : Blames schema segments fault) (hdistinct : schema.namesDistinct) :
    (schema.follow? segments).isSome ↔ ¬ goesOnBelowType segments := by
  induction h with
  | here _ => simp [Value.follow?, goesOnBelowType]
  | child child _ ih =>
      rw [child.follow? hdistinct, child.goesOnBelowType]
      exact ih (child.namesDistinct hdistinct)
  | listed place _ _ =>
      rw [place.follow?, goesOnBelowType_type]
      simp [Value.follow?]
  | childOfListed place child _ _ =>
      rw [place.follow?, goesOnBelowType_type]
      obtain ⟨first, others, hsteps⟩ := List.exists_cons_of_ne_nil child.ne_nil
      rw [hsteps, List.cons_append, Value.follow?_str_cons]
      simp

/-- Nothing is blamed at an index alone. -/
theorem Blames.ne_index (h : Blames schema segments fault) (index : Nat) : segments ≠ [toString index] := by
  intro heq
  cases h with
  | here _ => simp at heq
  | child child _ =>
      rcases List.append_eq_singleton_iff.mp heq with ⟨hnil, -⟩ | ⟨hsteps, -⟩
      · exact child.ne_nil hnil
      · exact child.ne_index index hsteps
  | listed _ _ _ => simp at heq
  | childOfListed _ _ _ => simp at heq

/-- An unknown type with an index is the one that has this index among the types that count. -/
theorem Blames.unknownType {name : String} {front : List String} {index : Nat}
    (h : Blames schema segments (.unknownType name)) (hdistinct : schema.namesDistinct)
    (hsegments : segments = front ++ ["type", toString index]) :
    ∃ members listed, walk? schema front = some (.obj members) ∧ AtType members listed index name ∧
      (schema.follow? segments = some (.str name) ↔
        ¬ goesOnBelowType segments ∧ listed[index]? = some name) := by
  generalize hfault : Fault.unknownType name = fault at h
  induction h generalizing front with
  | here _ => simp at hsegments
  | @child members steps rest schema fault child blames ih =>
      rcases eq_append_pair hsegments with hnil | hone | ⟨back, hback, hfront⟩
      · rw [hnil, List.append_nil] at hsegments
        exact absurd hsegments (child.ne_type front index)
      · exact absurd hone (blames.ne_index index)
      · rw [hfront, child.walk? hdistinct, child.follow? hdistinct, child.goesOnBelowType]
        exact ih (child.namesDistinct hdistinct) hback hfault
  | @listed members listed position other fault place _ named =>
      have hlength := congrArg List.length hsegments
      have hfront : front = [] := by
        simp only [List.length_append, List.length_cons, List.length_nil] at hlength
        exact List.length_eq_zero_iff.mp (by omega)
      subst hfront
      have hposition : position = index := by
        simp only [List.nil_append, List.cons.injEq, and_true, true_and] at hsegments
        exact Value.toString_index_inj hsegments
      subst hposition
      obtain rfl := named name hfault.symm
      refine ⟨members, listed, by rw [walk?], place, ?_⟩
      rw [place.follow?, goesOnBelowType_type]
      simp [Value.follow?, List.getElem?_eq_getElem place.index_lt]
  | @childOfListed members listed position other steps rest schema fault place child blames ih =>
      have hparts : ["type", toString position] ++ (steps ++ rest) = front ++ ["type", toString index] := hsegments
      rcases eq_append_pair hparts with hnil | hone | ⟨middle, hmiddle, hfront⟩
      · exact absurd (List.append_eq_nil_iff.mp hnil).1 child.ne_nil
      · rcases List.append_eq_singleton_iff.mp hone with ⟨hnil, -⟩ | ⟨hsteps, -⟩
        · exact absurd hnil child.ne_nil
        · exact absurd hsteps (child.ne_index index)
      · rcases eq_append_pair hmiddle with hnil | hone | ⟨back, hback, hsteps⟩
        · rw [hnil, List.append_nil] at hmiddle
          exact absurd hmiddle (child.ne_type middle index)
        · exact absurd hone (blames.ne_index index)
        · obtain ⟨inner, names, hwalk, hat, -⟩ := ih (child.namesDistinct hdistinct) hback hfault
          refine ⟨inner, names, ?_, hat, ?_⟩
          · rw [hfront, hsteps]
            show walk? (.obj members) ("type" :: toString position :: (steps ++ back)) = some (.obj inner)
            rw [place.walk?, child.walk? hdistinct, hwalk]
          · have hbelow : goesOnBelowType ("type" :: toString position :: (steps ++ rest)) := by
              rw [goesOnBelowType_type]
              simp [child.ne_nil]
            have hnone : ¬ ((Value.obj members).follow? ("type" :: toString position :: (steps ++ rest))).isSome := by
              rw [(Blames.childOfListed place child blames).isSome_follow? hdistinct]
              exact not_not.mpr hbelow
            rw [Option.not_isSome_iff_eq_none.mp hnone, hbelow]
            simp

/-- **When the place of an error is a pointer to it.**  It leads to an existing value exactly when it does not
go on below a listed type.  An unknown type with an index is the one that has this index among the types
that count, and the pointer leads to its name exactly when the document lists it at that index. -/
theorem pointer_of_read_error (hdistinct : schema.namesDistinct) {e : SchemaError}
    (h : read schema = .error e) :
    ((schema.follow? e.path.segments).isSome ↔ ¬ goesOnBelowType e.path.segments) ∧
      ∀ name front index, e.fault = .unknownType name → e.path.segments = front ++ ["type", toString index] →
        ∃ members listed, walk? schema front = some (.obj members) ∧ AtType members listed index name ∧
          (schema.follow? e.path.segments = some (.str name) ↔
            ¬ goesOnBelowType e.path.segments ∧ listed[index]? = some name) := by
  have hblames := Reader.blames_of_read_error h
  refine ⟨hblames.isSome_follow? hdistinct, ?_⟩
  intro name front index hfault hsegments
  rw [hfault] at hblames
  exact hblames.unknownType hdistinct hsegments

/-- A schema whose unknown type is listed third and counts as second, since null does not count. -/
def unknownThirdSchema : Value :=
  .obj [("type", .arr [.str "null", .str "string", .str "foo"])]

/-- The pointer leads to a type that is known: the unknown one is not listed at its index. -/
theorem pointer_of_read_error_unknownThird :
    ∃ e, read unknownThirdSchema = .error e ∧ e.message = "unknown type 'foo' at #/type/1" ∧
      unknownThirdSchema.follow? e.path.segments = some (.str "string") ∧
      ∃ members listed, walk? unknownThirdSchema [] = some (.obj members) ∧
        AtType members listed 1 "foo" ∧ listed[1]? ≠ some "foo" := by
  have hread : read unknownThirdSchema = .error ⟨⟨["type", "1"]⟩, .unknownType "foo"⟩ := rfl
  have hpointer : unknownThirdSchema.follow? ["type", "1"] = some (.str "string") := rfl
  obtain ⟨members, listed, hwalk, hat, hiff⟩ :=
    (pointer_of_read_error (by decide) hread).2 "foo" [] 1 rfl rfl
  refine ⟨_, hread, by decide, hpointer, members, listed, hwalk, hat, ?_⟩
  intro hlisted
  have hwrong := hiff.mpr ⟨by decide, hlisted⟩
  rw [hpointer] at hwrong
  exact absurd hwrong (by simp)

end ZodRoutes.Schema
