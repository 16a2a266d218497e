/-
Chains of steps that may fail.

The readers are chains of steps, and lists are read element by element.  A chain succeeds when every step
of it does; a list is read when every element is, and the results stand in the order of the elements.  A
chain fails with the error of its first step that fails, so what holds of the errors of every step holds of
the errors of the chain.  Two chains end the same when their steps do, and a first chain that may also fail
early in its own way still ends as the second where it does not.
-/
import Mathlib.Data.List.Forall2

namespace ZodRoutes.Steps

universe u

variable {ε α β γ : Type u}

/-- A step followed by others succeeds through the value that the step gives. -/
theorem bind_eq_ok {step : Except ε α} {next : α → Except ε β} {result : β} :
    step >>= next = .ok result ↔ ∃ value, step = .ok value ∧ next value = .ok result := by
  cases step with
  | error e => simp [bind, Except.bind]
  | ok value => simp [bind, Except.bind]

@[simp] theorem pure_eq_ok {value result : α} :
    (pure value : Except ε α) = .ok result ↔ value = result := by
  simp [pure, Except.pure]

/-- A step behind a guard gives its value when the guard holds. -/
theorem guard_eq_ok {p : Prop} [Decidable p] {value result : α} {e : ε} :
    (if p then .ok value else .error e : Except ε α) = .ok result ↔ p ∧ value = result := by
  by_cases h : p <;> simp [h]

/-- A list is read when every element is, in order. -/
theorem mapM_eq_ok {read : α → Except ε β} {items : List α} {results : List β} :
    items.mapM read = .ok results ↔ List.Forall₂ (fun item result => read item = .ok result) items results := by
  induction items generalizing results with
  | nil => cases results <;> simp [pure, Except.pure]
  | cons item rest ih =>
      rw [List.mapM_cons]
      cases hitem : read item with
      | error e => cases results <;> simp [bind, Except.bind, hitem]
      | ok result =>
          rw [bind_eq_ok]
          simp only [Except.ok.injEq, exists_eq_left']
          rw [bind_eq_ok]
          simp only [pure_eq_ok]
          cases results with
          | nil => simp
          | cons first others => simp [ih, hitem, and_comm]

/-- An optional list is there when every element is, in order. -/
theorem mapM_eq_some {read : α → Option β} {items : List α} {results : List β} :
    items.mapM read = some results ↔
      List.Forall₂ (fun item result => read item = some result) items results := by
  induction items generalizing results with
  | nil => cases results <;> simp
  | cons item rest ih =>
      rw [List.mapM_cons]
      cases hitem : read item with
      | none => cases results <;> simp [hitem]
      | some result =>
          simp only [bind, Option.bind_some, pure]
          cases results with
          | nil => simp [Option.bind_eq_some_iff]
          | cons first others => simp [Option.bind_eq_some_iff, ih, hitem, and_comm]

/-- A list is read back when every element is. -/
theorem mapM_map {write : α → β} {read : β → Option α} {items : List α}
    (h : ∀ item ∈ items, read (write item) = some item) : (items.map write).mapM read = some items := by
  rw [mapM_eq_some, List.forall₂_map_left_iff]
  exact List.forall₂_same.mpr h

/-- Where every element is there, none is left out. -/
theorem filterMap_of_mapM {read : α → Option β} {items : List α} {results : List β}
    (h : items.mapM read = some results) : items.filterMap read = results := by
  rw [mapM_eq_some] at h
  induction h with
  | nil => rfl
  | cons hfirst _ ih => rw [List.filterMap_cons, hfirst, ih]

/-- Where what is read determines the element, so does the list. -/
theorem eq_map_of_mapM {read : α → Option β} {write : β → α} (h : ∀ item result, read item = some result →
    item = write result) {items : List α} {results : List β} (hread : items.mapM read = some results) :
    items = results.map write := by
  rw [mapM_eq_some] at hread
  induction hread with
  | nil => rfl
  | cons hfirst _ ih => rw [List.map_cons, ← ih, ← h _ _ hfirst]

/-- An optional list is there when every element is. -/
theorem isSome_mapM {read : α → Option β} {items : List α} :
    (items.mapM read).isSome ↔ ∀ item ∈ items, (read item).isSome := by
  induction items with
  | nil => simp
  | cons item rest ih =>
      rw [List.mapM_cons, List.forall_mem_cons, ← ih]
      cases hitem : read item with
      | none => simp [bind]
      | some result => cases hrest : rest.mapM read <;> simp [bind, pure]

/-- Every result stems from an element. -/
theorem exists_of_mem_results {holds : α → β → Prop} {items : List α} {results : List β}
    (h : List.Forall₂ holds items results) {result : β} (hmem : result ∈ results) :
    ∃ item ∈ items, holds item result := by
  induction h with
  | nil => simp at hmem
  | cons hfirst _ ih =>
      rcases List.mem_cons.mp hmem with rfl | hrest
      · exact ⟨_, by simp, hfirst⟩
      · obtain ⟨item, hitem, hholds⟩ := ih hrest
        exact ⟨item, by simp [hitem], hholds⟩

/-- Some result is what some element is, when results are what their elements are. -/
theorem exists_mem_iff {related : α → β → Prop} {items : List α} {results : List β} {p : α → Prop}
    {q : β → Prop} (h : List.Forall₂ related items results)
    (hiff : ∀ item result, related item result → (q result ↔ p item)) :
    (∃ result ∈ results, q result) ↔ ∃ item ∈ items, p item := by
  induction h with
  | nil => simp
  | cons hfirst _ ih => simp [ih, hiff _ _ hfirst]

/-- Every result is what every element is, when results are what their elements are. -/
theorem forall_mem_iff {related : α → β → Prop} {items : List α} {results : List β} {p : α → Prop}
    {q : β → Prop} (h : List.Forall₂ related items results)
    (hiff : ∀ item result, related item result → (q result ↔ p item)) :
    (∀ result ∈ results, q result) ↔ ∀ item ∈ items, p item := by
  induction h with
  | nil => simp
  | cons hfirst _ ih => simp [ih, hiff _ _ hfirst]

/-- Where every element has a result, the list has results. -/
theorem exists_results {holds : α → β → Prop} {items : List α}
    (h : ∀ item ∈ items, ∃ result, holds item result) :
    ∃ results, List.Forall₂ holds items results := by
  induction items with
  | nil => exact ⟨[], .nil⟩
  | cons item rest ih =>
      obtain ⟨result, hresult⟩ := h item (by simp)
      obtain ⟨results, hresults⟩ := ih fun other hother => h other (by simp [hother])
      exact ⟨result :: results, .cons hresult hresults⟩

/-- Where something stands between every element and its result, there is a list of that. -/
theorem exists_between {γ : Type*} {related : α → β → Prop} {p : α → γ → Prop} {q : β → γ → Prop}
    {items : List α} {results : List β} (h : List.Forall₂ related items results)
    (hbetween : ∀ item ∈ items, ∀ result, related item result → ∃ c, p item c ∧ q result c) :
    ∃ between : List γ, List.Forall₂ p items between ∧ List.Forall₂ q results between := by
  induction h with
  | nil => exact ⟨[], .nil, .nil⟩
  | cons hfirst _ ih =>
      obtain ⟨c, hp, hq⟩ := hbetween _ (by simp) _ hfirst
      obtain ⟨between, hps, hqs⟩ := ih fun item hitem => hbetween item (List.mem_cons_of_mem _ hitem)
      exact ⟨c :: between, .cons hp hps, .cons hq hqs⟩

/-- Numbered elements, read whatever their numbers are. -/
theorem forall₂_of_zipIdx {holds : α × Nat → β → Prop} {items : List α} {results : List β}
    {start : Nat} (h : List.Forall₂ holds (items.zipIdx start) results) :
    List.Forall₂ (fun item result => ∃ index, holds (item, index) result) items results := by
  induction items generalizing results start with
  | nil =>
      cases h
      exact .nil
  | cons item rest ih =>
      rw [List.zipIdx_cons] at h
      cases h with
      | cons hfirst hrest => exact .cons ⟨start, hfirst⟩ (ih hrest)

/-! ### Whether a chain succeeds -/

/-- The step gives a value. -/
def Succeeds (step : Except ε α) : Prop :=
  ∃ value, step = .ok value

@[simp] theorem succeeds_ok (value : α) : Succeeds (.ok value : Except ε α) :=
  ⟨value, rfl⟩

@[simp] theorem succeeds_pure (value : α) : Succeeds (pure value : Except ε α) :=
  ⟨value, rfl⟩

@[simp] theorem not_succeeds_error (e : ε) : ¬ Succeeds (.error e : Except ε α) := by
  rintro ⟨value, h⟩
  cases h

/-- A chain succeeds when its first step does and what follows the value of that step does. -/
theorem succeeds_bind {step : Except ε α} {next : α → Except ε β} {p : Prop}
    (h : ∀ value, step = .ok value → (Succeeds (next value) ↔ p)) :
    Succeeds (step >>= next) ↔ Succeeds step ∧ p := by
  cases step with
  | error e => simp [bind, Except.bind]
  | ok value =>
      have hnext := h value rfl
      simpa [bind, Except.bind] using hnext

/-- Nothing can fail after the first step. -/
theorem succeeds_bind_pure {step : Except ε α} {f : α → β} :
    Succeeds (step >>= fun value => pure (f value)) ↔ Succeeds step := by
  rw [succeeds_bind fun value _ => iff_true_intro (succeeds_pure (f value)), and_true]

/-- A step behind a guard succeeds when the guard holds. -/
theorem succeeds_guard {p : Prop} [Decidable p] {value : α} {e : ε} :
    Succeeds (if p then .ok value else .error e : Except ε α) ↔ p := by
  by_cases h : p <;> simp [h]

theorem succeeds_mapM {read : α → Except ε β} {items : List α} :
    Succeeds (items.mapM read) ↔ ∀ item ∈ items, Succeeds (read item) := by
  induction items with
  | nil => simp
  | cons item rest ih =>
      have hrest : ∀ value, Succeeds ((do
          let others ← rest.mapM read
          pure (value :: others)) : Except ε (List β)) ↔ ∀ item ∈ rest, Succeeds (read item) :=
        fun value => succeeds_bind_pure.trans ih
      rw [List.mapM_cons, List.forall_mem_cons, succeeds_bind fun value _ => hrest value]

/-- Numbered elements are read when each is, whatever its number. -/
theorem succeeds_mapM_zipIdx {read : α × Nat → Except ε β} {items : List α} {p : α → Prop}
    (h : ∀ item ∈ items, ∀ index, Succeeds (read (item, index)) ↔ p item) (start : Nat) :
    Succeeds ((items.zipIdx start).mapM read) ↔ ∀ item ∈ items, p item := by
  rw [succeeds_mapM]
  induction items generalizing start with
  | nil => simp
  | cons item rest ih =>
      have hrest := ih (fun other hother => h other (List.mem_cons_of_mem _ hother)) (start + 1)
      rw [List.zipIdx_cons, List.forall_mem_cons, List.forall_mem_cons, hrest, h item List.mem_cons_self start]

/-! ### How a chain fails -/

/-- Whenever the step fails, it is with such an error. -/
def FailsOnly (p : ε → Prop) (step : Except ε α) : Prop :=
  ∀ e, step = .error e → p e

namespace FailsOnly

variable {p q : ε → Prop}

theorem ok (value : α) : FailsOnly p (.ok value) := by
  intro e h
  cases h

theorem pure (value : α) : FailsOnly p (Pure.pure value) :=
  ok value

theorem error {e : ε} (h : p e) : FailsOnly p (.error e : Except ε α) := by
  intro e' he'
  cases he'
  exact h

theorem imp {step : Except ε α} (h : FailsOnly p step) (himp : ∀ e, p e → q e) : FailsOnly q step :=
  fun e he => himp e (h e he)

theorem bind {step : Except ε α} {next : α → Except ε β} (hstep : FailsOnly p step)
    (hnext : ∀ value, step = .ok value → FailsOnly p (next value)) : FailsOnly p (step >>= next) := by
  intro e h
  cases hvalue : step with
  | error other =>
      rw [hvalue] at h
      cases h
      exact hstep e hvalue
  | ok value =>
      rw [hvalue] at h
      exact hnext value hvalue e h

/-- A step behind a guard fails when the guard does not hold. -/
theorem guard {c : Prop} [Decidable c] {value : α} {e : ε} (h : ¬ c → p e) :
    FailsOnly p (if c then .ok value else .error e : Except ε α) := by
  by_cases hc : c
  · rw [if_pos hc]
    exact ok value
  · rw [if_neg hc]
    exact error (h hc)

/-- Nothing can fail after the first step. -/
theorem map {step : Except ε α} {f : α → β} (hstep : FailsOnly p step) :
    FailsOnly p (step >>= fun value => Pure.pure (f value)) :=
  hstep.bind fun value _ => pure (f value)

theorem mapM {read : α → Except ε β} {items : List α} (h : ∀ item ∈ items, FailsOnly p (read item)) :
    FailsOnly p (items.mapM read) := by
  induction items with
  | nil => exact ok []
  | cons item rest ih =>
      rw [List.mapM_cons]
      refine (h item (by simp)).bind fun value _ => ?_
      exact (ih fun other hother => h other (List.mem_cons_of_mem _ hother)).map

end FailsOnly

/-! ### Two chains -/

/-- The first chain ends as the second does, unless it fails with such an error. -/
def EndsAs (p : ε → Prop) (step step' : Except ε α) : Prop :=
  step = step' ∨ ∃ e, step = .error e ∧ p e

namespace EndsAs

variable {p : ε → Prop} {step step' step'' : Except ε α}

theorem of_eq (h : step = step') : EndsAs p step step' :=
  .inl h

theorem refl (step : Except ε α) : EndsAs p step step :=
  of_eq rfl

theorem of_error {e : ε} (h : p e) : EndsAs p (.error e) step' :=
  .inr ⟨e, rfl, h⟩

/-- Where no error is such an error, both chains end the same. -/
theorem eq (h : EndsAs p step step') (hnone : ∀ e, ¬ p e) : step = step' := by
  rcases h with heq | ⟨e, -, he⟩
  · exact heq
  · exact absurd he (hnone e)

theorem trans (h : EndsAs p step step') (h' : EndsAs p step' step'') : EndsAs p step step'' := by
  rcases h with rfl | herror
  · exact h'
  · exact .inr herror

theorem bind {next next' : α → Except ε β} (hstep : EndsAs p step step')
    (hnext : ∀ value, EndsAs p (next value) (next' value)) :
    EndsAs p (step >>= next) (step' >>= next') := by
  rcases hstep with rfl | ⟨e, rfl, he⟩
  · cases step with
    | error e => exact refl _
    | ok value => exact hnext value
  · exact of_error he

/-- What two chains start from may differ. -/
theorem start {value : α} {value' : γ} {next : α → Except ε β} {next' : γ → Except ε β}
    (h : EndsAs p (next value) (next' value')) :
    EndsAs p (Except.ok value >>= next) (Except.ok value' >>= next') :=
  h

/-- What follows is the same on both sides. -/
theorem andThen {next : α → Except ε β} (h : EndsAs p step step') :
    EndsAs p (step >>= next) (step' >>= next) :=
  h.bind fun _ => refl _

theorem mapM {read : α → Except ε β} {read' : γ → Except ε β} {items : List α} {items' : List γ}
    (h : List.Forall₂ (fun item item' => EndsAs p (read item) (read' item')) items items') :
    EndsAs p (items.mapM read) (items'.mapM read') := by
  induction h with
  | nil => exact refl _
  | cons hfirst _ ih =>
      rw [List.mapM_cons, List.mapM_cons]
      exact hfirst.bind fun _ => ih.andThen

end EndsAs

/-- Related elements have the same numbers. -/
theorem forall₂_zipIdx {related : α → γ → Prop} {items : List α} {items' : List γ}
    (h : List.Forall₂ related items items') (start : Nat) :
    List.Forall₂ (fun item item' => related item.1 item'.1 ∧ item.2 = item'.2) (items.zipIdx start)
      (items'.zipIdx start) := by
  induction h generalizing start with
  | nil => exact .nil
  | cons hfirst _ ih => exact .cons ⟨hfirst, rfl⟩ (ih (start + 1))

/-- One element of a list is exchanged for a related one. -/
theorem forall₂_exchange {related : α → α → Prop} (hself : ∀ item, related item item) {item item' : α}
    (h : related item item') (front back : List α) :
    List.Forall₂ related (front ++ item :: back) (front ++ item' :: back) := by
  refine List.rel_append (List.forall₂_same.mpr fun other _ => hself other) (.cons h ?_)
  exact List.forall₂_same.mpr fun other _ => hself other

end ZodRoutes.Steps
