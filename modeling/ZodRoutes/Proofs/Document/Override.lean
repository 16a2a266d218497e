/-
Which parameter of an operation wins.

Two mechanisms decide it.  While the lists are merged, a parameter of the operation takes the place of the
first one of the path item that is the same; when the buckets are written, the last parameter under a name
counts.  They agree as long as the path item does not repeat a parameter.  Where it does, only the first
repeat gives way and a later one is written last, so it outlives the parameter of the operation.

What a merge leaves under one name is settled first; the buckets then follow from their names and last
writes.
-/
import ZodRoutes.Proofs.Document.Expressible

namespace ZodRoutes.Document

open Json (Value)
open Request (Buckets Location Parameter AllExpressible lastUnder? namesAt under)
open Steps (bind_eq_ok pure_eq_ok)

variable {location : Location} {name : String} {shared own body : List Parameter} {p : Parameter}

/-! ### One parameter at a time -/

/-- A parameter takes the place of the first one that is the same, and all others stay. -/
theorem under_override (ps : List Parameter) (p : Parameter) :
    under location name (override ps p) =
      if p.location = location ∧ p.name = name then p :: (under location name ps).tail
      else under location name ps := by
  induction ps with
  | nil =>
      unfold override under
      by_cases h : p.location = location ∧ p.name = name <;> simp [h]
  | cons first rest ih =>
      unfold override sameParameter
      split
      · next hsame =>
          simp only [Bool.and_eq_true, beq_iff_eq] at hsame
          unfold under
          rw [List.filter_cons, List.filter_cons, hsame.1, hsame.2]
          by_cases h : p.location = location ∧ p.name = name
          · simp [h]
          · simp only [Bool.and_eq_true, beq_iff_eq, h, if_false]
      · next hother =>
          unfold under at ih ⊢
          rw [List.filter_cons, List.filter_cons, ih]
          by_cases h : p.location = location ∧ p.name = name
          · have hfirst : ¬ (first.location = location ∧ first.name = name) := by
              rintro ⟨hlocation, hname⟩
              simp [hlocation, hname, h] at hother
            simp only [Bool.and_eq_true, beq_iff_eq, hfirst, if_false]
          · simp only [h, if_false]

/-- Taking a place leaves the names as they are. -/
theorem namesAt_override {ps : List Parameter} (h : ∃ q ∈ ps, sameParameter q p) :
    namesAt location (override ps p) = namesAt location ps := by
  induction ps with
  | nil => simp at h
  | cons first rest ih =>
      unfold override
      split
      · next hfirst =>
          simp only [sameParameter, Bool.and_eq_true, beq_iff_eq] at hfirst
          unfold namesAt
          rw [List.filter_cons, List.filter_cons, hfirst.2]
          split
          · rw [List.map_cons, List.map_cons, hfirst.1]
          · rfl
      · next hfirst =>
          have hrest : ∃ q ∈ rest, sameParameter q p := by
            obtain ⟨q, hq, hqp⟩ := h
            rcases List.mem_cons.mp hq with rfl | hq
            · exact absurd hqp hfirst
            · exact ⟨q, hq, hqp⟩
          have htail := ih hrest
          unfold namesAt at htail ⊢
          rw [List.filter_cons, List.filter_cons]
          split
          · rw [List.map_cons, List.map_cons, htail]
          · exact htail

/-- A parameter that is new comes last. -/
theorem override_of_new {ps : List Parameter} (h : ¬ ∃ q ∈ ps, sameParameter q p) :
    override ps p = ps ++ [p] := by
  induction ps with
  | nil => rfl
  | cons first rest ih =>
      have hfirst : ¬ sameParameter first p := fun hsame => h ⟨first, by simp, hsame⟩
      have hrest := ih fun ⟨q, hq, hqp⟩ => h ⟨q, List.mem_cons_of_mem _ hq, hqp⟩
      rw [override, if_neg hfirst, hrest]
      rfl

/-- The names stand as if the parameter had been added at the end. -/
theorem distinct_namesAt_override (ps : List Parameter) (p : Parameter) :
    Entries.distinct (namesAt location (override ps p)) =
      Entries.distinct (namesAt location (ps ++ [p])) := by
  by_cases hsame : ∃ q ∈ ps, sameParameter q p
  · rw [namesAt_override hsame, Request.namesAt_append]
    by_cases hlocation : p.location = location
    · have hp : namesAt location [p] = [p.name] := by simp [namesAt, hlocation]
      have hmem : p.name ∈ namesAt location ps := by
        obtain ⟨q, hq, hqp⟩ := hsame
        simp only [sameParameter, Bool.and_eq_true, beq_iff_eq] at hqp
        refine List.mem_map.mpr ⟨q, List.mem_filter.mpr ⟨hq, ?_⟩, hqp.1⟩
        simp [hqp.2, hlocation]
      rw [hp, Entries.distinct_concat, if_pos (Entries.mem_distinct.mpr hmem)]
    · have hp : namesAt location [p] = [] := by simp [namesAt, hlocation]
      rw [hp, List.append_nil]
  · rw [override_of_new hsame]

/-! ### The merged list -/

/-- **What is left under a name**: the last parameter of the operation and, behind it, the repeats of the
path item; without a parameter of the operation, those of the path item as they are. -/
theorem under_foldl_override (shared own : List Parameter) :
    under location name (own.foldl override shared) =
      match (under location name own).getLast? with
      | some p => p :: (under location name shared).tail
      | none => under location name shared := by
  induction own using List.reverseRecOn with
  | nil => rfl
  | append_singleton front p ih =>
      rw [List.foldl_append, List.foldl_cons, List.foldl_nil, under_override, ih, Request.under_append]
      by_cases h : p.location = location ∧ p.name = name
      · have hp : under location name [p] = [p] := by simp [under, h]
        rw [if_pos h, hp, List.getLast?_concat]
        cases (under location name front).getLast? <;> rfl
      · have hp : under location name [p] = [] := by
          simp only [under, List.filter_eq_nil_iff, List.mem_singleton, Bool.and_eq_true, beq_iff_eq]
          rintro q rfl
          exact h
        rw [if_neg h, hp, List.append_nil]

theorem distinct_namesAt_merged (shared own body : List Parameter) :
    Entries.distinct (namesAt location (own.foldl override shared ++ body)) =
      Entries.distinct (namesAt location (shared ++ own ++ body)) := by
  have hmerged : Entries.distinct (namesAt location (own.foldl override shared)) =
      Entries.distinct (namesAt location (shared ++ own)) := by
    induction own using List.reverseRecOn with
    | nil => rw [List.foldl_nil, List.append_nil]
    | append_singleton front p ih =>
        rw [List.foldl_append, List.foldl_cons, List.foldl_nil, distinct_namesAt_override,
          Request.namesAt_append, Entries.distinct_append_congr ih, ← Request.namesAt_append,
          List.append_assoc]
  rw [Request.namesAt_append, Entries.distinct_append_congr hmerged, ← Request.namesAt_append]

/-! ### Who wins -/

/-- A parameter of the operation that the path item carries more than once, and the body not at all. -/
def Outlived (shared own body : List Parameter) (location : Location) (name : String) : Prop :=
  under location name own ≠ [] ∧ 1 < (under location name shared).length ∧
    under location name body = []

theorem lastUnder?_append {front back : List Parameter} (h : under location name back ≠ []) :
    lastUnder? location name (front ++ back) = lastUnder? location name back := by
  unfold lastUnder?
  rw [Request.under_append, List.getLast?_append_of_ne_nil _ h]

theorem lastUnder?_append_of_nil {front back : List Parameter} (h : under location name back = []) :
    lastUnder? location name (front ++ back) = lastUnder? location name front := by
  unfold lastUnder?
  rw [Request.under_append, h, List.append_nil]

/-- Of parameters that are carried at all, the last of the operation is the last of both lists. -/
theorem lastUnder?_declared (shared own : List Parameter) :
    lastUnder? location name (shared ++ own) =
      if under location name own = [] then lastUnder? location name shared
      else lastUnder? location name own := by
  split
  · next h => rw [lastUnder?_append_of_nil h]
  · next h => rw [lastUnder?_append h]

/-- After the merge a repeat of the path item is last, if there is one. -/
theorem lastUnder?_merged (shared own : List Parameter) :
    lastUnder? location name (own.foldl override shared) =
      if under location name own = [] ∨ 1 < (under location name shared).length then
        lastUnder? location name shared
      else lastUnder? location name own := by
  unfold lastUnder?
  rw [under_foldl_override]
  by_cases hown : under location name own = []
  · rw [hown]
    simp
  · have hlast := List.getLast?_eq_some_getLast hown
    rw [hlast]
    cases hshared : under location name shared with
    | nil => simp [hown]
    | cons first rest =>
        cases rest with
        | nil => simp [hown]
        | cons second others => simp [List.getLast?_cons_cons]

theorem lastUnder?_merged_eq_iff (shared own body : List Parameter) :
    (∀ location name, lastUnder? location name (own.foldl override shared ++ body) =
        lastUnder? location name (shared ++ own ++ body)) ↔
      ∀ location name, Outlived shared own body location name →
        lastUnder? location name shared = lastUnder? location name own := by
  refine forall₂_congr fun location name => ?_
  unfold Outlived
  by_cases hbody : under location name body = []
  · rw [lastUnder?_append_of_nil hbody, lastUnder?_append_of_nil hbody, lastUnder?_merged,
      lastUnder?_declared]
    by_cases hown : under location name own = [] <;>
      by_cases hrepeated : 1 < (under location name shared).length <;>
      simp [hown, hrepeated, hbody]
  · rw [lastUnder?_append hbody, lastUnder?_append hbody]
    simp [hbody]

theorem declaredParameters_expressible {fields : List (String × Value)} {ps : List Parameter}
    (h : declaredParameters fields = .ok ps) : AllExpressible ps :=
  fun p hp => expressible_of_proper (declaredParameters_proper h p hp)

theorem bodyParameters_expressible {fields : List (String × Value)} {ps : List Parameter}
    (h : bodyParameters fields = .ok ps) : AllExpressible ps :=
  fun p hp => expressible_of_proper (bodyParameters_proper h p hp)

/-- An operation whose lists are all read has the buckets of the merged list. -/
theorem readOperation_ok {item operation : List (String × Value)}
    (hshared : declaredParameters item = .ok shared) (hown : declaredParameters operation = .ok own)
    (hbody : bodyParameters operation = .ok body) (path : String) (method : Http.Method) :
    ∃ route, readOperation path shared method (.obj operation) = .ok route ∧
      Buckets.ofParameters (own.foldl override shared ++ body) = .ok route.params := by
  have hexpressible : AllExpressible (own.foldl override shared ++ body) := by
    intro p hp
    rcases List.mem_append.mp hp with hmerged | hp
    · rcases mem_foldl_override hmerged with hp | hp
      · exact declaredParameters_expressible hshared p hp
      · exact declaredParameters_expressible hown p hp
    · exact bodyParameters_expressible hbody p hp
  obtain ⟨params, hparams⟩ := Buckets.ofParameters_ok hexpressible
  have hmerged : operationParameters shared operation = .ok (own.foldl override shared ++ body) := by
    unfold operationParameters
    rw [hown, hbody]
    rfl
  have hbuckets : operationBuckets (label method path) (own.foldl override shared ++ body) =
      .ok params := by
    unfold operationBuckets
    rw [hparams]
  refine ⟨⟨operationName path method operation, method, path,
    (Entries.get? operation "summary").bind Value.str?, params⟩, ?_, hparams⟩
  unfold readOperation
  simp only [bind_eq_ok]
  exact ⟨operation, rfl, _, hmerged, params, hbuckets, rfl⟩

/-- **When the parameters of an operation win.**  An operation has the buckets of the three lists one
after the other exactly when both sides agree under every name that the operation overrides while the
path item repeats it.  What the operation declares itself counts wherever the path item has no repeat. -/
theorem readOperation_overrides_iff {item operation : List (String × Value)}
    (hshared : declaredParameters item = .ok shared) (hown : declaredParameters operation = .ok own)
    (hbody : bodyParameters operation = .ok body) (path : String) (method : Http.Method) :
    ∃ route, readOperation path shared method (.obj operation) = .ok route ∧
      (Buckets.ofParameters (shared ++ own ++ body) = .ok route.params ↔
        ∀ location name, Outlived shared own body location name →
          lastUnder? location name shared = lastUnder? location name own) ∧
      ∀ location name, under location name own ≠ [] → under location name body = [] →
        route.params.get? location name =
          if 1 < (under location name shared).length then lastUnder? location name shared
          else lastUnder? location name own := by
  obtain ⟨route, hroute, hparams⟩ := readOperation_ok hshared hown hbody path method
  refine ⟨route, hroute, ?_, ?_⟩
  · have hdeclared : AllExpressible (shared ++ own ++ body) := by
      intro p hp
      rcases List.mem_append.mp hp with hp | hp
      · rcases List.mem_append.mp hp with hp | hp
        · exact declaredParameters_expressible hshared p hp
        · exact declaredParameters_expressible hown p hp
      · exact bodyParameters_expressible hbody p hp
    obtain ⟨buckets, hbuckets⟩ := Buckets.ofParameters_ok hdeclared
    rw [← lastUnder?_merged_eq_iff, hbuckets, Except.ok.injEq, eq_comm,
      Buckets.ofParameters_eq_iff hparams hbuckets]
    exact and_iff_right fun location => distinct_namesAt_merged shared own body
  · intro location name hdeclares hbare
    rw [Buckets.get?_ofParameters hparams, lastUnder?_append_of_nil hbare, lastUnder?_merged]
    simp [hdeclares]

/-- A path item that declares one path parameter twice. -/
def repeatingItem : List (String × Value) :=
  [("parameters", .arr [
    .obj [("name", .str "id"), ("in", .str "path"), ("schema", .obj [("type", .str "string")])],
    .obj [("name", .str "id"), ("in", .str "path"), ("schema", .obj [("type", .str "boolean")])]])]

/-- An operation that declares the same parameter itself. -/
def overridingOperation : List (String × Value) :=
  [("parameters", .arr [
    .obj [("name", .str "id"), ("in", .str "path"), ("schema", .obj [("type", .str "integer")])]])]

/-- The path parameter of that name and kind. -/
def idParameter (kind : Schema.Kind) : Parameter := ⟨"id", .path, true, kind.plain⟩

theorem readOperation_overrides_iff_repeated :
    declaredParameters repeatingItem = .ok [idParameter .string, idParameter .boolean] ∧
      declaredParameters overridingOperation = .ok [idParameter .integer] ∧
      bodyParameters overridingOperation = .ok [] ∧
      ∃ route, readOperation "/items/\x7bid\x7d" [idParameter .string, idParameter .boolean] .get
          (.obj overridingOperation) = .ok route ∧
        Buckets.ofParameters ([idParameter .string, idParameter .boolean] ++ [idParameter .integer] ++ []) ≠
          .ok route.params ∧
        route.params.get? .path "id" = some "z.boolean()" := by
  have hshared : declaredParameters repeatingItem =
      .ok [idParameter .string, idParameter .boolean] := rfl
  have hown : declaredParameters overridingOperation = .ok [idParameter .integer] := rfl
  have hbody : bodyParameters overridingOperation = .ok [] := rfl
  obtain ⟨route, hroute, hiff, hget⟩ :=
    readOperation_overrides_iff hshared hown hbody "/items/\x7bid\x7d" .get
  have hpath : lastUnder? .path "id" [idParameter .string, idParameter .boolean] = some "z.boolean()" := rfl
  have hoperation : lastUnder? .path "id" [idParameter .integer] = some "z.number().int()" := rfl
  have hkept : under .path "id" [idParameter .integer] ≠ [] := List.cons_ne_nil _ _
  refine ⟨hshared, hown, hbody, route, hroute, ?_, ?_⟩
  · intro hsame
    have hagree := hiff.mp hsame .path "id" ⟨hkept, by decide, rfl⟩
    rw [hpath, hoperation] at hagree
    exact absurd hagree (by decide)
  · rw [hget .path "id" hkept rfl, hpath]
    rfl

end ZodRoutes.Document
