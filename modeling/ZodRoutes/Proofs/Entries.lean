/-
Entries written one after the other.

`ofList` writes a list of named values in order.  What remains is told by two facts: the names are those
of the list without repeats, each where it first stands, and the value of a name is the one written last.
Names then are distinct, so a list of entries is determined by its names and by what it looks up.
-/
import Mathlib.Data.List.Induction
import ZodRoutes.Proofs.Steps
import ZodRoutes.Entries

namespace ZodRoutes.Entries

universe u

variable {α β : Type u} {entries pairs : List (String × α)} {name : String} {value : α}

@[simp] theorem names_nil : names ([] : Entries α) = [] := rfl

@[simp] theorem names_cons (entry : String × α) (rest : Entries α) :
    names (entry :: rest) = entry.1 :: names rest := rfl

@[simp] theorem names_append (front back : Entries α) :
    names (front ++ back) = names front ++ names back := by
  simp [names]

/-- A name is looked up when it is there. -/
theorem isSome_get? : (get? entries name).isSome ↔ name ∈ names entries := by
  induction entries with
  | nil => simp
  | cons entry rest ih =>
      obtain ⟨other, old⟩ := entry
      rw [get?_cons, names_cons, List.mem_cons]
      by_cases h : name = other
      · simp [h]
      · simp [h, ih]

theorem get?_eq_none : get? entries name = none ↔ name ∉ names entries := by
  rw [← isSome_get?, Option.not_isSome_iff_eq_none]

theorem mem_names : name ∈ names entries ↔ ∃ value, get? entries name = some value := by
  rw [← isSome_get?, Option.isSome_iff_exists]

theorem mem_of_get? (h : get? entries name = some value) : (name, value) ∈ entries := by
  induction entries with
  | nil => simp at h
  | cons entry rest ih =>
      obtain ⟨other, old⟩ := entry
      rw [get?_cons] at h
      by_cases hname : name = other
      · rw [if_pos hname] at h
        cases h
        simp [hname]
      · rw [if_neg hname] at h
        exact List.mem_cons_of_mem _ (ih h)

/-- **Distinct names and what they look up determine the entries.** -/
theorem ext_of_nodup {other : Entries α} (hnodup : (names entries).Nodup)
    (hnames : names entries = names other) (hget : ∀ name, get? entries name = get? other name) :
    entries = other := by
  induction entries generalizing other with
  | nil =>
      cases other with
      | nil => rfl
      | cons entry rest => simp at hnames
  | cons entry rest ih =>
      cases other with
      | nil => simp at hnames
      | cons entry' rest' =>
          obtain ⟨key, old⟩ := entry
          obtain ⟨key', old'⟩ := entry'
          simp only [names_cons, List.cons.injEq] at hnames
          obtain ⟨rfl, hrest⟩ := hnames
          rw [names_cons, List.nodup_cons] at hnodup
          have hhead := hget key
          rw [get?_cons, get?_cons, if_pos rfl, if_pos rfl] at hhead
          cases hhead
          refine congrArg _ (ih hnodup.2 hrest fun name => ?_)
          by_cases hname : name = key
          · subst hname
            rw [get?_eq_none.mpr hnodup.1, get?_eq_none.mpr (hrest ▸ hnodup.1)]
          · have := hget name
            rwa [get?_cons, get?_cons, if_neg hname, if_neg hname] at this

/-! ### Entries that look up the same -/

/-- These names have the same value, or none, on both sides. -/
def AgreeOn (names : List String) (entries entries' : Entries α) : Prop :=
  ∀ name ∈ names, get? entries name = get? entries' name

/-- All other names have the same value, or none, on both sides. -/
def AgreeOff (names : List String) (entries entries' : Entries α) : Prop :=
  ∀ name, name ∉ names → get? entries name = get? entries' name

theorem AgreeOn.mono {names others : List String} {entries' : Entries α} (h : AgreeOn names entries entries')
    (hsub : ∀ name ∈ others, name ∈ names) : AgreeOn others entries entries' :=
  fun name hname => h name (hsub name hname)

theorem AgreeOff.mono {names others : List String} {entries' : Entries α} (h : AgreeOff names entries entries')
    (hsub : ∀ name ∈ names, name ∈ others) : AgreeOff others entries entries' :=
  fun name hname => h name fun hmem => hname (hsub name hmem)

theorem AgreeOff.agreeOn {names others : List String} {entries' : Entries α}
    (h : AgreeOff names entries entries') (hdisjoint : ∀ name ∈ others, name ∉ names) :
    AgreeOn others entries entries' :=
  fun name hname => h name (hdisjoint name hname)

/-- Only the first value under a name counts. -/
theorem get?_append (front back : List (String × α)) (name : String) :
    get? (front ++ back) name = (get? front name).or (get? back name) :=
  List.lookup_append

/-- Exchanging the value of one entry leaves the other names alone. -/
theorem get?_exchange_of_ne {front back : List (String × α)} {key : String} {value' : α} (h : key ≠ name) :
    get? (front ++ (name, value) :: back) key = get? (front ++ (name, value') :: back) key := by
  rw [get?_append, get?_append, get?_cons, get?_cons, if_neg h, if_neg h]

/-- Under its own name an entry counts unless an earlier one does. -/
theorem rel_get?_exchange {related : α → α → Prop} (hself : ∀ value, related value value) {value' : α}
    (h : related value value') (front back : List (String × α)) :
    Option.Rel related (get? (front ++ (name, value) :: back) name)
      (get? (front ++ (name, value') :: back) name) := by
  rw [get?_append, get?_append, get?_cons, get?_cons, if_pos rfl, if_pos rfl]
  cases get? front name with
  | none => exact .some h
  | some earlier => exact .some (hself earlier)

/-- Leaving names out does not change what the others look up. -/
theorem get?_filter {keep : String → Bool} (h : keep name) :
    get? (entries.filter fun entry => keep entry.1) name = get? entries name := by
  induction entries with
  | nil => rfl
  | cons entry rest ih =>
      obtain ⟨other, old⟩ := entry
      rw [List.filter_cons]
      by_cases hname : name = other
      · subst hname
        rw [if_pos h, get?_cons, get?_cons, if_pos rfl, if_pos rfl]
      · by_cases hkeep : keep other
        · rw [if_pos hkeep, get?_cons, get?_cons, if_neg hname, if_neg hname, ih]
        · rw [if_neg hkeep, get?_cons, if_neg hname, ih]

/-- An entry of distinct names is the one that its name selects. -/
theorem get?_of_mem (hnodup : (names entries).Nodup) (h : (name, value) ∈ entries) :
    get? entries name = some value := by
  induction entries with
  | nil => simp at h
  | cons entry rest ih =>
      obtain ⟨other, old⟩ := entry
      rw [names_cons, List.nodup_cons] at hnodup
      rw [get?_cons]
      rcases List.mem_cons.mp h with heq | hrest
      · cases heq
        rw [if_pos rfl]
      · have hne : name ≠ other := by
          intro heq
          exact hnodup.1 (heq ▸ List.mem_map.mpr ⟨_, hrest, rfl⟩)
        rw [if_neg hne, ih hnodup.2 hrest]

/-- The order of distinct names does not matter for what they look up. -/
theorem get?_perm {entries' : Entries α} (hnodup : (names entries).Nodup) (h : entries.Perm entries') :
    get? entries name = get? entries' name := by
  have hnodup' : (names entries').Nodup := (h.map Prod.fst).nodup_iff.mp hnodup
  refine Option.ext fun value => ⟨fun hget => ?_, fun hget => ?_⟩
  · exact get?_of_mem hnodup' (h.mem_iff.mp (mem_of_get? hget))
  · exact get?_of_mem hnodup (h.mem_iff.mpr (mem_of_get? hget))

/-! ### Other values under the same names -/

@[simp] theorem names_map (f : α → β) :
    names (entries.map fun entry => (entry.1, f entry.2)) = names entries := by
  simp [names]

/-- The new value may depend on the name. -/
theorem get?_map_named (f : String → α → β) :
    get? (entries.map fun entry => (entry.1, f entry.1 entry.2)) name = (get? entries name).map (f name) := by
  induction entries with
  | nil => rfl
  | cons entry rest ih =>
      rw [List.map_cons, get?_cons, ih, get?_cons]
      by_cases h : name = entry.1
      · rw [if_pos h, if_pos h, h]
        rfl
      · rw [if_neg h, if_neg h]

theorem get?_map (f : α → β) :
    get? (entries.map fun entry => (entry.1, f entry.2)) name = (get? entries name).map f :=
  get?_map_named fun _ => f

/-! ### Single writes -/

theorem insert_of_notMem (h : name ∉ names entries) :
    insert entries name value = entries ++ [(name, value)] := by
  induction entries with
  | nil => rfl
  | cons entry rest ih =>
      obtain ⟨other, old⟩ := entry
      rw [names_cons, List.mem_cons, not_or] at h
      rw [insert, if_neg (Ne.symm h.1), ih h.2]
      rfl

theorem mem_of_mem_insert {entry : String × α} (h : entry ∈ insert entries name value) :
    entry ∈ entries ∨ entry = (name, value) := by
  induction entries with
  | nil => exact .inr (List.mem_singleton.mp h)
  | cons first rest ih =>
      obtain ⟨other, old⟩ := first
      rw [insert] at h
      split at h
      · rcases List.mem_cons.mp h with rfl | hrest
        · exact .inr rfl
        · exact .inl (List.mem_cons_of_mem _ hrest)
      · rcases List.mem_cons.mp h with rfl | hrest
        · exact .inl (by simp)
        · exact (ih hrest).imp (List.mem_cons_of_mem _) id

theorem nodup_names_insert (h : (names entries).Nodup) : (names (insert entries name value)).Nodup := by
  rw [names_insert]
  split
  · exact h
  · next hnew => exact List.nodup_append.mpr ⟨h, by simp, by grind⟩

/-! ### Writes in order -/

@[simp] theorem ofList_nil : ofList ([] : List (String × α)) = [] := rfl

/-- One more pair is one more write. -/
theorem ofList_concat : ofList (pairs ++ [(name, value)]) = insert (ofList pairs) name value := by
  simp [ofList]

theorem nodup_names_ofList (pairs : List (String × α)) : (names (ofList pairs)).Nodup := by
  induction pairs using List.reverseRecOn with
  | nil => simp
  | append_singleton front pair ih =>
      rw [ofList_concat]
      exact nodup_names_insert ih

/-- Nothing is there that was not written. -/
theorem mem_of_mem_ofList {entry : String × α} (h : entry ∈ ofList pairs) : entry ∈ pairs := by
  induction pairs using List.reverseRecOn with
  | nil => simp at h
  | append_singleton front pair ih =>
      rw [ofList_concat] at h
      rcases mem_of_mem_insert h with hfront | rfl
      · exact List.mem_append_left _ (ih hfront)
      · simp

/-- Writing distinct names keeps the list as it is. -/
theorem ofList_of_nodup (h : (names pairs).Nodup) : ofList pairs = pairs := by
  induction pairs using List.reverseRecOn with
  | nil => rfl
  | append_singleton front pair ih =>
      rw [names_append, List.nodup_append] at h
      rw [ofList_concat, ih h.1, insert_of_notMem]
      intro hmem
      exact h.2.2 _ hmem pair.1 (by simp) rfl

/-- **The last write of a name is the one that counts.** -/
theorem get?_ofList (pairs : List (String × α)) (name : String) :
    get? (ofList pairs) name = get? pairs.reverse name := by
  induction pairs using List.reverseRecOn with
  | nil => rfl
  | append_singleton front pair ih =>
      obtain ⟨other, last⟩ := pair
      rw [ofList_concat, List.reverse_append, List.reverse_singleton, List.singleton_append, get?_cons]
      by_cases h : name = other
      · rw [if_pos h, h, get?_insert_self]
      · rw [if_neg h, get?_insert_of_ne _ _ h, ih]

/-- What comes first matters only by its distinct names. -/
theorem distinct_append_congr {front front' : List String} (h : distinct front = distinct front')
    (back : List String) : distinct (front ++ back) = distinct (front' ++ back) := by
  unfold distinct at h ⊢
  rw [List.foldl_append, List.foldl_append, h]

/-- One more name is added at the end, unless it is there. -/
theorem distinct_concat (front : List String) (name : String) :
    distinct (front ++ [name]) =
      if name ∈ distinct front then distinct front else distinct front ++ [name] := by
  unfold distinct
  rw [List.foldl_append]
  rfl

@[simp] theorem mem_distinct {names : List String} : name ∈ distinct names ↔ name ∈ names := by
  induction names using List.reverseRecOn generalizing name with
  | nil => rfl
  | append_singleton front last ih =>
      rw [distinct_concat]
      by_cases hseen : last ∈ distinct front
      · rw [if_pos hseen, ih, List.mem_append, List.mem_singleton]
        refine ⟨.inl, ?_⟩
        rintro (hfront | rfl)
        · exact hfront
        · exact ih.mp hseen
      · rw [if_neg hseen, List.mem_append, List.mem_append, ih]

/-- **The names stand where they were first written.** -/
theorem names_ofList (pairs : List (String × α)) : names (ofList pairs) = distinct (names pairs) := by
  induction pairs using List.reverseRecOn with
  | nil => rfl
  | append_singleton front pair ih =>
      rw [ofList_concat, names_insert, ih, names_append, names_cons, names_nil, distinct_concat]

/-- Leaving out repeats is writing entries of the names. -/
theorem distinct_eq_names (names : List String) :
    distinct names = Entries.names (ofList (names.map fun name => (name, ()))) := by
  rw [names_ofList, Entries.names, List.map_map]
  exact congrArg distinct (List.map_id names).symm

theorem nodup_distinct (names : List String) : (distinct names).Nodup := by
  rw [distinct_eq_names]
  exact nodup_names_ofList _

theorem distinct_of_nodup {names : List String} (h : names.Nodup) : distinct names = names := by
  have hnames : Entries.names (names.map fun name => (name, ())) = names := by
    rw [Entries.names, List.map_map]
    exact List.map_id names
  rw [distinct_eq_names, ofList_of_nodup (by rwa [hnames]), hnames]

/-- The names of a list without repeats, in the order in which the list first has them. -/
structure FirstOccurrences (all names : List String) : Prop where
  mem_iff : ∀ name, name ∈ names ↔ name ∈ all
  ordered : names.Pairwise fun name later => all.idxOf name < all.idxOf later

/-- **Leaving out repeats keeps every name where it first stands.** -/
theorem firstOccurrences_distinct (all : List String) : FirstOccurrences all (distinct all) := by
  refine ⟨fun name => mem_distinct, ?_⟩
  induction all using List.reverseRecOn with
  | nil => exact .nil
  | append_singleton front last ih =>
      -- One more name at the end moves no earlier one.
      have hfront : (distinct front).Pairwise fun name later =>
          (front ++ [last]).idxOf name < (front ++ [last]).idxOf later := by
        refine ih.imp_of_mem fun {name later} hname hlater hlt => ?_
        rw [List.idxOf_append_of_mem (mem_distinct.mp hname), List.idxOf_append_of_mem (mem_distinct.mp hlater)]
        exact hlt
      rw [distinct_concat]
      by_cases hseen : last ∈ distinct front
      · rw [if_pos hseen]
        exact hfront
      · rw [if_neg hseen, List.pairwise_append]
        refine ⟨hfront, List.pairwise_singleton _ _, ?_⟩
        intro name hname later hlater
        rw [List.mem_singleton.mp hlater, List.idxOf_append_of_mem (mem_distinct.mp hname),
          List.idxOf_append_of_notMem fun hmem => hseen (mem_distinct.mpr hmem)]
        have hlt := List.idxOf_lt_length_of_mem (mem_distinct.mp hname)
        omega

/-- Entries of the same names in the same order, with related values. -/
abbrev Corresponds (holds : α → β → Prop) : Entries α → Entries β → Prop :=
  List.Forall₂ fun entry entry' => entry'.1 = entry.1 ∧ holds entry.2 entry'.2

theorem Corresponds.symm {holds : α → β → Prop} {entries' : Entries β}
    (h : Corresponds holds entries entries') : Corresponds (fun b a => holds a b) entries' entries := by
  induction h with
  | nil => exact .nil
  | cons hentry _ ih => exact .cons ⟨hentry.1.symm, hentry.2⟩ ih

theorem Corresponds.names_eq {holds : α → β → Prop} {entries' : Entries β}
    (h : Corresponds holds entries entries') : names entries' = names entries := by
  induction h with
  | nil => rfl
  | cons hentry _ ih => rw [names_cons, names_cons, hentry.1, ih]

/-- What is looked up is related too, the relation knowing the name. -/
theorem exists_of_get? {R : String → α → β → Prop} {entries' : Entries β} {value' : β}
    (h : List.Forall₂ (fun entry entry' => entry'.1 = entry.1 ∧ R entry.1 entry.2 entry'.2) entries entries')
    (hget : get? entries' name = some value') : ∃ value, get? entries name = some value ∧ R name value value' := by
  induction h with
  | nil => simp at hget
  | @cons entry entry' rest rest' hentry _ ih =>
      obtain ⟨other, old⟩ := entry
      obtain ⟨other', old'⟩ := entry'
      obtain ⟨hname, hold⟩ := hentry
      dsimp only at hname hold
      subst hname
      rw [get?_cons] at hget ⊢
      by_cases heq : name = other'
      · subst heq
        rw [if_pos rfl] at hget ⊢
        cases hget
        exact ⟨old, rfl, hold⟩
      · rw [if_neg heq] at hget ⊢
        exact ih hget

theorem Corresponds.exists_of_get? {holds : α → β → Prop} {entries' : Entries β} {value' : β}
    (h : Corresponds holds entries entries') (hget : get? entries' name = some value') :
    ∃ value, get? entries name = some value ∧ holds value value' :=
  Entries.exists_of_get? (R := fun _ => holds) h hget

/-- Pairs that are related are so for the names that they write. -/
theorem exists_of_get?_ofList {R : String → α → β → Prop} {pairs' : List (String × β)} {value' : β}
    (h : List.Forall₂ (fun pair pair' => pair'.1 = pair.1 ∧ R pair.1 pair.2 pair'.2) pairs pairs')
    (hget : get? (ofList pairs') name = some value') :
    ∃ value, get? (ofList pairs) name = some value ∧ R name value value' := by
  rw [get?_ofList] at hget ⊢
  exact Entries.exists_of_get? (List.forall₂_reverse_iff.mpr h) hget

/-- Writing other values under the same names writes the same entries with other values. -/
theorem ofList_map (f : α → β) (pairs : List (String × α)) :
    ofList (pairs.map fun pair => (pair.1, f pair.2)) = (ofList pairs).map fun entry => (entry.1, f entry.2) := by
  refine ext_of_nodup (nodup_names_ofList _) ?_ fun name => ?_
  · rw [names_ofList, names_map, names_map, names_ofList]
  · rw [get?_ofList, ← List.map_reverse, get?_map, get?_map, get?_ofList]

theorem Corresponds.insert {holds : α → β → Prop} {entries' : Entries β} {value' : β}
    (h : Corresponds holds entries entries') (hvalue : holds value value') :
    Corresponds holds (insert entries name value) (Entries.insert entries' name value') := by
  induction h with
  | nil => exact .cons ⟨rfl, hvalue⟩ .nil
  | @cons entry entry' rest rest' hentry hrest ih =>
      obtain ⟨other, old⟩ := entry
      obtain ⟨other', old'⟩ := entry'
      obtain ⟨hname, hold⟩ := hentry
      dsimp only at hname hold
      subst hname
      rw [Entries.insert, Entries.insert]
      split
      · exact .cons ⟨rfl, hvalue⟩ hrest
      · exact .cons ⟨rfl, hold⟩ ih

/-- Pairs that correspond still do so when both lists are written. -/
theorem Corresponds.ofList {holds : α → β → Prop} {pairs' : List (String × β)}
    (h : Corresponds holds pairs pairs') : Corresponds holds (ofList pairs) (Entries.ofList pairs') := by
  -- What has been written so far corresponds, whatever it is.
  have hfold : ∀ entries entries', Corresponds holds entries entries' →
      Corresponds holds (pairs.foldl (fun entries pair => Entries.insert entries pair.1 pair.2) entries)
        (pairs'.foldl (fun entries pair => Entries.insert entries pair.1 pair.2) entries') := by
    induction h with
    | nil => exact fun _ _ hso => hso
    | cons hpair _ ih =>
        intro entries entries' hso
        refine ih _ _ ?_
        dsimp only
        rw [hpair.1]
        exact hso.insert hpair.2
  exact hfold [] [] .nil

end ZodRoutes.Entries
