/-
How the names of routes are spelled.

Cutting a text into words drops its spaces and nothing else, and joining the words changes the case of their letters
and nothing else.  So a name has the letters and digits of the text it was made from, in order, and nothing but an
underscore is ever put in front of them.

The case of the first letter is told by the first character of the text.  A text that begins with a letter or a digit
has it in its first word, which is written small.  A text that begins with anything else has an empty first word, so
that its first letter stands in a later word and is a capital.
-/
import ZodRoutes.Proofs.Document.RouteName

namespace ZodRoutes.Document

namespace RouteName

/-- The letters and digits of a text, in order. -/
def kept (raw : String) : List Char := raw.toList.filter Char.isAlphanum

/-- Whether a text has nothing to begin a name with: no letters and digits, or a digit first. -/
def isUnderscored (raw : String) : Bool :=
  match kept raw with
  | [] => true
  | first :: _ => first.isDigit

/-- Whether a text begins with a character that is no letter and no digit. -/
def beginsApart (raw : String) : Bool := raw.toList.head?.any fun c => !c.isAlphanum

/-- Whether a name begins with an underscore or a small letter. -/
def beginsSmall (name : String) : Bool := name.toList.head?.any fun c => c == '_' || c.isLower

/-- Whether a name begins with a capital. -/
def beginsCapital (name : String) : Bool := name.toList.head?.any Char.isUpper

/-! ### Case -/

theorem isUpper_iff {c : Char} : c.isUpper ↔ 65 ≤ c.toNat ∧ c.toNat ≤ 90 := by
  change decide (c.val ≥ 'A'.val ∧ c.val ≤ 'Z'.val) = true ↔ _
  rw [decide_eq_true_eq]
  exact Iff.rfl

theorem isLower_iff {c : Char} : c.isLower ↔ 97 ≤ c.toNat ∧ c.toNat ≤ 122 := by
  change (decide (c.val ≥ 'a'.val) && decide (c.val ≤ 'z'.val)) = true ↔ _
  rw [Bool.and_eq_true, decide_eq_true_eq, decide_eq_true_eq]
  exact Iff.rfl

theorem isAlpha_iff {c : Char} : c.isAlpha ↔ c.isUpper ∨ c.isLower := by
  change (c.isUpper || c.isLower) = true ↔ _
  rw [Bool.or_eq_true]

theorem not_isDigit_of_isAlpha {c : Char} (h : c.isAlpha) : ¬ c.isDigit := by
  rw [isAlpha_iff, isUpper_iff, isLower_iff] at h
  rw [Char.isDigit_iff_toNat]
  have hnine : '9'.toNat = 57 := rfl
  omega

theorem not_isUpper_of_isLower {c : Char} (h : c.isLower) : ¬ c.isUpper := by
  rw [isLower_iff] at h
  rw [isUpper_iff]
  omega

/-- A character that is no letter has no case. -/
theorem casing_of_not_isAlpha {c : Char} (h : ¬ c.isAlpha) : c.toLower = c ∧ c.toUpper = c := by
  rw [isAlpha_iff, isUpper_iff, isLower_iff, not_or] at h
  exact ⟨dif_neg h.1, dif_neg h.2⟩

/-- A letter has a small and a capital form, and the one of the other is the one of the letter. -/
theorem casing_code : ∀ code < 128, (Char.ofNat code).isAlpha →
    ((Char.ofNat code).toLower.isLower ∧ (Char.ofNat code).toUpper.isUpper) ∧
      (Char.ofNat code).toLower.toLower = (Char.ofNat code).toLower ∧
      (Char.ofNat code).toUpper.toLower = (Char.ofNat code).toLower := by
  decide

theorem casing_of_isAlpha {c : Char} (h : c.isAlpha) :
    (c.toLower.isLower ∧ c.toUpper.isUpper) ∧ c.toLower.toLower = c.toLower ∧ c.toUpper.toLower = c.toLower := by
  have hcode : Char.ofNat c.toNat = c := Char.ofNat_toNat c
  have hcasing := casing_code c.toNat (toNat_lt_of_isAlphanum (by simp [Char.isAlphanum, h]))
  rw [hcode] at hcasing
  exact hcasing h

@[simp] theorem toLower_toLower (c : Char) : c.toLower.toLower = c.toLower := by
  by_cases h : c.isAlpha
  · exact (casing_of_isAlpha h).2.1
  · rw [(casing_of_not_isAlpha h).1, (casing_of_not_isAlpha h).1]

@[simp] theorem toLower_toUpper (c : Char) : c.toUpper.toLower = c.toLower := by
  by_cases h : c.isAlpha
  · exact (casing_of_isAlpha h).2.2
  · rw [(casing_of_not_isAlpha h).2]

/-! ### The first letter -/

/-- How the first letter or digit of a text begins a name. -/
def asFirst (raw : String) (c : Char) : Char := if beginsApart raw then c.toUpper else c.toLower

/-- A letter begins a name as a capital when the text begins with something else, and small when not. -/
theorem casing_asFirst (raw : String) {c : Char} (hc : c.isAlpha) :
    if beginsApart raw then (asFirst raw c).isUpper else (asFirst raw c).isLower := by
  obtain ⟨⟨hlower, hupper⟩, -⟩ := casing_of_isAlpha hc
  unfold asFirst
  by_cases h : beginsApart raw
  · rw [if_pos h, if_pos h]
    exact hupper
  · rw [if_neg h, if_neg h]
    exact hlower

theorem isUpper_asFirst {raw : String} {c : Char} (hc : c.isAlpha) :
    (asFirst raw c).isUpper = beginsApart raw := by
  have hcasing := casing_asFirst raw hc
  by_cases h : beginsApart raw
  · rw [if_pos h] at hcasing
    rw [hcasing, h]
  · rw [if_neg h] at hcasing
    rw [Bool.eq_false_iff.mpr h, Bool.eq_false_iff.mpr (not_isUpper_of_isLower hcasing)]

theorem small_asFirst {raw : String} {c : Char} (hc : c.isAlpha) :
    (asFirst raw c == '_' || (asFirst raw c).isLower) = !beginsApart raw := by
  have hcasing := casing_asFirst raw hc
  by_cases h : beginsApart raw
  · rw [if_pos h] at hcasing
    have hne : asFirst raw c ≠ '_' := by
      intro heq
      rw [heq] at hcasing
      exact absurd hcasing (by decide)
    have hnot : ¬ (asFirst raw c).isLower := fun hlower => not_isUpper_of_isLower hlower hcasing
    rw [beq_eq_false_iff_ne.mpr hne, Bool.eq_false_iff.mpr hnot, h]
    rfl
  · rw [if_neg h] at hcasing
    rw [hcasing, Bool.eq_false_iff.mpr h, Bool.or_true]
    rfl

theorem isDigit_asFirst (raw : String) (c : Char) : (asFirst raw c).isDigit = c.isDigit := by
  by_cases hc : c.isAlpha
  · have hcasing := casing_asFirst raw hc
    have halpha : (asFirst raw c).isAlpha := by
      rw [isAlpha_iff]
      by_cases h : beginsApart raw
      · exact Or.inl (by rwa [if_pos h] at hcasing)
      · exact Or.inr (by rwa [if_neg h] at hcasing)
    rw [Bool.eq_false_iff.mpr (not_isDigit_of_isAlpha hc), Bool.eq_false_iff.mpr (not_isDigit_of_isAlpha halpha)]
  · unfold asFirst
    rw [(casing_of_not_isAlpha hc).1, (casing_of_not_isAlpha hc).2, ite_self]

/-! ### Words -/

/-- Cutting into words drops the spaces and nothing else. -/
theorem flatten_wordsFrom (current text : List Char) :
    (wordsFrom current text).flatten = current.reverse ++ text.filter (· ≠ ' ') := by
  fun_induction wordsFrom current text with
  | case1 current => simp
  | case2 current rest ih => simp [ih]
  | case3 current a h => simp [h]
  | case4 current a h b others hends ih => simp [ih, h]
  | case5 current a h b others hends ih => simp [ih, h]

/-- The first word takes up the word already begun. -/
theorem exists_first_word (current text : List Char) :
    ∃ more others, wordsFrom current text = (current.reverse ++ more) :: others := by
  fun_induction wordsFrom current text with
  | case1 current => exact ⟨[], [], by simp⟩
  | case2 current rest _ => exact ⟨[], wordsFrom [] rest, by simp⟩
  | case3 current a _ => exact ⟨[a], [], by simp⟩
  | case4 current a _ b others _ _ => exact ⟨[a], wordsFrom [] (b :: others), by simp⟩
  | case5 current a _ b others _ ih =>
      obtain ⟨more, words, hwords⟩ := ih
      exact ⟨a :: more, words, by simp [hwords]⟩

/-- A space ends the word already begun. -/
theorem wordsFrom_space (current text : List Char) :
    wordsFrom current (' ' :: text) = current.reverse :: wordsFrom [] text := by
  rw [wordsFrom.eq_def]
  exact if_pos rfl

/-- A character that is no space begins the first word. -/
theorem exists_first_word_cons {c : Char} (h : c ≠ ' ') (text : List Char) :
    ∃ more others, wordsFrom [] (c :: text) = (c :: more) :: others := by
  rw [wordsFrom.eq_def]
  dsimp only
  rw [if_neg h]
  cases text with
  | nil => exact ⟨[], [], rfl⟩
  | cons b text =>
      dsimp only
      by_cases hends : endsBetween c b text.head?
      · rw [if_pos hends]
        exact ⟨[], wordsFrom [] (b :: text), rfl⟩
      · rw [if_neg hends]
        exact exists_first_word [c] (b :: text)

theorem ne_space_of_isAlphanum {c : Char} (h : c.isAlphanum) : c ≠ ' ' := by
  rintro rfl
  exact absurd h (by decide)

theorem filter_cleaned (text : List Char) :
    (text.map cleaned).filter (· ≠ ' ') = text.filter Char.isAlphanum := by
  induction text with
  | nil => rfl
  | cons c rest ih =>
      rw [List.map_cons, List.filter_cons, List.filter_cons, ih]
      unfold cleaned
      by_cases hc : c.isAlphanum
      · simp [hc, ne_space_of_isAlphanum hc]
      · simp [hc]

/-! ### Camel case -/

theorem map_toLower_capitalized (word : List Char) :
    (capitalized word).map Char.toLower = word.map Char.toLower := by
  cases word with
  | nil => rfl
  | cons first rest => simp [capitalized, Function.comp_def]

/-- Camel case changes the case of letters and nothing else. -/
theorem map_toLower_camel (words : List (List Char)) :
    (camel words).map Char.toLower = words.flatten.map Char.toLower := by
  cases words with
  | nil => rfl
  | cons first rest =>
      simp [camel, List.map_flatten, List.flatMap, map_toLower_capitalized, Function.comp_def]

theorem head?_flatMap_capitalized (words : List (List Char)) :
    (words.flatMap capitalized).head? = words.flatten.head?.map Char.toUpper := by
  induction words with
  | nil => rfl
  | cons word rest ih =>
      cases word with
      | nil => simpa [capitalized] using ih
      | cons first others => rfl

/-! ### Names -/

theorem map_toLower_lettersOf (raw : String) :
    (lettersOf raw).map Char.toLower = (kept raw).map Char.toLower := by
  rw [lettersOf, map_toLower_camel, flatten_wordsFrom, filter_cleaned]
  rfl

theorem cleaned_eq_self {c : Char} (h : c.isAlphanum) : cleaned c = c :=
  if_pos h

theorem cleaned_eq_space {c : Char} (h : ¬ c.isAlphanum) : cleaned c = ' ' :=
  if_neg h

/-- The first letter or digit of a text begins what is made from it, whatever else the text begins with. -/
theorem head?_lettersOf (raw : String) : (lettersOf raw).head? = (kept raw).head?.map (asFirst raw) := by
  unfold lettersOf kept asFirst beginsApart
  cases raw.toList with
  | nil => rfl
  | cons c rest =>
      rw [List.map_cons]
      by_cases hc : c.isAlphanum
      · obtain ⟨more, others, hwords⟩ := exists_first_word_cons (ne_space_of_isAlphanum hc) (rest.map cleaned)
        rw [cleaned_eq_self hc, hwords]
        simp [camel, hc]
      · -- The word in front of the first space is empty, so no word is written small.
        rw [cleaned_eq_space hc, wordsFrom_space]
        show ((wordsFrom [] (rest.map cleaned)).flatMap capitalized).head? = _
        rw [head?_flatMap_capitalized, flatten_wordsFrom, filter_cleaned]
        simp [hc]

theorem head?_lettersOf_isDigit (raw : String) :
    (lettersOf raw).head?.all Char.isDigit = isUnderscored raw := by
  rw [head?_lettersOf, isUnderscored]
  cases kept raw with
  | nil => rfl
  | cons c rest => exact isDigit_asFirst raw c

theorem routeName_eq (raw : String) :
    routeName raw = String.ofList (if isUnderscored raw then '_' :: lettersOf raw else lettersOf raw) := by
  rw [routeName_def, ← head?_lettersOf_isDigit]
  cases lettersOf raw with
  | nil => rfl
  | cons first others => rfl

/-- A name begins with its underscore, or with the first letter of its text. -/
theorem begins_routeName (raw : String) :
    (isUnderscored raw ∧ (routeName raw).toList.head? = some '_') ∨
      (¬ isUnderscored raw ∧ ∃ c : Char, c.isAlpha ∧ (routeName raw).toList.head? = some (asFirst raw c)) := by
  by_cases hmark : isUnderscored raw
  · refine Or.inl ⟨hmark, ?_⟩
    rw [routeName_eq, if_pos hmark, String.toList_ofList]
    rfl
  · refine Or.inr ⟨hmark, ?_⟩
    rw [routeName_eq, if_neg hmark, String.toList_ofList, head?_lettersOf]
    unfold isUnderscored at hmark
    cases hkept : kept raw with
    | nil =>
        rw [hkept] at hmark
        exact absurd rfl hmark
    | cons c rest =>
        rw [hkept] at hmark
        have hmem : c ∈ kept raw := by simp [hkept]
        have hc : c.isAlphanum := (List.mem_filter.mp hmem).2
        rw [Char.isAlphanum, Bool.or_eq_true] at hc
        exact ⟨c, hc.resolve_right hmark, rfl⟩

theorem routeName_ne_empty (raw : String) : routeName raw ≠ "" := by
  intro hempty
  rcases begins_routeName raw with ⟨-, hfirst⟩ | ⟨-, c, -, hfirst⟩
  · simp [hempty] at hfirst
  · simp [hempty] at hfirst

/-- A name begins small unless the first letter of its text has something else in front of it. -/
theorem beginsSmall_iff (raw : String) :
    beginsSmall (routeName raw) ↔ isUnderscored raw ∨ ¬ beginsApart raw := by
  unfold beginsSmall
  rcases begins_routeName raw with ⟨hmark, hfirst⟩ | ⟨hmark, c, hc, hfirst⟩
  · rw [hfirst]
    exact iff_of_true rfl (Or.inl hmark)
  · rw [hfirst, Option.any_some, small_asFirst hc]
    simp [hmark]

/-- In that case it begins with a capital. -/
theorem beginsCapital_iff (raw : String) :
    beginsCapital (routeName raw) ↔ ¬ isUnderscored raw ∧ beginsApart raw := by
  unfold beginsCapital
  rcases begins_routeName raw with ⟨hmark, hfirst⟩ | ⟨hmark, c, hc, hfirst⟩
  · rw [hfirst]
    exact iff_of_false (by decide) fun h => h.1 hmark
  · rw [hfirst, Option.any_some, isUpper_asFirst hc]
    simp [hmark]

end RouteName

open RouteName

/-- **A name has the letters and digits of its text, and begins small unless something else begins the text.**  It is
never empty.  Apart from an underscore, which is in front exactly when the text has no letters and digits or a digit
first, it has letters and digits alone, and but for case they are those of the text, in order.  It begins with an
underscore or a small letter exactly when the underscore is there or nothing else stands in front of the first letter;
otherwise it begins with a capital. -/
theorem routeName_spelled (raw : String) :
    routeName raw ≠ "" ∧
      (∃ letters : List Char,
        (routeName raw).toList = (if isUnderscored raw then '_' :: letters else letters) ∧
        (∀ c ∈ letters, c.isAlphanum) ∧ letters.map Char.toLower = (kept raw).map Char.toLower) ∧
      (beginsSmall (routeName raw) ↔ isUnderscored raw ∨ ¬ beginsApart raw) ∧
      (beginsCapital (routeName raw) ↔ ¬ beginsSmall (routeName raw)) := by
  have hletters : (routeName raw).toList = if isUnderscored raw then '_' :: lettersOf raw else lettersOf raw := by
    rw [routeName_eq, String.toList_ofList]
  refine ⟨routeName_ne_empty raw,
    ⟨lettersOf raw, hletters, isAlphanum_lettersOf raw, map_toLower_lettersOf raw⟩, beginsSmall_iff raw, ?_⟩
  rw [beginsSmall_iff, beginsCapital_iff, not_or, Decidable.not_not]

/-- An underscore in front makes the first letter a capital. -/
example : routeName "_fooBar" = "FooBar" := by cbv

end ZodRoutes.Document
