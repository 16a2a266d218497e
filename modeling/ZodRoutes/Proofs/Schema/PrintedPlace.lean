/-
Printed places are unambiguous.

A slash is never printed for a character of a segment, so a printed place falls apart at its slashes into the `#` in
front and one piece for each segment, empty pieces included: the root has no piece, and a place whose only segment
is empty has one.  What is left is to read a piece back.

Character by character a segment is printed as two replacements one after the other would print it, `~` by `~0` and
then `/` by `~1`.  Two replacements undo them in the other order.  When `~1` is replaced, every tilde that was there
before still has its `0` behind it, so only the slashes come back, and nothing but tildes is left for `~0`.
-/
import ZodRoutes.Schema.Path

namespace ZodRoutes

/-! ### Replacing in a text -/

namespace Text

/-- A text in which every `first :: more` is replaced, from left to right and without overlap. -/
def replaced (first : Char) (more replacement : List Char) : List Char → List Char
  | [] => []
  | c :: rest =>
    if (first :: more).isPrefixOf (c :: rest) then
      replacement ++ replaced first more replacement (rest.drop more.length)
    else c :: replaced first more replacement rest
termination_by text => text.length

variable {first : Char} {more replacement : List Char}

/-- What is replaced in front of a text. -/
theorem replaced_append (rest : List Char) :
    replaced first more replacement (first :: (more ++ rest)) =
      replacement ++ replaced first more replacement rest := by
  have hfront : (first :: more).isPrefixOf (first :: (more ++ rest)) := by simp
  rw [replaced, if_pos hfront, List.drop_left]

/-- A character that begins nothing to be replaced stays. -/
theorem replaced_cons_of_ne {c : Char} (h : c ≠ first) (rest : List Char) :
    replaced first more replacement (c :: rest) = c :: replaced first more replacement rest := by
  have hfront : ¬ (first :: more).isPrefixOf (c :: rest) := by
    simp [List.isPrefixOf, Ne.symm h]
  rw [replaced, if_neg hfront]

/-- So does one with another character behind it than the one that is to be replaced along with it. -/
theorem replaced_cons_cons_of_ne {second c : Char} (h : c ≠ second) (rest : List Char) :
    replaced first [second] replacement (first :: c :: rest) =
      first :: replaced first [second] replacement (c :: rest) := by
  have hfront : ¬ [first, second].isPrefixOf (first :: c :: rest) := by
    simp [List.isPrefixOf, Ne.symm h]
  rw [replaced, if_neg hfront]

/-- Replacing one character goes character by character. -/
theorem replaced_single (text : List Char) :
    replaced first [] replacement text = text.flatMap fun c => if c = first then replacement else [c] := by
  induction text with
  | nil => rw [replaced, List.flatMap_nil]
  | cons c rest ih =>
      rw [List.flatMap_cons, ← ih]
      by_cases hc : c = first
      · rw [if_pos hc, hc]
        exact replaced_append rest
      · rw [if_neg hc]
        exact replaced_cons_of_ne hc rest

end Text

namespace Schema.Path

open Text (replaced replaced_append replaced_cons_of_ne replaced_cons_cons_of_ne replaced_single)

/-! ### Segments -/

/-- A segment with its tildes written `~0`. -/
def tildesEscaped (segment : List Char) : List Char := replaced '~' [] ['~', '0'] segment

theorem tildesEscaped_tilde (rest : List Char) : tildesEscaped ('~' :: rest) = '~' :: '0' :: tildesEscaped rest :=
  replaced_append rest

theorem tildesEscaped_of_ne {c : Char} (h : c ≠ '~') (rest : List Char) :
    tildesEscaped (c :: rest) = c :: tildesEscaped rest :=
  replaced_cons_of_ne h rest

theorem escapedChar_of_ne {c : Char} (htilde : c ≠ '~') (hslash : c ≠ '/') : escapedChar c = [c] := by
  rw [escapedChar, if_neg htilde, if_neg hslash]

/-- A segment is printed by two replacements: its tildes first, then its slashes. -/
theorem flatMap_escapedChar (segment : List Char) :
    segment.flatMap escapedChar = replaced '/' [] ['~', '1'] (tildesEscaped segment) := by
  rw [tildesEscaped, replaced_single, replaced_single, List.flatMap_assoc]
  refine congrArg (segment.flatMap ·) (funext fun c => ?_)
  by_cases htilde : c = '~'
  · rw [htilde]
    rfl
  · simp [escapedChar, htilde]

theorem slash_notMem_escaped (segment : List Char) : '/' ∉ segment.flatMap escapedChar := by
  intro hslash
  obtain ⟨c, -, hc⟩ := List.mem_flatMap.mp hslash
  by_cases htilde : c = '~'
  · rw [htilde] at hc
    exact absurd hc (by decide)
  by_cases h : c = '/'
  · rw [h] at hc
    exact absurd hc (by decide)
  · rw [escapedChar_of_ne htilde h] at hc
    exact h (List.mem_singleton.mp hc).symm

/-- Replacing `~1` brings the slashes back and leaves the escaped tildes as they are. -/
theorem slashes_back (segment : List Char) :
    replaced '~' ['1'] ['/'] (segment.flatMap escapedChar) = tildesEscaped segment := by
  induction segment with
  | nil => simp [replaced, tildesEscaped]
  | cons c rest ih =>
      rw [List.flatMap_cons]
      by_cases htilde : c = '~'
      · -- The tilde has a `0` behind it and not a `1`, so both stay.
        rw [htilde, tildesEscaped_tilde, ← ih]
        exact (replaced_cons_cons_of_ne (by decide) _).trans
          (congrArg _ (replaced_cons_of_ne (by decide) _))
      by_cases hslash : c = '/'
      · rw [hslash, tildesEscaped_of_ne (by decide), ← ih]
        exact replaced_append _
      · rw [escapedChar_of_ne htilde hslash, tildesEscaped_of_ne htilde, ← ih]
        exact replaced_cons_of_ne htilde _

/-- Replacing `~0` brings the tildes back. -/
theorem tildes_back (segment : List Char) : replaced '~' ['0'] ['~'] (tildesEscaped segment) = segment := by
  induction segment with
  | nil => simp [replaced, tildesEscaped]
  | cons c rest ih =>
      by_cases htilde : c = '~'
      · rw [htilde, tildesEscaped_tilde]
        exact (replaced_append _).trans (congrArg _ ih)
      · rw [tildesEscaped_of_ne htilde, replaced_cons_of_ne htilde, ih]

/-- The segment that a piece of a printed place stands for: `~1` is a slash, and then `~0` a tilde. -/
def segmentOf (piece : List Char) : String :=
  String.ofList (replaced '~' ['0'] ['~'] (replaced '~' ['1'] ['/'] piece))

theorem segmentOf_escaped (segment : String) : segmentOf (segment.toList.flatMap escapedChar) = segment := by
  rw [segmentOf, slashes_back, tildes_back, String.ofList_toList]

/-! ### Places -/

/-- The segments of a printed place: the pieces between slashes, behind the `#`. -/
def segments? (text : String) : Option (List String) :=
  match text.toList.splitOn '/' with
  | ['#'] :: pieces => some (pieces.map segmentOf)
  | _ => none

/-- A text with pieces behind it, each after a slash, is the text and the pieces with slashes in between. -/
theorem intercalate_pieces (front : List Char) (pieces : List (List Char)) :
    ['/'].intercalate (front :: pieces) = front ++ pieces.flatMap ('/' :: ·) := by
  induction pieces generalizing front with
  | nil => simp
  | cons piece pieces ih =>
      rw [List.intercalate_cons_cons, ih piece]
      simp

/-- A printed place falls apart at its slashes. -/
theorem splitOn_text (path : Path) :
    path.text.toList.splitOn '/' = ['#'] :: path.segments.map fun segment => segment.toList.flatMap escapedChar := by
  have htext : path.text.toList =
      ['/'].intercalate (['#'] :: path.segments.map fun segment => segment.toList.flatMap escapedChar) := by
    rw [intercalate_pieces, List.flatMap_map, text, String.toList_ofList]
    rfl
  rw [htext]
  refine List.splitOn_intercalate '/' ?_ (List.cons_ne_nil _ _)
  intro piece hpiece
  rcases List.mem_cons.mp hpiece with rfl | hpiece
  · decide
  · obtain ⟨segment, -, rfl⟩ := List.mem_map.mp hpiece
    exact slash_notMem_escaped segment.toList

/-- A place is printed segment by segment, each behind a slash and with its tildes and then its slashes escaped. -/
theorem text_eq (path : Path) :
    path.text = String.ofList ('#' :: path.segments.flatMap fun segment =>
      '/' :: replaced '/' [] ['~', '1'] (replaced '~' [] ['~', '0'] segment.toList)) := by
  have hsegment : segmentText = fun segment =>
      '/' :: replaced '/' [] ['~', '1'] (replaced '~' [] ['~', '0'] segment.toList) :=
    funext fun segment => congrArg ('/' :: ·) (flatMap_escapedChar segment.toList)
  rw [text, hsegment]

theorem segments?_text (path : Path) : segments? path.text = some path.segments := by
  unfold segments?
  rw [splitOn_text]
  simp [Function.comp_def, segmentOf_escaped]

/-- Going down segment by segment leads to the place of these segments. -/
theorem foldl_join (path : Path) (segments : List String) :
    segments.foldl join path = ⟨path.segments ++ segments⟩ := by
  induction segments generalizing path with
  | nil => simp
  | cons segment rest ih => simp [ih, join]

/-- **A printed place tells its segments.**  Wherever segments lead from the root, they are printed behind a `#`, each
behind a slash with `~` replaced by `~0` and then `/` by `~1`.  Splitting what is printed at the slashes and replacing
`~1` and then `~0` gives exactly these segments back, so two places never print alike. -/
theorem text_unambiguous :
    (∀ segments : List String,
      (segments.foldl join root).text = String.ofList ('#' :: segments.flatMap fun segment =>
        '/' :: replaced '/' [] ['~', '1'] (replaced '~' [] ['~', '0'] segment.toList)) ∧
      segments? (segments.foldl join root).text = some segments) ∧
    Function.Injective text := by
  refine ⟨fun segments => ?_, fun path other heq => ?_⟩
  · have hplace : segments.foldl join root = ⟨segments⟩ := foldl_join root segments
    rw [hplace]
    exact ⟨text_eq ⟨segments⟩, segments?_text ⟨segments⟩⟩
  · have hsegments : some path.segments = some other.segments := by
      rw [← segments?_text path, ← segments?_text other, heq]
    cases path
    cases other
    exact congrArg Path.mk (Option.some.inj hsegments)

end Schema.Path

end ZodRoutes
