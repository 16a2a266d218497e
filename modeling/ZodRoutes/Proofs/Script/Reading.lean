/-
Reading a script piece by piece.

A text is read as some tokens when, wherever it stands in front of a character of some sort, the tokens of
the whole are these and then those of what follows.  Such texts are put together: where the second begins with
a character that the first may stand in front of, the two are read as the tokens of both.  So a generated text
is read by reading its parts, and what a part says of its surroundings is one sort of characters.
-/
import ZodRoutes.Proofs.Script.Token
import ZodRoutes.Proofs.Zod.Word

namespace ZodRoutes.Script

open Decimal (Numeral)
open Json.Token (isNumeric string? string?_append)
open Zod (NameWord NumberWord StringWord row_cut)
open Zod.Expr (isIdentifierPart isIdentifierStart)

/-- What follows begins with a character of a sort, or nothing follows. -/
def Meets (sort : Char → Bool) (rest : List Char) : Prop := ∀ c ∈ rest.head?, sort c

/-- Every character. -/
def anything : Char → Bool := fun _ => true

variable {beyond : Char → Bool} {sort sort' : Char → Bool} {text text' : List Char}
  {tokens tokens' : List Token} {c next : Char}

/-- The characters before which a word ends. -/
def endsWord (beyond : Char → Bool) (c : Char) : Bool := !isWordPart beyond c

/-- The characters before which a numeral ends. -/
def endsNumeral (beyond : Char → Bool) (c : Char) : Bool := !isNumeric c && !isWordPart beyond c

/-- A text is read as these tokens in front of every character of a sort, and at the end. -/
def Reads (beyond sort : Char → Bool) (text : List Char) (tokens : List Token) : Prop :=
  ∀ rest, Meets sort rest → tokens? beyond (text ++ rest) = (tokens? beyond rest).map (tokens ++ ·)

theorem meets_nil : Meets sort [] := by
  rintro _ ⟨⟩

theorem meets_cons {rest : List Char} (h : sort c) : Meets sort (c :: rest) := by
  rintro _ ⟨⟩
  exact h

theorem meets_anything (rest : List Char) : Meets anything rest := fun _ _ => rfl

namespace Reads

/-- A text that is read is read alone. -/
theorem tokens?_eq (h : Reads beyond sort text tokens) : tokens? beyond text = some tokens := by
  have hall := h [] meets_nil
  rwa [List.append_nil, tokens?_nil, Option.map_some, List.append_nil] at hall

theorem nil : Reads beyond sort [] [] := by
  intro rest _
  simp

theorem imp (h : Reads beyond sort text tokens) (hsort : ∀ c, sort' c → sort c) :
    Reads beyond sort' text tokens :=
  fun rest hrest => h rest fun c hc => hsort c (hrest c hc)

/-- **Texts are read one after the other** where the second begins as the first may be followed. -/
theorem append (h : Reads beyond sort text tokens) (h' : Reads beyond sort' text' tokens')
    (hmeets : ∀ rest, Meets sort' rest → Meets sort (text' ++ rest)) :
    Reads beyond sort' (text ++ text') (tokens ++ tokens') := by
  intro rest hrest
  calc tokens? beyond (text ++ text' ++ rest)
      = tokens? beyond (text ++ (text' ++ rest)) := by rw [List.append_assoc]
    _ = (tokens? beyond (text' ++ rest)).map (tokens ++ ·) := h _ (hmeets rest hrest)
    _ = ((tokens? beyond rest).map (tokens' ++ ·)).map (tokens ++ ·) := by rw [h' rest hrest]
    _ = (tokens? beyond rest).map (tokens ++ tokens' ++ ·) := by
        rw [Option.map_map]
        congr 1
        funext others
        exact (List.append_assoc ..).symm

/-- After a text that may stand anywhere every text may stand. -/
theorem andThen (h : Reads beyond anything text tokens) (h' : Reads beyond sort text' tokens') :
    Reads beyond sort (text ++ text') (tokens ++ tokens') :=
  h.append h' fun _ _ => meets_anything _

/-- A text is followed by one whose first character it may stand in front of. -/
theorem andThenCons (h : Reads beyond sort text tokens) (h' : Reads beyond sort' (c :: text') tokens')
    (hc : sort c) : Reads beyond sort' (text ++ c :: text') (tokens ++ tokens') :=
  h.append h' fun _ _ => meets_cons hc

theorem flatMap {α : Type} {textOf : α → List Char} {tokensOf : α → List Token} {items : List α}
    (h : ∀ a ∈ items, Reads beyond anything (textOf a) (tokensOf a)) :
    Reads beyond anything (items.flatMap textOf) (items.flatMap tokensOf) := by
  induction items with
  | nil => exact nil
  | cons a rest ih =>
      exact (h a (by simp)).andThen (ih fun b hb => h b (List.mem_cons_of_mem _ hb))

/-! ### Single pieces -/

theorem of_piece? (token? : Option Token)
    (h : ∀ rest, Meets sort rest → piece? beyond (text ++ rest) = some (token?, rest)) :
    Reads beyond sort text token?.toList :=
  fun rest hrest => tokens?_of_piece? (h rest hrest)

theorem piece?_cons (hslash : c ≠ '/') (hquote : c ≠ '"') (rest : List Char) :
    piece? beyond (c :: rest) =
      if isIdentifierStart c then
        some (some (.word (String.ofList (c :: rest.takeWhile (isWordPart beyond)))),
          rest.dropWhile (isWordPart beyond))
      else if c.isDigit then
        if isUnsigned (c :: rest.takeWhile isNumeric) &&
            !(rest.dropWhile isNumeric).head?.any (isWordPart beyond) then
          some (some (.numeral (String.ofList (c :: rest.takeWhile isNumeric))),
            rest.dropWhile isNumeric)
        else none
      else if isBlank c then some (none, rest)
      else if isMark c rest.head? then some (some (.mark c), rest)
      else none := by
  rw [piece?.eq_5 _ _ _ (fun _ heq _ => hslash heq) (fun _ heq _ => hslash heq) hquote]

theorem isWordPart_of_isIdentifierPart (h : isIdentifierPart c) : isWordPart beyond c := by
  simp [isWordPart, h]

/-- A word is read up to where another sort of character follows. -/
theorem word {name : String} {first : Char} {others : List Char} (hname : name.toList = first :: others)
    (hfirst : isIdentifierStart first) (hothers : ∀ c ∈ others, isWordPart beyond c) :
    Reads beyond (endsWord beyond) name.toList [.word name] := by
  have hslash : first ≠ '/' := by
    rintro rfl
    cases hfirst
  have hquote : first ≠ '"' := by
    rintro rfl
    cases hfirst
  refine of_piece? (some (.word name)) fun rest hrest => ?_
  obtain ⟨htake, hdrop⟩ := row_cut hothers fun c hc => by simpa [endsWord] using hrest c hc
  rw [hname, List.cons_append, piece?_cons hslash hquote, if_pos hfirst, htake, hdrop, ← hname,
    String.ofList_toList]

theorem name (word : NameWord) : Reads beyond (endsWord beyond) word.name.toList [.word word.name] := by
  obtain ⟨first, others, hname, hfirst, hall⟩ := word.exists_cons
  exact Reads.word hname hfirst fun c hc => isWordPart_of_isIdentifierPart (hall c (List.mem_cons_of_mem _ hc))

theorem eq_of_isBlank (h : isBlank c) : c = ' ' ∨ c = '\t' ∨ c = '\n' ∨ c = '\r' := by
  simp only [isBlank, Bool.or_eq_true, beq_iff_eq] at h
  tauto

/-- A blank is skipped. -/
theorem blank (h : isBlank c) : Reads beyond anything [c] [] := by
  refine of_piece? none fun rest _ => ?_
  rcases eq_of_isBlank h with rfl | rfl | rfl | rfl <;> rfl

theorem blanks (h : ∀ c ∈ text, isBlank c) : Reads beyond anything text [] := by
  induction text with
  | nil => exact nil
  | cons c rest ih =>
      exact (blank (h c (by simp))).andThen (ih fun d hd => h d (List.mem_cons_of_mem _ hd))

/-- A bracket, a comma, a colon and a semicolon are marks whatever follows. -/
theorem mark (h : c ∈ plainMarks) : Reads beyond anything [c] [.mark c] := by
  refine of_piece? (some (.mark c)) fun rest _ => ?_
  simp only [plainMarks, List.mem_cons, List.not_mem_nil, or_false] at h
  rcases h with rfl | rfl | rfl | rfl | rfl | rfl | rfl | rfl | rfl <;> rfl

theorem piece?_mark {rest : List Char} (hc : c = '=' ∨ c = '-' ∨ c = '.') (h : isMark c (some next)) :
    piece? beyond (c :: next :: rest) = some (some (.mark c), next :: rest) := by
  rcases hc with rfl | rfl | rfl
  all_goals
    rw [piece?_cons (by decide) (by decide), if_neg (by decide), if_neg (by decide), if_neg (by decide)]
    exact if_pos h

/-- A mark that depends on what follows stands in front of a text that is read. -/
theorem markBefore (hc : c = '=' ∨ c = '-' ∨ c = '.') (hmark : isMark c (some next))
    (h : Reads beyond sort (next :: text) tokens) :
    Reads beyond sort (c :: next :: text) (.mark c :: tokens) := by
  intro rest hrest
  rw [List.cons_append, List.cons_append, tokens?_of_piece? (piece?_mark hc hmark), ← List.cons_append,
    h rest hrest, Option.map_map]
  rfl

/-- A method is a dot and its name. -/
theorem method (word : NameWord) :
    Reads beyond (endsWord beyond) ('.' :: word.name.toList) [.mark '.', .word word.name] := by
  obtain ⟨first, others, hname, hfirst, -⟩ := word.exists_cons
  have hread : Reads beyond (endsWord beyond) word.name.toList [.word word.name] := name word
  rw [hname] at hread ⊢
  exact markBefore (.inr (.inr rfl)) (by simp [isMark, hfirst]) hread

/-- A string literal ends at its closing quote, whatever follows. -/
theorem string (word : StringWord) :
    Reads beyond anything word.text.toList [.string (String.ofList word.value)] := by
  refine of_piece? (some (.string (String.ofList word.value))) fun rest _ => ?_
  have hread := string?_append word.reads rest
  rw [List.append_assoc] at hread
  unfold StringWord.text
  rw [String.toList_ofList, List.cons_append, List.cons_append, List.append_assoc]
  show (string? (word.body ++ (['"'] ++ rest))).map _ = _
  rw [hread]
  rfl

theorem quoted (s : String) : Reads beyond anything (Text.quoted s).toList [.string s] := by
  have hread : Reads beyond anything _ _ := string (StringWord.ofString s)
  rwa [StringWord.text_ofString, show (StringWord.ofString s).value = s.toList from rfl,
    String.ofList_toList] at hread

/-- A line goes on up to the first character that ends one. -/
theorem lineEnd?_append (h : ∀ c ∈ text, ¬ endsLine c) (hc : endsLine c) (rest : List Char) :
    lineEnd? (text ++ c :: rest) = some rest := by
  induction text with
  | nil => rw [List.nil_append, lineEnd?, if_pos hc]
  | cons d others ih =>
      rw [List.cons_append, lineEnd?, if_neg (h d (by simp))]
      exact ih fun e he => h e (List.mem_cons_of_mem _ he)

/-- A line comment is skipped with the character that ends its line. -/
theorem lineComment (h : ∀ c ∈ text, ¬ endsLine c) (hc : endsLine c) :
    Reads beyond anything ('/' :: '/' :: text ++ [c]) [] := by
  refine of_piece? none fun rest _ => ?_
  show (lineEnd? (text ++ [c] ++ rest)).map _ = _
  rw [List.append_assoc, List.singleton_append, lineEnd?_append h hc]
  rfl

/-- A block comment is skipped up to its first end mark. -/
theorem blockComment (h : ∀ rest, blockEnd? (text ++ rest) = some rest) :
    Reads beyond anything ('/' :: '*' :: text) [] := by
  refine of_piece? none fun rest _ => ?_
  show (blockEnd? (text ++ rest)).map _ = _
  rw [h]
  rfl

/-! ### What stands behind a piece -/

theorem behindBlank (hc : isBlank c) (h : Reads beyond sort text tokens) : Reads beyond sort (c :: text) tokens :=
  (blank hc).andThen h

theorem behindMark (hc : c ∈ plainMarks) (h : Reads beyond sort text tokens) :
    Reads beyond sort (c :: text) (.mark c :: tokens) :=
  (mark hc).andThen h

theorem behindName (word : NameWord) (hc : endsWord beyond c) (h : Reads beyond sort (c :: text) tokens) :
    Reads beyond sort (word.name.toList ++ c :: text) (.word word.name :: tokens) :=
  (name word).andThenCons h hc

theorem behindMethod (word : NameWord) (hc : endsWord beyond c) (h : Reads beyond sort (c :: text) tokens) :
    Reads beyond sort ('.' :: (word.name.toList ++ c :: text)) (.mark '.' :: .word word.name :: tokens) :=
  (method word).andThenCons h hc

/-! ### Numerals -/

theorem not_isIdentifierStart_below :
    ∀ code < 58, (Char.ofNat code).isDigit → ¬ isIdentifierStart (Char.ofNat code) := by
  decide

theorem not_isIdentifierStart_of_isDigit (h : c.isDigit) : ¬ isIdentifierStart c := by
  have hcode : Char.ofNat c.toNat = c := Char.ofNat_toNat c
  have hbelow : c.toNat < 58 := by
    simp only [Char.isDigit, Bool.and_eq_true, decide_eq_true_eq, UInt32.le_iff_toNat_le] at h
    exact Nat.lt_succ_of_le h.2
  have hstart := not_isIdentifierStart_below c.toNat hbelow
  rw [hcode] at hstart
  exact hstart h

theorem isUnsigned_chars {n : Numeral} (h : n.Written) (hsign : n.sign = none) : isUnsigned n.chars := by
  obtain ⟨sign, whole, fraction, power⟩ := n
  cases hsign
  unfold isUnsigned
  rw [Numeral.cut?_chars h]
  have hwhole := h.whole.1
  have hfraction : Numeral.absentOrSome fraction := by
    cases fraction with
    | none => rfl
    | some digits => simpa [Numeral.absentOrSome] using (h.fraction digits rfl).1
  have hpower : Numeral.absentOrSome (power.map Prod.snd) := by
    cases power with
    | none => rfl
    | some pair => simpa [Numeral.absentOrSome] using (h.power pair.1 pair.2 rfl).2.1
  simp [hfraction, hpower, hwhole]

/-- A numeral without a sign is read up to where a character follows that is no part of it. -/
theorem unsigned (word : NumberWord) (hsign : word.numeral.sign = none) :
    Reads beyond (endsNumeral beyond) word.text.toList [.numeral word.text] := by
  obtain ⟨first, digits, hwhole⟩ := List.exists_cons_of_ne_nil word.written.whole.1
  obtain ⟨others, hchars⟩ : ∃ others, word.numeral.chars = first :: others := by
    simp [Numeral.chars, hsign, hwhole]
  have hfirst : first.isDigit := word.written.whole.2 first (by simp [hwhole])
  have hothers : ∀ c ∈ others, isNumeric c := fun c hc =>
    word.isNumeric_chars c (by rw [hchars]; exact List.mem_cons_of_mem _ hc)
  have hslash : first ≠ '/' := by
    rintro rfl
    cases hfirst
  have hquote : first ≠ '"' := by
    rintro rfl
    cases hfirst
  refine of_piece? (some (.numeral word.text)) fun rest hrest => ?_
  have hstop : ∀ c ∈ rest.head?, ¬ isNumeric c ∧ ¬ isWordPart beyond c := by
    intro c hc
    simpa [endsNumeral] using hrest c hc
  obtain ⟨htake, hdrop⟩ := row_cut hothers fun c hc => (hstop c hc).1
  have hend : rest.head?.any (isWordPart beyond) = false := by
    cases rest with
    | nil => rfl
    | cons d rest => simpa using (hstop d rfl).2
  have hunsigned := isUnsigned_chars word.written hsign
  unfold NumberWord.text
  rw [hchars] at hunsigned ⊢
  rw [String.toList_ofList, List.cons_append, piece?_cons hslash hquote,
    if_neg (not_isIdentifierStart_of_isDigit hfirst), if_pos hfirst, htake, hdrop, hunsigned, hend]
  rfl

end Reads

end ZodRoutes.Script
