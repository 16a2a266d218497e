/-
The words of generated expressions.

String literals, number literals and names are the parts of an expression that carry text of a document.
Each word ends by itself: a string literal at its closing quote, a number literal or a name where another
sort of character follows.  So two texts that begin with words of one sort begin with the same word.
-/
import ZodRoutes.Proofs.Decimal.Numeral
import ZodRoutes.Proofs.Json.Quoted
import ZodRoutes.Zod.Expr

namespace ZodRoutes.Zod

open Decimal (Numeral)
open Json.Token (isNumeric string? string?_append string?_quoted)

/-- A string literal: what stands between its quotes, and the text that it denotes. -/
structure StringWord where
  body : List Char
  value : List Char
  reads : string? (body ++ ['"']) = some (value, [])

/-- A number literal. -/
structure NumberWord where
  numeral : Numeral
  written : numeral.Written

/-- An identifier. -/
structure NameWord where
  name : String
  identifier : Expr.isIdentifier name

namespace StringWord

/-- The literal with its quotes. -/
def text (word : StringWord) : String :=
  String.ofList ('"' :: word.body ++ ['"'])

/-- The text as it is quoted. -/
def ofString (s : String) : StringWord where
  body := s.toList.flatMap Text.quotedChar
  value := s.toList
  reads := string?_quoted s.toList []

@[simp] theorem text_ofString (s : String) : (ofString s).text = Text.quoted s := rfl

/-- A string literal ends at its closing quote. -/
theorem unique {word word' : StringWord} {rest rest' : List Char}
    (h : word.text.toList ++ rest = word'.text.toList ++ rest') : word = word' ∧ rest = rest' := by
  obtain ⟨body, value, reads⟩ := word
  obtain ⟨body', value', reads'⟩ := word'
  simp only [text, String.toList_ofList, List.cons_append, List.append_assoc, List.nil_append,
    List.cons.injEq, true_and] at h
  have hread := string?_append reads rest
  have hread' := string?_append reads' rest'
  simp only [List.append_assoc, List.cons_append, List.nil_append] at hread hread'
  rw [h, hread'] at hread
  simp only [Option.some.injEq, Prod.mk.injEq] at hread
  obtain ⟨rfl, rfl⟩ := hread
  have hbody : body = body' := List.append_cancel_right h
  subst hbody
  exact ⟨rfl, rfl⟩

end StringWord

/-- A character that ends a term that stands before it. -/
def closes (c : Char) : Bool := c == ',' || c == ')' || c == ']' || c == '\x7d'

theorem eq_of_closes {c : Char} (h : closes c) : c = ',' ∨ c = ')' ∨ c = ']' ∨ c = '\x7d' := by
  simp only [closes, Bool.or_eq_true, beq_iff_eq] at h
  tauto

/-- Nothing follows that could belong to a term before it. -/
def Ends (rest : List Char) : Prop := ∀ c ∈ rest.head?, closes c

theorem ends_cons {c : Char} {rest : List Char} (h : closes c) : Ends (c :: rest) := by
  rintro _ ⟨⟩
  exact h

/-- A row of characters of one sort ends where another sort follows. -/
theorem row_cut {p : Char → Bool} {row rest : List Char} (hrow : ∀ c ∈ row, p c)
    (hrest : ∀ c ∈ rest.head?, ¬ p c) :
    (row ++ rest).takeWhile p = row ∧ (row ++ rest).dropWhile p = rest := by
  rw [List.takeWhile_append_of_pos hrow, List.dropWhile_append_of_pos hrow]
  cases rest with
  | nil => simp
  | cons d rest =>
      have hstop := hrest d rfl
      exact ⟨by rw [List.takeWhile_cons_of_neg hstop, List.append_nil],
        by rw [List.dropWhile_cons_of_neg hstop]⟩

/-- Rows of the same sort of characters are equal when what follows them is of another sort. -/
theorem row_unique {p : Char → Bool} {front front' rest rest' : List Char} (hfront : ∀ c ∈ front, p c)
    (hfront' : ∀ c ∈ front', p c) (hrest : ∀ c ∈ rest.head?, ¬ p c) (hrest' : ∀ c ∈ rest'.head?, ¬ p c)
    (h : front ++ rest = front' ++ rest') : front = front' ∧ rest = rest' := by
  obtain ⟨htake, hdrop⟩ := row_cut hfront hrest
  rw [h] at htake hdrop
  obtain ⟨htake', hdrop'⟩ := row_cut hfront' hrest'
  exact ⟨htake.symm.trans htake', hdrop.symm.trans hdrop'⟩

namespace NumberWord

/-- The literal. -/
def text (word : NumberWord) : String :=
  String.ofList word.numeral.chars

theorem isNumeric_of_isDigit {c : Char} (h : c.isDigit) : isNumeric c := by
  simp [isNumeric, h]

theorem isNumeric_chars (word : NumberWord) : ∀ c ∈ word.numeral.chars, isNumeric c := by
  obtain ⟨⟨sign, whole, fraction, power⟩, ⟨hsign, hwhole, hfraction, hpower⟩⟩ := word
  dsimp only at *
  intro c hc
  simp only [Numeral.chars, List.mem_append, Option.mem_toList] at hc
  rcases hc with hc | hc | hc | hc
  · rcases hsign with rfl | rfl
    · simp at hc
    · cases hc
      decide
  · exact isNumeric_of_isDigit (hwhole.2 c hc)
  · cases fraction with
    | none => simp [Numeral.fractionChars] at hc
    | some digits =>
        rcases List.mem_cons.mp hc with rfl | hc
        · decide
        · exact isNumeric_of_isDigit ((hfraction digits rfl).2 c hc)
  · cases power with
    | none => simp [Numeral.powerChars] at hc
    | some pair =>
        obtain ⟨mark, digits⟩ := pair
        obtain ⟨hmark, hdigits⟩ := hpower mark digits rfl
        rcases List.mem_cons.mp hc with rfl | hc
        · decide
        · rcases List.mem_append.mp hc with hc | hc
          · rcases hmark with rfl | rfl | rfl
            · simp at hc
            · rw [List.mem_singleton.mp hc]
              decide
            · rw [List.mem_singleton.mp hc]
              decide
          · exact isNumeric_of_isDigit (hdigits.2 c hc)

theorem not_isNumeric_of_closes {c : Char} (h : closes c) : ¬ isNumeric c := by
  rcases eq_of_closes h with rfl | rfl | rfl | rfl <;> decide

/-- A number literal ends where a term does. -/
theorem unique {word word' : NumberWord} {rest rest' : List Char} (hrest : Ends rest)
    (hrest' : Ends rest') (h : word.text.toList ++ rest = word'.text.toList ++ rest') :
    word = word' ∧ rest = rest' := by
  unfold text at h
  rw [String.toList_ofList, String.toList_ofList] at h
  obtain ⟨hchars, hrests⟩ := row_unique word.isNumeric_chars word'.isNumeric_chars
    (fun c hc => not_isNumeric_of_closes (hrest c hc))
    (fun c hc => not_isNumeric_of_closes (hrest' c hc)) h
  have hcut := Numeral.cut?_chars word.written
  rw [hchars, Numeral.cut?_chars word'.written, Option.some.injEq] at hcut
  obtain ⟨numeral, written⟩ := word
  obtain ⟨numeral', written'⟩ := word'
  dsimp only at hcut
  subst hcut
  exact ⟨rfl, hrests⟩

end NumberWord

namespace NameWord

theorem exists_cons (word : NameWord) : ∃ first rest, word.name.toList = first :: rest ∧
    Expr.isIdentifierStart first ∧ ∀ c ∈ first :: rest, Expr.isIdentifierPart c := by
  have h := word.identifier
  unfold Expr.isIdentifier at h
  split at h
  · cases h
  · next first rest hlist =>
      rw [Bool.and_eq_true, List.all_eq_true] at h
      refine ⟨first, rest, hlist, h.1, fun c hc => ?_⟩
      rcases List.mem_cons.mp hc with rfl | hc
      · have hstart := h.1
        simp only [Expr.isIdentifierStart, Expr.isIdentifierPart, Char.isAlphanum, Bool.or_eq_true] at hstart ⊢
        tauto
      · exact h.2 c hc

theorem isIdentifierPart_name (word : NameWord) :
    ∀ c ∈ word.name.toList, Expr.isIdentifierPart c := by
  obtain ⟨first, rest, hlist, -, hall⟩ := word.exists_cons
  rw [hlist]
  exact hall

/-- A name ends where another sort of character follows. -/
theorem unique {word word' : NameWord} {c : Char} {rest rest' : List Char}
    (hc : ¬ Expr.isIdentifierPart c)
    (h : word.name.toList ++ c :: rest = word'.name.toList ++ c :: rest') :
    word = word' ∧ rest = rest' := by
  obtain ⟨hname, hrest⟩ := row_unique word.isIdentifierPart_name word'.isIdentifierPart_name
    (by rintro _ ⟨⟩; exact hc) (by rintro _ ⟨⟩; exact hc) h
  obtain ⟨name, identifier⟩ := word
  obtain ⟨name', identifier'⟩ := word'
  dsimp only at hname
  have hsame : name = name' := String.toList_injective hname
  subst hsame
  exact ⟨rfl, List.tail_eq_of_cons_eq hrest⟩

end NameWord

end ZodRoutes.Zod
