/-
Names of routes are identifiers.

Cleaning leaves letters, digits and spaces, a space is never part of a word, and changing case keeps a letter a
letter.  So a name has letters and digits alone, and the underscore in front keeps a digit from starting it.
-/
import ZodRoutes.Document.RouteName
import ZodRoutes.Zod.Expr

namespace ZodRoutes.Document

open Zod.Expr (isIdentifier isIdentifierPart isIdentifierStart)

namespace RouteName

theorem toNat_lt_of_isAlphanum {c : Char} (h : c.isAlphanum) : c.toNat < 128 := by
  change ((decide (c.val ≥ 'A'.val ∧ c.val ≤ 'Z'.val) ||
    (decide (c.val ≥ 'a'.val) && decide (c.val ≤ 'z'.val))) ||
    (decide (c.val ≥ '0'.val) && decide (c.val ≤ '9'.val))) = true at h
  simp only [Bool.or_eq_true, Bool.and_eq_true, decide_eq_true_eq, ge_iff_le, UInt32.le_iff_toNat_le] at h
  have hcode : c.toNat = c.val.toNat := rfl
  have hdigit : '9'.val.toNat = 57 := rfl
  have hupper : 'Z'.val.toNat = 90 := rfl
  have hlower : 'z'.val.toNat = 122 := rfl
  omega

theorem isAlphanum_casing : ∀ code < 128, (Char.ofNat code).isAlphanum →
    (Char.ofNat code).toLower.isAlphanum ∧ (Char.ofNat code).toUpper.isAlphanum := by
  decide

/-- Changing case keeps letters and digits. -/
theorem isAlphanum_toLower_toUpper {c : Char} (h : c.isAlphanum) :
    c.toLower.isAlphanum ∧ c.toUpper.isAlphanum := by
  have hcode : Char.ofNat c.toNat = c := Char.ofNat_toNat c
  have hcasing := isAlphanum_casing c.toNat (toNat_lt_of_isAlphanum h)
  rw [hcode] at hcasing
  exact hcasing h

theorem isAlphanum_cleaned {c : Char} (h : cleaned c ≠ ' ') : (cleaned c).isAlphanum := by
  unfold cleaned at h ⊢
  by_cases hc : c.isAlphanum
  · rwa [if_pos hc]
  · rw [if_neg hc] at h
    exact absurd rfl h

/-- What holds of every character that is no space holds of every character of a word. -/
theorem forall_mem_wordsFrom {p : Char → Prop} {text current : List Char}
    (htext : ∀ c ∈ text, c ≠ ' ' → p c) (hcurrent : ∀ c ∈ current, p c) :
    ∀ word ∈ wordsFrom current text, ∀ c ∈ word, p c := by
  fun_induction wordsFrom current text <;> grind

theorem isAlphanum_capitalized {word : List Char} (h : ∀ c ∈ word, c.isAlphanum) :
    ∀ c ∈ capitalized word, c.isAlphanum := by
  cases word with
  | nil => simp [capitalized]
  | cons first rest =>
      intro c hc
      rcases List.mem_cons.mp hc with rfl | hc
      · exact (isAlphanum_toLower_toUpper (h first (by simp))).2
      · obtain ⟨d, hd, rfl⟩ := List.mem_map.mp hc
        exact (isAlphanum_toLower_toUpper (h d (List.mem_cons_of_mem _ hd))).1

theorem isAlphanum_camel {words : List (List Char)} (h : ∀ word ∈ words, ∀ c ∈ word, c.isAlphanum) :
    ∀ c ∈ camel words, c.isAlphanum := by
  cases words with
  | nil => simp [camel]
  | cons first rest =>
      intro c hc
      rcases List.mem_append.mp hc with hc | hc
      · obtain ⟨d, hd, rfl⟩ := List.mem_map.mp hc
        exact (isAlphanum_toLower_toUpper (h first (by simp) d hd)).1
      · obtain ⟨word, hword, hc⟩ := List.mem_flatMap.mp hc
        exact isAlphanum_capitalized (h word (List.mem_cons_of_mem _ hword)) c hc

/-- The letters and digits of a name. -/
def lettersOf (raw : String) : List Char := camel (wordsFrom [] (raw.toList.map cleaned))

theorem routeName_def (raw : String) :
    routeName raw = match lettersOf raw with
      | [] => "_"
      | first :: _ => String.ofList (if first.isDigit then '_' :: lettersOf raw else lettersOf raw) := rfl

theorem isAlphanum_lettersOf (raw : String) : ∀ c ∈ lettersOf raw, c.isAlphanum := by
  refine isAlphanum_camel (forall_mem_wordsFrom (fun c hc hspace => ?_) (by simp))
  obtain ⟨d, -, rfl⟩ := List.mem_map.mp hc
  exact isAlphanum_cleaned hspace

end RouteName

open RouteName in
/-- **Every route name is an identifier.** -/
theorem isIdentifier_routeName (raw : String) : isIdentifier (routeName raw) := by
  have hname := isAlphanum_lettersOf raw
  have hpart : ∀ c, c.isAlphanum → isIdentifierPart c := by
    intro c hc
    simp [isIdentifierPart, hc]
  rw [routeName_def]
  cases hletters : lettersOf raw with
  | nil => rfl
  | cons first rest =>
      rw [hletters] at hname
      have hfirst := hname first (by simp)
      have hrest : rest.all isIdentifierPart := by
        rw [List.all_eq_true]
        exact fun c hc => hpart c (hname c (List.mem_cons_of_mem _ hc))
      dsimp only
      unfold isIdentifier
      by_cases hdigit : first.isDigit
      · rw [if_pos hdigit, String.toList_ofList]
        simp [hpart first hfirst, hrest]
        decide
      · rw [if_neg hdigit, String.toList_ofList]
        have hstart : isIdentifierStart first := by
          simp only [Char.isAlphanum, Bool.or_eq_true] at hfirst
          simp [isIdentifierStart, hfirst.resolve_right hdigit]
        simp [hstart, hrest]

end ZodRoutes.Document
