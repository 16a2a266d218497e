/-
Quoted texts read back.

A quoted text is taken apart from its front: every character is read from what it was quoted as, and the
closing quote ends the literal, whatever follows.  So the literal has one end only, and a text that holds
quotes, backslashes or control characters cannot end it early.
-/
import ZodRoutes.Json.Reader
import ZodRoutes.Text.Quoted

namespace ZodRoutes.Json.Token

open Text (hexDigit quoted quotedChar)

theorem hexFour?_hexDigit :
    ∀ n < 32, hexFour? '0' '0' (hexDigit (n / 16)) (hexDigit (n % 16)) = some n := by
  decide

theorem withChar_eq_some {c : Char} {read : Option (List Char × List Char)}
    {result : List Char × List Char} :
    withChar c read = some result ↔ ∃ s rest, read = some (s, rest) ∧ result = (c :: s, rest) := by
  unfold withChar
  rw [Option.map_eq_some_iff]
  simp [eq_comm]

/-- A character is read from what it is quoted as. -/
theorem string?_quotedChar (c : Char) (text : List Char) :
    string? (quotedChar c ++ text) = withChar c (string? text) := by
  unfold quotedChar
  by_cases hquote : c = '"'
  · rw [if_pos hquote, hquote]
    rfl
  rw [if_neg hquote]
  by_cases hslash : c = '\\'
  · rw [if_pos hslash, hslash]
    rfl
  rw [if_neg hslash]
  by_cases hline : c = '\n'
  · rw [if_pos hline, hline]
    rfl
  rw [if_neg hline]
  by_cases hreturn : c = '\r'
  · rw [if_pos hreturn, hreturn]
    rfl
  rw [if_neg hreturn]
  by_cases htab : c = '\t'
  · rw [if_pos htab, htab]
    rfl
  rw [if_neg htab]
  have hchar : Char.ofNat c.toNat = c := Char.ofNat_toNat c
  by_cases hback : c.toNat = 0x8
  · rw [if_pos hback, ← hchar, hback]
    rfl
  rw [if_neg hback]
  by_cases hfeed : c.toNat = 0xC
  · rw [if_pos hfeed, ← hchar, hfeed]
    rfl
  rw [if_neg hfeed]
  by_cases hcontrol : c.toNat < 0x20
  · rw [if_pos hcontrol]
    show string? ('\\' :: 'u' :: '0' :: '0' :: hexDigit (c.toNat / 16) :: hexDigit (c.toNat % 16) ::
      text) = _
    rw [string?.eq_3, hexFour?_hexDigit _ hcontrol]
    dsimp only
    rw [if_neg (by omega), if_neg (by omega), hchar]
  · rw [if_neg hcontrol]
    show string? (c :: text) = _
    rw [string?.eq_5 _ _ hquote (fun _ _ _ _ _ h => absurd h hslash) fun _ _ h => absurd h hslash]
    simp [hcontrol, hslash]

/-- **A quoted text is read back up to its closing quote.** -/
theorem string?_quoted (s rest : List Char) :
    string? (s.flatMap quotedChar ++ '"' :: rest) = some (s, rest) := by
  induction s with
  | nil => exact string?.eq_2 rest
  | cons c s ih =>
      rw [List.flatMap_cons, List.append_assoc, string?_quotedChar, ih]
      rfl

theorem withChar_append {c : Char} {text s rest more : List Char}
    (ih : ∀ {s}, string? text = some (s, rest) → string? (text ++ more) = some (s, rest ++ more))
    (h : withChar c (string? text) = some (s, rest)) :
    withChar c (string? (text ++ more)) = some (s, rest ++ more) := by
  obtain ⟨s', rest', hinner, heq⟩ := withChar_eq_some.mp h
  cases heq
  exact withChar_eq_some.mpr ⟨s', _, ih hinner, rfl⟩

/-- What follows a string literal does not change how it is read. -/
theorem string?_append {text s rest : List Char} (h : string? text = some (s, rest))
    (more : List Char) : string? (text ++ more) = some (s, rest ++ more) := by
  fun_induction string? text generalizing s with
  | case2 inner =>
      cases h
      exact string?.eq_2 _
  | case6 a b c d high hhigh hnot hsurrogate a' b' c' d' inner low hlow hpair ih =>
      rw [List.cons_append, List.cons_append, List.cons_append, List.cons_append, List.cons_append,
        List.cons_append, string?.eq_3, hhigh]
      dsimp only
      rw [if_neg hnot, if_pos hsurrogate]
      simp only [List.cons_append, hlow, if_pos hpair]
      exact withChar_append ih h
  | case9 a b c d inner high hhigh hnot hplain ih =>
      rw [List.cons_append, List.cons_append, List.cons_append, List.cons_append, List.cons_append,
        List.cons_append, string?.eq_3, hhigh]
      dsimp only
      rw [if_neg hnot, if_neg hplain]
      exact withChar_append ih h
  | case11 mark inner hmark c hescaped ih =>
      have hletter : mark ≠ 'u' := by
        rintro rfl
        cases hescaped
      rw [List.cons_append, List.cons_append,
        string?.eq_4 _ _ fun _ _ _ _ _ heq => absurd heq hletter, hescaped]
      exact withChar_append ih h
  | case13 c inner hquote _ _ hplain ih =>
      have hslash : c ≠ '\\' := by
        rintro rfl
        exact hplain (by decide)
      rw [List.cons_append, string?.eq_5 _ _ hquote (fun _ _ _ _ _ heq => absurd heq hslash)
        fun _ _ heq => absurd heq hslash, if_neg hplain]
      exact withChar_append ih h
  | _ => cases h

end ZodRoutes.Json.Token
