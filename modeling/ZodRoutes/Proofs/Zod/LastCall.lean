/-
The last call of an expression.

Where the text of a term ends as a call without arguments does, that call is the last one of the term: the opening
bracket in front of the end is not part of an argument, since no term ends with one, and the name in front of it is
cut off by its dot.  So the end of a text tells the last call, and an expression of a schema does not end in
`.optional()`, for then it would be optional.
-/
import ZodRoutes.Proofs.Zod.Faithful

namespace ZodRoutes.Zod

open Schema (Node Path Rule)
open Text (joined)

/-- A text that ends in another character than an opening bracket. -/
def EndsShut (text : String) : Prop :=
  ∃ front last, text.toList = front ++ [last] ∧ last ≠ '('

theorem EndsShut.append {text : String} (h : EndsShut text) (front : String) : EndsShut (front ++ text) := by
  obtain ⟨before, last, htext, hlast⟩ := h
  exact ⟨front.toList ++ before, last, by rw [String.toList_append, htext, List.append_assoc], hlast⟩

/-- Between brackets, such a text does not make an empty pair of them at the end. -/
theorem EndsShut.not_empty_brackets {text : String} (h : EndsShut text) (front : String) :
    text ++ ")" ≠ front ++ "()" := by
  intro heq
  obtain ⟨before, last, htext, hlast⟩ := h
  have hinner : text = front ++ "(" := by
    rw [show "()" = "(" ++ ")" from rfl, ← String.append_assoc] at heq
    exact (String.append_left_inj _).mp heq
  have hchars : before ++ [last] = front.toList ++ ['('] := by
    rw [← htext, hinner, String.toList_append]
    rfl
  exact hlast (List.head_eq_of_cons_eq (List.append_inj_right' hchars rfl))

namespace Term

/-- The text of the calls before the last one, then that of the last. -/
theorem text_chain_concat (calls : List (NameWord × List Term)) (call : NameWord × List Term) :
    (chain (calls ++ [call])).text =
      (chain calls).text ++ ("." ++ call.1.name ++ "(" ++ joined "," (call.2.map text)) ++ ")" := by
  apply String.toList_injective
  simp [text, toList_joined_empty, callText, Expr.callText]

/-- The last character of a term opens nothing, and closes a bracket only behind a pattern or a call. -/
theorem exists_last (term : Term) : ∃ front last, term.text.toList = front ++ [last] ∧ last ≠ '(' ∧
    (last = ')' → (∃ source, term = .pattern source) ∨ ∃ calls call, term = .chain (calls ++ [call])) := by
  cases term with
  | string word => exact ⟨'"' :: word.body, '"', by simp [text, StringWord.text], by decide, by simp⟩
  | number word =>
      have hchars : (Term.number word).text.toList = word.numeral.chars := by
        rw [text, NumberWord.text, String.toList_ofList]
      have hne : word.numeral.chars ≠ [] := by
        obtain ⟨first, others, htext, -⟩ := (Term.number word).starts
        rw [← hchars, htext]
        exact List.cons_ne_nil _ _
      have hnumeric := word.isNumeric_chars _ (List.getLast_mem hne)
      refine ⟨_, _, by rw [hchars, List.dropLast_append_getLast hne], ?_, ?_⟩
      · intro hopen
        rw [hopen] at hnumeric
        exact absurd hnumeric (by decide)
      · intro hclose
        rw [hclose] at hnumeric
        exact absurd hnumeric (by decide)
  | truth b =>
      cases b
      · exact ⟨"fals".toList, 'e', rfl, by decide, by simp⟩
      · exact ⟨"tru".toList, 'e', rfl, by decide, by simp⟩
  | pattern source =>
      exact ⟨_, ')', by rw [text, String.toList_append]; rfl, by decide, fun _ => .inl ⟨source, rfl⟩⟩
  | list items => exact ⟨_, ']', by rw [text, String.toList_append]; rfl, by decide, by simp⟩
  | record entries => exact ⟨_, '\x7d', by rw [text, String.toList_append]; rfl, by decide, by simp⟩
  | chain calls =>
      rcases calls.eq_nil_or_concat' with rfl | ⟨before, call, rfl⟩
      · exact ⟨[], 'z', rfl, by decide, by simp⟩
      · refine ⟨_, ')', by rw [text_chain_concat, String.toList_append]; rfl, by decide, ?_⟩
        exact fun _ => .inr ⟨before, call, rfl⟩

/-- **No term ends with an opening bracket.** -/
theorem endsShut (term : Term) : EndsShut term.text := by
  obtain ⟨front, last, htext, hlast, -⟩ := term.exists_last
  exact ⟨front, last, htext, hlast⟩

/-- A row of terms that is not empty ends as its last term does. -/
theorem endsShut_row {terms : List Term} (h : terms ≠ []) : EndsShut (joined "," (terms.map text)) := by
  induction terms with
  | nil => exact absurd rfl h
  | cons first rest ih =>
      cases rest with
      | nil => exact first.endsShut
      | cons second rest => exact (ih (List.cons_ne_nil _ _)).append _

/-- **The end of a text tells the last call**: where it is the text of a call without arguments, the term is a
chain that ends with that call. -/
theorem lastCall {term : Term} {word : NameWord} {front : String}
    (h : term.text = front ++ Expr.callText word.name "") : ∃ calls, term = .chain (calls ++ [(word, [])]) := by
  have hend : Expr.callText word.name "" = "." ++ word.name ++ "()" := by
    simp [Expr.callText, String.append_assoc]
  rw [hend, ← String.append_assoc] at h
  obtain ⟨before, last, htext, -, hclosed⟩ := term.exists_last
  have hlast : last = ')' := by
    have hchars : before ++ [last] = (front ++ ("." ++ word.name) ++ "(").toList ++ [')'] := by
      rw [← htext, h]
      simp
    exact List.head_eq_of_cons_eq (List.append_inj_right' hchars rfl)
  rcases hclosed hlast with ⟨source, rfl⟩ | ⟨calls, ⟨other, arguments⟩, rfl⟩
  · have hquote : EndsShut source.text := (Term.string source).endsShut
    exact absurd h ((hquote.append "new RegExp(").not_empty_brackets _)
  · rw [text_chain_concat] at h
    have hnone : arguments = [] := by
      by_contra hsome
      have hrow := ((endsShut_row hsome).append ("." ++ other.name ++ "(")).append (chain calls).text
      exact hrow.not_empty_brackets _ h
    subst hnone
    -- The names are read from behind, up to the dot.
    have hnames : other.name.toList.reverse ++ '.' :: (chain calls).text.toList.reverse =
        word.name.toList.reverse ++ '.' :: front.toList.reverse := by
      have hchars := congrArg (fun s : String => s.toList.reverse) h
      simpa [joined] using hchars
    have hpart : ∀ (name : NameWord), ∀ c ∈ name.name.toList.reverse, Expr.isIdentifierPart c := by
      intro name c hc
      exact name.isIdentifierPart_name c (List.mem_reverse.mp hc)
    have hdot : ∀ chars : List Char, ∀ c ∈ ('.' :: chars).head?, ¬ Expr.isIdentifierPart c := by
      rintro chars _ ⟨⟩
      decide
    obtain ⟨hname, -⟩ := Zod.row_unique (hpart other) (hpart word) (hdot _) (hdot _) hnames
    refine ⟨calls, ?_⟩
    obtain ⟨name, identifier⟩ := word
    obtain ⟨name', identifier'⟩ := other
    have hsame : name' = name := String.toList_injective (List.reverse_injective hname)
    subst hsame
    rfl

end Term

/-- **An expression of a schema does not end in `.optional()`.** -/
theorem not_optional {node : Node} {path : Path} {e : Expr} (h : mapNode node path = .ok e) (front : String) :
    e.text ≠ front ++ ".optional()" := by
  intro heq
  have hlib := Library.model_documented .plain (fun _ => true) fun _ _ => True
  obtain ⟨-, v, ⟨term, htext, hdenotes⟩, hmeans⟩ := faithful_plain (fun _ _ => True) h
  have hend : term.text = front ++ Expr.callText Method.optional.word.name "" := htext.trans heq
  obtain ⟨calls, rfl⟩ := Term.lastCall hend
  rw [Term.denote?, Term.denoteCalls?_concat] at hdenotes
  simp only [Option.bind_eq_some_iff, Term.denoteItems?, Option.some.injEq] at hdenotes
  obtain ⟨before, -, _, rfl, hcall⟩ := hdenotes
  -- By the letter absence is not accepted, but what has been made optional accepts it.
  have habsent := hmeans.missing .absent trivial
  cases before with
  | validator w =>
      have hv : (Library.plain fun _ _ => True).optional w = v := by
        simpa [Library.callOn?, Library.call?] using hcall
      rw [← hv, hlib.optional] at habsent
      simp at habsent
  | _ => simp [Library.callOn?, Library.make?] at hcall

/-- The expression of a schema is the text of a term. -/
theorem exists_term_of_mapNode {node : Node} {path : Path} {e : Expr} (h : mapNode node path = .ok e) :
    ∃ term : Term, term.text = e.text := by
  obtain ⟨-, v, ⟨term, htext, -⟩, -⟩ := faithful_plain (fun _ _ => True) h
  exact ⟨term, htext⟩

end ZodRoutes.Zod
