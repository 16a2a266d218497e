/-
Terms stand on one line.

A text of a document comes into a term as a string literal, and a string literal holds no character below U+0020: a
line break in it is written by a letter behind a backslash.  Names and numerals have no line breaks in them, and
neither has what holds the parts of a term together.  So every term stands on one line, and with it the expression of
every parameter.
-/
import ZodRoutes.Proofs.Request.Coercion

namespace ZodRoutes

/-- A character that breaks a line. -/
def breaksLine (c : Char) : Bool := c == '\n' || c == '\r'

/-- A text without line breaks. -/
def OnOneLine (text : String) : Prop := ∀ c ∈ text.toList, ¬ breaksLine c

instance (text : String) : Decidable (OnOneLine text) :=
  List.decidableBAll (fun c => ¬ breaksLine c) text.toList

theorem breaksLine_iff {c : Char} : breaksLine c ↔ c = '\n' ∨ c = '\r' := by
  simp [breaksLine]

/-- What neither line break is, no character is that breaks a line. -/
theorem not_breaksLine_of {p : Char → Bool} {c : Char} (hfeed : ¬ p '\n') (hreturn : ¬ p '\r') (h : p c) :
    ¬ breaksLine c := by
  intro hbreak
  rcases breaksLine_iff.mp hbreak with rfl | rfl
  · exact hfeed h
  · exact hreturn h

namespace OnOneLine

variable {first second separator : String} {texts : List String}

theorem append_iff : OnOneLine (first ++ second) ↔ OnOneLine first ∧ OnOneLine second := by
  unfold OnOneLine
  rw [String.toList_append, List.forall_mem_append]

theorem append (h : OnOneLine first) (hsecond : OnOneLine second) : OnOneLine (first ++ second) :=
  append_iff.mpr ⟨h, hsecond⟩

/-- A text between two others. -/
theorem between {text : String} (hfirst : OnOneLine first) (h : OnOneLine text) (hsecond : OnOneLine second) :
    OnOneLine (first ++ text ++ second) :=
  (hfirst.append h).append hsecond

theorem joined (hseparator : OnOneLine separator) (h : ∀ text ∈ texts, OnOneLine text) :
    OnOneLine (Text.joined separator texts) := by
  induction texts with
  | nil => simp [OnOneLine, Text.joined]
  | cons text rest ih =>
      obtain ⟨htext, hrest⟩ := List.forall_mem_cons.mp h
      cases rest with
      | nil => exact htext
      | cons next rest => exact (htext.append hseparator).append (ih hrest)

end OnOneLine

/-! ### Words -/

/-- Only hexadecimal digits have a value. -/
theorem Text.isSome_hexValue?_of_numberIn? {base n : Nat} {digits : List Char} (h : numberIn? base digits = some n) :
    ∀ c ∈ digits, (hexValue? c).isSome := by
  have hfold : ∀ start,
      (digits.foldlM (fun n c => ((hexValue? c).filter (· < base)).map (n * base + ·)) start) = some n →
      ∀ c ∈ digits, (hexValue? c).isSome := by
    clear h
    induction digits with
    | nil => simp
    | cons c rest ih =>
        intro start h
        rw [List.foldlM_cons] at h
        obtain ⟨next, hnext, hrest⟩ := Option.bind_eq_some_iff.mp h
        obtain ⟨digit, hdigit, -⟩ := Option.map_eq_some_iff.mp hnext
        have hvalue := (Option.filter_eq_some_iff.mp hdigit).1
        exact List.forall_mem_cons.mpr ⟨by rw [hvalue]; rfl, ih next hrest⟩
  exact hfold 0 h

/-- Nothing that is escaped breaks a line. -/
theorem not_breaksLine_of_escape {a b c d : Char} {n : Nat} (h : Json.Token.hexFour? a b c d = some n) :
    ∀ x ∈ ['\\', 'u', a, b, c, d], ¬ breaksLine x := by
  intro x hx hbreak
  rcases List.mem_cons.mp hx with rfl | hx
  · exact absurd hbreak (by decide)
  · rcases List.mem_cons.mp hx with rfl | hx
    · exact absurd hbreak (by decide)
    · have hvalue := Text.isSome_hexValue?_of_numberIn? h x hx
      have hplain := not_breaksLine_of (p := fun x => (Text.hexValue? x).isSome) (by decide) (by decide) hvalue
      exact hplain hbreak

/-- What breaks a line behind a text without line breaks is behind it. -/
theorem breaksLine_behind {front inner rest : List Char} (hfront : ∀ c ∈ front, ¬ breaksLine c)
    (h : ∀ c ∈ inner, breaksLine c → c ∈ rest) : ∀ c ∈ front ++ inner, breaksLine c → c ∈ rest := by
  intro c hc hbreak
  rcases List.mem_append.mp hc with hc | hc
  · exact absurd hbreak (hfront c hc)
  · exact h c hc hbreak

/-- A string literal breaks no line before its end. -/
theorem breaksLine_of_string? {text value rest : List Char} (h : Json.Token.string? text = some (value, rest)) :
    ∀ c ∈ text, breaksLine c → c ∈ rest := by
  fun_induction Json.Token.string? text generalizing value with
  | case2 inner =>
      cases h
      have hquote : ∀ c ∈ ['"'], ¬ breaksLine c := by simp [breaksLine]
      exact breaksLine_behind hquote fun c hc _ => hc
  | case6 a b c d high hhigh hnot hsurrogate a' b' c' d' inner low hlow hpair ih =>
      obtain ⟨value', _, hinner, heq⟩ := Json.Token.withChar_eq_some.mp h
      cases heq
      exact breaksLine_behind (not_breaksLine_of_escape hhigh)
        (breaksLine_behind (not_breaksLine_of_escape hlow) (ih hinner))
  | case9 a b c d inner high hhigh hnot hplain ih =>
      obtain ⟨value', _, hinner, heq⟩ := Json.Token.withChar_eq_some.mp h
      cases heq
      exact breaksLine_behind (not_breaksLine_of_escape hhigh) (ih hinner)
  | case11 mark inner hmark c hescaped ih =>
      obtain ⟨value', _, hinner, heq⟩ := Json.Token.withChar_eq_some.mp h
      cases heq
      have hfront : ∀ c ∈ ['\\', mark], ¬ breaksLine c := by
        intro c hc hbreak
        rcases List.mem_pair.mp hc with rfl | rfl
        · exact absurd hbreak (by decide)
        · rcases breaksLine_iff.mp hbreak with rfl | rfl <;> cases hescaped
      exact breaksLine_behind hfront (ih hinner)
  | case13 c inner hquote _ _ hplain ih =>
      obtain ⟨value', _, hinner, heq⟩ := Json.Token.withChar_eq_some.mp h
      cases heq
      have hfront : ∀ d ∈ [c], ¬ breaksLine d := by
        intro d hd hbreak
        rw [List.mem_singleton.mp hd] at hbreak
        rcases breaksLine_iff.mp hbreak with rfl | rfl <;> exact hplain (by decide)
      exact breaksLine_behind hfront (ih hinner)
  | _ => cases h

namespace Zod

open Text (joined)

theorem StringWord.onOneLine (word : StringWord) : OnOneLine word.text := by
  intro c hc hbreak
  rw [text, String.toList_ofList] at hc
  rcases List.mem_cons.mp hc with rfl | hc
  · exact absurd hbreak (by decide)
  · cases breaksLine_of_string? word.reads c hc hbreak

theorem NumberWord.onOneLine (word : NumberWord) : OnOneLine word.text := by
  intro c hc
  rw [text, String.toList_ofList] at hc
  exact not_breaksLine_of (by decide) (by decide) (word.isNumeric_chars c hc)

theorem NameWord.onOneLine (word : NameWord) : OnOneLine word.name := by
  intro c hc
  exact not_breaksLine_of (by decide) (by decide) (word.isIdentifierPart_name c hc)

theorem Key.onOneLine (key : Key) : OnOneLine key.text := by
  cases key with
  | name word => exact word.onOneLine
  | quoted word => exact word.onOneLine

/-! ### Terms -/

/-- **Every term stands on one line.** -/
theorem Term.onOneLine (term : Term) : OnOneLine term.text := by
  have hcomma : OnOneLine "," := by decide
  induction term using Term.induction with
  | step term ih =>
      cases term with
      | string word => exact word.onOneLine
      | number word => exact word.onOneLine
      | truth b => cases b <;> decide
      | pattern source =>
          rw [text]
          exact .between (by decide) source.onOneLine (by decide)
      | list items =>
          rw [text, itemTexts_eq]
          refine .between (by decide) (.joined hcomma ?_) (by decide)
          intro item hitem
          obtain ⟨inner, hinner, rfl⟩ := List.mem_map.mp hitem
          exact ih inner hinner
      | record entries =>
          rw [text, entryTexts_eq]
          refine .between (by decide) (.joined hcomma ?_) (by decide)
          intro entry hentry
          obtain ⟨⟨key, inner⟩, hinner, rfl⟩ := List.mem_map.mp hentry
          exact (key.onOneLine.append (by decide)).append (ih inner (List.mem_map_of_mem hinner))
      | chain calls =>
          rw [text, callTexts_eq]
          refine OnOneLine.append (by decide) (.joined (by decide) ?_)
          intro call hcall
          obtain ⟨⟨word, arguments⟩, hmem, rfl⟩ := List.mem_map.mp hcall
          have harguments : OnOneLine (joined "," (arguments.map text)) := by
            refine .joined hcomma fun argument hargument => ?_
            obtain ⟨inner, hinner, rfl⟩ := List.mem_map.mp hargument
            exact ih inner (List.mem_flatMap.mpr ⟨_, hmem, hinner⟩)
          unfold callText Expr.callText
          exact ((OnOneLine.between (by decide) word.onOneLine (by decide)).append harguments).append (by decide)

end Zod

/-- **The expression of every parameter stands on one line.** -/
theorem Request.Parameter.onOneLine_expression {p : Parameter} {text : String} (h : p.expression = .ok text) :
    OnOneLine text := by
  obtain ⟨e, he, rfl⟩ := expression_eq_ok h
  obtain ⟨term, hterm⟩ := Zod.exists_term_of_mapNode he
  have hschema : OnOneLine e.text := hterm ▸ term.onOneLine
  refine OnOneLine.append ?_ ?_
  · split
    · rw [coercion_string_text]
      exact .between (by decide) hschema (by decide)
    · exact hschema
  · split <;> decide

end ZodRoutes
