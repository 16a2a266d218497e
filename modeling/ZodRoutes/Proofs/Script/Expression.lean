/-
Reading the expressions of parameters.

Every term of a generated expression is read into tokens whose brackets match, with no comma outside them, in
front of a comma or a closing bracket.  The proof is by induction on the term; a row of terms, a call and a
chain of calls are put together once for all.  The expression of a parameter is a term, or a chain of calls
around one where a text is turned into a number first.
-/
import ZodRoutes.Proofs.Script.Bracket
import ZodRoutes.Proofs.Script.Reading
import ZodRoutes.Proofs.Request.LastWrite
import ZodRoutes.Proofs.Zod.Faithful

namespace ZodRoutes.Script

open Decimal (Numeral)
open Request (Buckets Location Parameter)
open Text (joined)
open Zod (Expr NameWord NumberWord Term Writes closes eq_of_closes)

variable {beyond : Char → Bool} {text : String} {tokens : List Token} {c : Char}

/-- The tokens of a text; none where it is not read. -/
def tokensOf (beyond : Char → Bool) (text : String) : List Token :=
  (tokens? beyond text.toList).getD []

/-- A text is read in front of what ends a term, and a comma or a bracket behind it is not mistaken for one
of its own. -/
structure Readable (beyond : Char → Bool) (text : String) : Prop where
  reads : Reads beyond closes text.toList (tokensOf beyond text)
  closed : Closed (tokensOf beyond text)

theorem Readable.of_reads (h : Reads beyond closes text.toList tokens) (hclosed : Closed tokens) :
    Readable beyond text := by
  have htokens : tokensOf beyond text = tokens := by
    unfold tokensOf
    rw [h.tokens?_eq, Option.getD_some]
  constructor
  · rwa [htokens]
  · rwa [htokens]

theorem Readable.tokens?_eq (h : Readable beyond text) :
    tokens? beyond text.toList = some (tokensOf beyond text) :=
  h.reads.tokens?_eq

theorem endsWord_of_closes (h : closes c) : endsWord beyond c := by
  rcases eq_of_closes h with rfl | rfl | rfl | rfl <;> rfl

theorem endsNumeral_of_closes (h : closes c) : endsNumeral beyond c := by
  rcases eq_of_closes h with rfl | rfl | rfl | rfl <;> rfl

/-! ### Rows, calls and chains -/

/-- A row of texts is read as their tokens with commas between. -/
theorem reads_row {α : Type} {textOf : α → String} {tokensOf : α → List Token} {items : List α}
    (h : ∀ a ∈ items, Reads beyond closes (textOf a).toList (tokensOf a)) :
    Reads beyond closes (joined "," (items.map textOf)).toList (commaSeparated (items.map tokensOf)) := by
  induction items with
  | nil => exact .nil
  | cons first rest ih =>
      have hfirst := h first (by simp)
      cases rest with
      | nil => exact hfirst
      | cons second rest =>
          have hrest := ih fun a ha => h a (List.mem_cons_of_mem _ ha)
          simp only [List.map_cons] at hrest ⊢
          rw [Text.joined_cons_cons, commaSeparated_cons_cons, String.toList_append, String.toList_append,
            List.append_assoc]
          exact hfirst.andThenCons ((Reads.mark (by decide)).andThen hrest) (by decide)

/-- A row in brackets, and that its brackets match. -/
theorem reads_bracketed {α : Type} (textOf : α → String) {opening close : Char} {items : List α}
    (h : ∀ a ∈ items, Readable beyond (textOf a)) (hopening : opening ∈ plainMarks)
    (hclose : closing? opening = some close) :
    ∃ tokens, Reads beyond anything
      (opening :: ((joined "," (items.map textOf)).toList ++ [close])) tokens ∧ Closed tokens := by
  have hmark : close ∈ plainMarks ∧ closes close := by
    unfold closing? at hclose
    split at hclose <;> cases hclose <;> decide
  have hrow := reads_row fun a ha => (h a ha).reads
  refine ⟨.mark opening :: (commaSeparated (items.map fun a => tokensOf beyond (textOf a)) ++ [.mark close]),
    (Reads.mark hopening).andThen (hrow.andThenCons (Reads.mark hmark.1) hmark.2), ?_⟩
  refine Held.bracket (held_commaSeparated fun item hitem => ?_) hclose
  obtain ⟨a, ha, rfl⟩ := List.mem_map.mp hitem
  exact (h a ha).closed

/-- A text is a call of a method whose arguments are read. -/
def IsCall (beyond : Char → Bool) (call : String) : Prop :=
  ∃ (word : NameWord) (arguments : List String), call = Expr.callText word.name (joined "," arguments) ∧
    ∀ argument ∈ arguments, Readable beyond argument

theorem IsCall.reads {call : String} (h : IsCall beyond call) :
    ∃ tokens, Reads beyond anything call.toList tokens ∧ Closed tokens := by
  obtain ⟨word, arguments, rfl, harguments⟩ := h
  obtain ⟨tokens, hread, hclosed⟩ :=
    reads_bracketed id harguments (by decide) (show closing? '(' = some ')' from rfl)
  rw [List.map_id] at hread
  refine ⟨.mark '.' :: .word word.name :: tokens, ?_, ?_⟩
  · have htext : (Expr.callText word.name (joined "," arguments)).toList =
        '.' :: (word.name.toList ++ '(' :: ((joined "," arguments).toList ++ [')'])) := by
      simp [Expr.callText]
    rw [htext]
    exact Reads.behindMethod word rfl hread
  · exact Closed.append (show Closed [.mark '.', .word word.name] from rfl) hclosed

theorem isCall_plain (word : NameWord) : IsCall beyond (Expr.callText word.name "") :=
  ⟨word, [], rfl, by simp⟩

theorem isCall_on (word : NameWord) (h : Readable beyond text) :
    IsCall beyond (Expr.callText word.name text) :=
  ⟨word, [text], rfl, by simpa using h⟩

theorem IsCall.exists_cons {call : String} (h : IsCall beyond call) :
    ∃ others, call.toList = '.' :: others := by
  obtain ⟨word, arguments, rfl, -⟩ := h
  exact ⟨_, by simp [Expr.callText]; rfl⟩

/-- Calls in a row are read one after the other. -/
theorem reads_calls {calls : List String} (h : ∀ call ∈ calls, IsCall beyond call) :
    ∃ tokens, Reads beyond anything (calls.flatMap String.toList) tokens ∧ Closed tokens := by
  induction calls with
  | nil => exact ⟨[], .nil, rfl⟩
  | cons call rest ih =>
      obtain ⟨tokens, hread, hclosed⟩ := (h call (by simp)).reads
      obtain ⟨tokens', hread', hclosed'⟩ := ih fun other hother => h other (List.mem_cons_of_mem _ hother)
      exact ⟨tokens ++ tokens', hread.andThen hread', hclosed.append hclosed'⟩

/-- The library with calls chained onto it is read. -/
theorem readable_chain {calls : List String} (h : ∀ call ∈ calls, IsCall beyond call) :
    Readable beyond ("z" ++ joined "" calls) := by
  obtain ⟨tokens, hread, hclosed⟩ := reads_calls h
  refine Readable.of_reads ?_ (Closed.append (show Closed [.word "z"] from rfl) hclosed)
  rw [String.toList_append, Term.toList_joined_empty]
  refine (Reads.name ⟨"z", rfl⟩).append (hread.imp fun _ _ => rfl) fun rest hrest => ?_
  cases calls with
  | nil => exact fun c hc => endsWord_of_closes (hrest c hc)
  | cons call calls =>
      obtain ⟨others, hcall⟩ := (h call (by simp)).exists_cons
      rw [List.flatMap_cons, hcall]
      exact meets_cons rfl

/-! ### Terms -/

theorem readable_name (word : NameWord) : Readable beyond word.name :=
  .of_reads ((Reads.name word).imp fun _ => endsWord_of_closes) rfl

theorem readable_number (word : NumberWord) : Readable beyond word.text := by
  obtain ⟨⟨sign, whole, fraction, power⟩, written⟩ := word
  obtain ⟨hsign, hwhole, hfraction, hpower⟩ := written
  dsimp only at hsign hwhole hfraction hpower
  have hunsigned : (⟨none, whole, fraction, power⟩ : Numeral).Written := ⟨.inl rfl, hwhole, hfraction, hpower⟩
  have hread : Reads beyond closes _ _ :=
    (Reads.unsigned ⟨_, hunsigned⟩ rfl).imp fun _ => endsNumeral_of_closes
  rcases hsign with rfl | rfl
  · exact .of_reads hread rfl
  · obtain ⟨first, digits, rfl⟩ := List.exists_cons_of_ne_nil hwhole.1
    have hmark : isMark '-' (some first) := by simp [isMark, hwhole.2 first (by simp)]
    have hsigned : (⟨some '-', first :: digits, fraction, power⟩ : Numeral).Written :=
      ⟨.inr rfl, hwhole, hfraction, hpower⟩
    have htext : (NumberWord.mk _ hsigned).text.toList = '-' :: (NumberWord.mk _ hunsigned).text.toList := by
      simp [NumberWord.text, Numeral.chars]
    obtain ⟨others, hothers⟩ : ∃ others, (NumberWord.mk _ hunsigned).text.toList = first :: others := by
      simp [NumberWord.text, Numeral.chars]
    rw [hothers] at hread
    have hnegative := Reads.markBefore (.inr (.inl rfl)) hmark hread
    rw [← hothers, ← htext] at hnegative
    exact .of_reads hnegative rfl

theorem readable_pattern (source : Zod.StringWord) : Readable beyond (Term.pattern source).text := by
  have htext : (Term.pattern source).text.toList =
      "new".toList ++ ' ' :: ("RegExp".toList ++ '(' :: (source.text.toList ++ [')'])) := by
    simp [Term.text]
  have hread : Reads beyond closes (Term.pattern source).text.toList
      [.word "new", .word "RegExp", .mark '(', .string (String.ofList source.value), .mark ')'] := by
    rw [htext]
    refine Reads.behindName ⟨"new", rfl⟩ rfl (Reads.behindBlank rfl ?_)
    refine Reads.behindName ⟨"RegExp", rfl⟩ rfl (Reads.behindMark (by decide) ?_)
    exact (Reads.string source).andThen ((Reads.mark (by decide)).imp fun _ _ => rfl)
  exact .of_reads hread rfl

/-- A key and its value are read with the colon between. -/
theorem reads_entry {key value : String} {token : Token}
    (hkey : Reads beyond (endsWord beyond) key.toList [token]) (h : Readable beyond value) :
    Reads beyond closes (key ++ ":" ++ value).toList (token :: .mark ':' :: tokensOf beyond value) := by
  rw [String.toList_append, String.toList_append, List.append_assoc]
  exact hkey.andThenCons ((Reads.mark (by decide)).andThen h.reads) rfl

theorem closed_entry {token : Token} (hkey : after? [] token = some []) (h : Closed tokens) :
    Closed (token :: .mark ':' :: tokens) := by
  show run? [] _ = _
  rw [run?_cons, hkey]
  exact h

theorem readable_entry {entry : Zod.Key × Term} (h : Readable beyond entry.2.text) :
    Readable beyond (Term.entryText entry) := by
  obtain ⟨key, term⟩ := entry
  cases key with
  | name word =>
      exact .of_reads (reads_entry (Reads.name word) h) (closed_entry rfl h.closed)
  | quoted word =>
      exact .of_reads (reads_entry ((Reads.string word).imp fun _ _ => rfl) h) (closed_entry rfl h.closed)

/-- **Every term is read.** -/
theorem readable_term (term : Term) : Readable beyond term.text := by
  induction term using Term.induction with
  | step term ih =>
      cases term with
      | string word => exact .of_reads ((Reads.string word).imp fun _ _ => rfl) rfl
      | number word => exact readable_number word
      | truth b =>
          cases b with
          | false => exact readable_name ⟨"false", rfl⟩
          | true => exact readable_name ⟨"true", rfl⟩
      | pattern source => exact readable_pattern source
      | list items =>
          obtain ⟨tokens, hread, hclosed⟩ :=
            reads_bracketed Term.text ih (by decide) (show closing? '[' = some ']' from rfl)
          have htext : (Term.list items).text.toList =
              '[' :: ((joined "," (items.map Term.text)).toList ++ [']']) := by
            simp [Term.text]
          exact .of_reads (htext ▸ hread.imp fun _ _ => rfl) hclosed
      | record entries =>
          have hentries : ∀ entry ∈ entries, Readable beyond (Term.entryText entry) := fun entry hentry =>
            readable_entry (ih entry.2 (List.mem_map.mpr ⟨entry, hentry, rfl⟩))
          obtain ⟨tokens, hread, hclosed⟩ :=
            reads_bracketed Term.entryText hentries (by decide) (show closing? '\x7b' = some '\x7d' from rfl)
          have htext : (Term.record entries).text.toList =
              '\x7b' :: ((joined "," (entries.map Term.entryText)).toList ++ ['\x7d']) := by
            simp [Term.text]
          exact .of_reads (htext ▸ hread.imp fun _ _ => rfl) hclosed
      | chain calls =>
          have htext : (Term.chain calls).text = "z" ++ joined "" (calls.map Term.callText) := by
            rw [Term.text, Term.callTexts_eq]
          rw [htext]
          refine readable_chain fun call hcall => ?_
          obtain ⟨⟨word, arguments⟩, hmem, rfl⟩ := List.mem_map.mp hcall
          refine ⟨word, arguments.map Term.text, rfl, fun argument hargument => ?_⟩
          obtain ⟨inner, hinner, rfl⟩ := List.mem_map.mp hargument
          exact ih inner (List.mem_flatMap.mpr ⟨_, hmem, hinner⟩)

/-! ### Parameters -/

theorem readable_of_writes {lib : Zod.Library} {d : Zod.Meaning lib.Validator}
    (h : Writes lib text d) : Readable beyond text := by
  obtain ⟨term, rfl, -⟩ := h
  exact readable_term term

/-- The text of a coercion is a chain of calls with its target inside. -/
theorem coercion_text {target : String} (accept : Bool) :
    ((Expr.coercion Expr.string.text target).optional accept).text =
      "z" ++ joined "" ([Expr.callText "string" "", Expr.callText "transform" "Number",
        Expr.callText "pipe" target] ++ if accept then [Expr.callText "optional" ""] else []) := by
  apply String.toList_injective
  rw [Expr.text_optional rfl]
  cases accept <;> simp [Expr.coercion, Expr.string, Expr.callText, Term.toList_joined_empty]

theorem readable_coercion {target : String} (h : Readable beyond target) (accept : Bool) :
    Readable beyond ((Expr.coercion Expr.string.text target).optional accept).text := by
  rw [coercion_text]
  refine readable_chain fun call hcall => ?_
  rcases List.mem_append.mp hcall with hcall | hcall
  · simp only [List.mem_cons, List.not_mem_nil, or_false] at hcall
    rcases hcall with rfl | rfl | rfl
    · exact isCall_plain ⟨"string", rfl⟩
    · exact isCall_on ⟨"transform", rfl⟩ (readable_name ⟨"Number", rfl⟩)
    · exact isCall_on ⟨"pipe", rfl⟩ h
  · cases accept with
    | false => cases hcall
    | true =>
        rw [List.mem_singleton.mp hcall]
        exact isCall_plain ⟨"optional", rfl⟩

/-- **The expression of every parameter is read.** -/
theorem readable_expression {p : Parameter} (h : p.expression = .ok text) : Readable beyond text := by
  unfold Parameter.expression at h
  split at h
  · next schema hschema =>
      cases h
      obtain ⟨hpresent, v, hwrites, -⟩ := Zod.faithful_plain (fun _ _ => True) hschema
      unfold Parameter.expressionOf
      by_cases hcoerced : p.needsCoercion
      · rw [if_pos hcoerced]
        exact readable_coercion (readable_of_writes hwrites) (!p.required)
      · rw [if_neg hcoerced]
        have hlib := Zod.Library.model_documented .plain (fun _ => true) fun _ _ => True
        obtain ⟨w, hw, -⟩ := hwrites.optional hlib hpresent (!p.required)
        exact readable_of_writes hw
  · cases h

/-- Every expression that a bucket holds is read. -/
theorem readable_of_mem_bucket {ps : List Parameter} {result : Buckets}
    (h : Buckets.ofParameters ps = .ok result)
    {location : Location} {entry : String × String} (hentry : entry ∈ result.bucket location) :
    Readable beyond entry.2 := by
  obtain ⟨p, -, hexpression⟩ := Buckets.exists_of_mem_bucket h hentry
  exact readable_expression hexpression

end ZodRoutes.Script
