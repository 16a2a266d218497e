/-
How the parts of an expression are written.

A text writes a denotation when it is the text of a term that stands for it.  Expressions are put together
from texts, and for each way of doing so there is a lemma here that says what the whole writes when the
parts write what they should.  Words come first, since they carry the texts of a document; then lists,
records and calls.
-/
import ZodRoutes.Proofs.Decimal.Layout
import ZodRoutes.Proofs.Zod.Meaning

namespace ZodRoutes.Zod

open Decimal (Double Numeral)
open Schema (Literal Rule)
open Text (joined)

variable {lib : Library}

/-! ### Lists of terms -/

theorem Term.denoteItems?_eq_some {items : List Term} {ds : List (Meaning lib.Validator)} :
    denoteItems? lib items = some ds ↔
      List.Forall₂ (fun term d => term.denote? lib = some d) items ds := by
  induction items generalizing ds with
  | nil => cases ds <;> simp [denoteItems?]
  | cons term rest ih =>
      rw [denoteItems?, List.forall₂_cons_left_iff]
      simp only [Option.bind_eq_bind, Option.bind_eq_some_iff, pure, ih]
      constructor
      · rintro ⟨d, hd, others, hothers, heq⟩
        cases heq
        exact ⟨d, others, hd, hothers, rfl⟩
      · rintro ⟨d, others, hd, hothers, rfl⟩
        exact ⟨d, hd, others, hothers, rfl⟩

theorem Term.denoteEntries?_eq_some {entries : List (Key × Term)}
    {pairs : List (String × Meaning lib.Validator)} :
    denoteEntries? lib entries = some pairs ↔
      List.Forall₂ (fun entry pair => pair.1 = entry.1.value ∧ entry.2.denote? lib = some pair.2)
        entries pairs := by
  induction entries generalizing pairs with
  | nil => cases pairs <;> simp [denoteEntries?]
  | cons entry rest ih =>
      obtain ⟨key, term⟩ := entry
      rw [denoteEntries?, List.forall₂_cons_left_iff]
      simp only [Option.bind_eq_bind, Option.bind_eq_some_iff, pure, ih]
      constructor
      · rintro ⟨d, hd, others, hothers, heq⟩
        cases heq
        exact ⟨_, others, ⟨rfl, hd⟩, hothers, rfl⟩
      · rintro ⟨⟨name, d⟩, others, ⟨hname, hd⟩, hothers, rfl⟩
        dsimp only at hname hd
        subst hname
        exact ⟨d, hd, others, hothers, rfl⟩

/-- A further call is made on what the calls before it give. -/
theorem Term.denoteCalls?_concat {calls : List (NameWord × List Term)} {method : Method}
    {arguments : List Term} {receiver : Meaning lib.Validator} :
    denoteCalls? lib (calls ++ [(method.word, arguments)]) receiver =
      (denoteCalls? lib calls receiver).bind fun before =>
        (denoteItems? lib arguments).bind fun ds => lib.callOn? before method ds := by
  induction calls generalizing receiver with
  | nil =>
      have hmethod : Method.ofName? method.word.name = some method := method.ofName?_name
      simp [denoteCalls?, hmethod]
  | cons call rest ih =>
      obtain ⟨first, others⟩ := call
      rw [List.cons_append, denoteCalls?, denoteCalls?]
      simp only [Option.bind_eq_bind, ih, Option.bind_assoc]

/-! ### Texts -/

theorem toList_toString (n : Nat) : (toString n).toList = Decimal.Digits.text n := by
  rw [Nat.toString_eq_ofList_toDigits, String.toList_ofList]
  rfl

/-- The text is that of a term that stands for something. -/
def Writes (lib : Library) (text : String) (d : Meaning lib.Validator) : Prop :=
  ∃ term : Term, term.text = text ∧ term.denote? lib = some d

/-- Texts of terms, taken one by one, are those of a list of terms. -/
theorem exists_terms {texts : List String} {ds : List (Meaning lib.Validator)}
    (h : List.Forall₂ (Writes lib) texts ds) :
    ∃ terms : List Term, terms.map Term.text = texts ∧ Term.denoteItems? lib terms = some ds := by
  simp only [Term.denoteItems?_eq_some]
  induction h with
  | nil => exact ⟨[], rfl, .nil⟩
  | cons hfirst _ ih =>
      obtain ⟨term, htext, hd⟩ := hfirst
      obtain ⟨terms, htexts, hds⟩ := ih
      exact ⟨term :: terms, by rw [List.map_cons, htext, htexts], .cons hd hds⟩

namespace Writes

variable {text : String} {v w : lib.Validator}

/-! ### Words -/

theorem quoted (s : String) : Writes lib (Text.quoted s) (.primitive (.text s)) := by
  refine ⟨.string (.ofString s), ?_, ?_⟩
  · rw [Term.text, StringWord.text_ofString]
  · rw [Term.denote?]
    show some (Meaning.primitive (.text (String.ofList s.toList))) = _
    rw [String.ofList_toList]

theorem pattern {s : String} (h : lib.compiles s) :
    Writes lib ("new RegExp(" ++ Text.quoted s ++ ")") (.pattern s) := by
  refine ⟨.pattern (.ofString s), ?_, ?_⟩
  · rw [Term.text, StringWord.text_ofString]
  · have hvalue : String.ofList (StringWord.ofString s).value = s := String.ofList_toList
    rw [Term.denote?, hvalue, if_pos h]

/-- A numeral in written form stands for itself. -/
theorem numeral {n : Numeral} (hwritten : n.Written) (htext : text.toList = n.chars) :
    Writes lib text (.primitive (.number n)) := by
  refine ⟨.number ⟨n, hwritten⟩, ?_, rfl⟩
  rw [Term.text, NumberWord.text, ← htext, String.ofList_toList]

theorem bound (lib : Library) (x : Double) :
    ∃ numeral, Writes lib (Expr.boundText x) (.primitive (.number numeral)) ∧ numeral.toDouble? = some x := by
  obtain ⟨n, hwritten, htext, hread, -⟩ := Decimal.Layout.argument.reads_back x
  exact ⟨n, numeral hwritten htext, hread⟩

/-- An integer is a row of digits, perhaps behind a sign. -/
theorem int (lib : Library) (n : Int) :
    ∃ numeral, Writes lib (toString n) (.primitive (.number numeral)) ∧ number? numeral = some (.int n) := by
  have hwritten : ∀ sign, (sign = none ∨ sign = some '-') → ∀ magnitude,
      Numeral.Written ⟨sign, Decimal.Digits.text magnitude, none, none⟩ :=
    fun sign hsign magnitude => ⟨hsign, Decimal.isRow_text magnitude, by simp, by simp⟩
  have hvalue : ∀ sign magnitude, Numeral.value ⟨sign, Decimal.Digits.text magnitude, none, none⟩ = magnitude := by
    intro sign magnitude
    show Decimal.digitsValue 0 (Decimal.Digits.text magnitude ++ []) = magnitude
    rw [List.append_nil, Decimal.digitsValue_text]
  cases n with
  | ofNat n =>
      refine ⟨_, numeral (hwritten none (.inl rfl) n) ?_, ?_⟩
      · show (toString n).toList = _
        rw [toList_toString]
        simp [Numeral.chars, Numeral.fractionChars, Numeral.powerChars]
      · show some (Json.Number.int (Numeral.value _ : Int)) = _
        rw [hvalue]
        rfl
  | negSucc n =>
      refine ⟨_, numeral (hwritten (some '-') (.inr rfl) (n + 1)) ?_, ?_⟩
      · show ("-" ++ toString (n + 1)).toList = _
        rw [String.toList_append, toList_toString]
        simp [Numeral.chars, Numeral.fractionChars, Numeral.powerChars]
      · show some (Json.Number.int (-(Numeral.value _ : Int))) = _
        rw [hvalue]
        rfl

theorem count (lib : Library) (n : Nat) :
    ∃ numeral, Writes lib (toString n) (.primitive (.number numeral)) ∧ count? numeral = some n := by
  obtain ⟨numeral, hwrites, hnumber⟩ := int lib n
  refine ⟨numeral, hwrites, ?_⟩
  rw [count?, hnumber]
  rfl

theorem jsonNumber (lib : Library) (n : Json.Number) :
    ∃ numeral, Writes lib n.text (.primitive (.number numeral)) ∧ number? numeral = some n := by
  cases n with
  | int n => exact int lib n
  | real x =>
      obtain ⟨n, hwritten, htext, hread, hpoint⟩ := Decimal.Layout.json.reads_back x
      refine ⟨n, numeral hwritten htext, ?_⟩
      -- The point or the power of ten tells the number apart from an integer.
      have hparts : (n.fraction.isSome || n.power.isSome) = true := by
        simpa using hpoint rfl
      rw [number?, if_pos hparts, hread]
      rfl

/-- The text of a literal is that of a primitive that says it. -/
theorem literal (lib : Library) (l : Literal) :
    ∃ p : Primitive, Writes lib l.text (.primitive p) ∧ p.literal? = some l := by
  cases l with
  | bool b => exact ⟨.truth b, ⟨.truth b, by cases b <;> rfl, rfl⟩, rfl⟩
  | num n =>
      obtain ⟨numeral, hwrites, hnumber⟩ := jsonNumber lib n
      refine ⟨.number numeral, hwrites, ?_⟩
      rw [Primitive.literal?, hnumber]
      rfl
  | str s => exact ⟨.text s, quoted s, rfl⟩

/-! ### Lists, records and calls -/

theorem list {texts : List String} {ds : List (Meaning lib.Validator)} (h : List.Forall₂ (Writes lib) texts ds) :
    Writes lib ("[" ++ joined "," texts ++ "]") (.list ds) := by
  obtain ⟨terms, htexts, hds⟩ := exists_terms h
  refine ⟨.list terms, ?_, ?_⟩
  · rw [Term.text, Term.itemTexts_eq, htexts]
  · rw [Term.denote?, hds]
    rfl

/-- The key of a name. -/
theorem exists_key (name : String) : ∃ key : Key, key.text = Expr.objectKey name ∧ key.value = name := by
  unfold Expr.objectKey
  by_cases h : Expr.isIdentifier name
  · rw [if_pos h]
    exact ⟨.name ⟨name, h⟩, rfl, rfl⟩
  · rw [if_neg h]
    refine ⟨.quoted (.ofString name), StringWord.text_ofString name, ?_⟩
    show String.ofList name.toList = name
    rw [String.ofList_toList]

/-- The text of a record with these texts under their names. -/
def recordText (entries : Entries String) : String :=
  "\x7b" ++ joined "," (entries.map fun entry => Expr.objectKey entry.1 ++ ":" ++ entry.2) ++ "\x7d"

theorem record {entries : Entries String} {pairs : List (String × Meaning lib.Validator)}
    (h : Entries.Corresponds (Writes lib) entries pairs) :
    Writes lib (recordText entries) (.record (Entries.ofList pairs)) := by
  have hterms : ∃ terms : List (Key × Term),
      terms.map Term.entryText = entries.map (fun entry => Expr.objectKey entry.1 ++ ":" ++ entry.2) ∧
        Term.denoteEntries? lib terms = some pairs := by
    simp only [Term.denoteEntries?_eq_some]
    induction h with
    | nil => exact ⟨[], rfl, .nil⟩
    | @cons entry pair _ _ hfirst _ ih =>
        obtain ⟨hname, term, htext, hd⟩ := hfirst
        obtain ⟨key, hkey, hvalue⟩ := exists_key entry.1
        obtain ⟨terms, htexts, hds⟩ := ih
        refine ⟨(key, term) :: terms, ?_, .cons ⟨?_, hd⟩ hds⟩
        · rw [List.map_cons, List.map_cons, htexts, Term.entryText, hkey, htext]
        · rw [hname, hvalue]
  obtain ⟨terms, htexts, hds⟩ := hterms
  refine ⟨.record terms, ?_, ?_⟩
  · rw [Term.text, Term.entryTexts_eq, htexts, recordText]
  · rw [Term.denote?, hds]
    rfl

theorem library : Writes lib "z" .library :=
  ⟨.chain [], rfl, rfl⟩

/-- A call goes behind the text of what it is made on. -/
theorem call {receiver next : Meaning lib.Validator} (h : Writes lib text receiver) (method : Method)
    {texts : List String} {ds : List (Meaning lib.Validator)} (hdenotes : List.Forall₂ (Writes lib) texts ds)
    (hcall : lib.callOn? receiver method ds = some next) :
    Writes lib (text ++ Expr.callText method.name (joined "," texts)) next := by
  obtain ⟨term, rfl, hd⟩ := h
  obtain ⟨terms, rfl, hds⟩ := exists_terms hdenotes
  -- Calls are made on the library and on validators, and only chains stand for those.
  have hchain : ∃ calls, term = .chain calls := by
    cases term with
    | chain calls => exact ⟨calls, rfl⟩
    | list items =>
        rw [Term.denote?, Option.map_eq_some_iff] at hd
        obtain ⟨_, _, rfl⟩ := hd
        simp [Library.callOn?] at hcall
    | record entries =>
        rw [Term.denote?, Option.map_eq_some_iff] at hd
        obtain ⟨_, _, rfl⟩ := hd
        simp [Library.callOn?] at hcall
    | pattern source =>
        rw [Term.denote?, Option.ite_none_right_eq_some] at hd
        obtain ⟨-, heq⟩ := hd
        cases heq
        simp [Library.callOn?] at hcall
    | _ =>
        rw [Term.denote?] at hd
        cases hd
        simp [Library.callOn?] at hcall
  obtain ⟨calls, rfl⟩ := hchain
  refine ⟨.chain (calls ++ [(method.word, terms)]), ?_, ?_⟩
  · apply String.toList_injective
    simp [Term.text, Term.toList_joined_empty, Term.callText, Method.word]
  · rw [Term.denote?] at hd ⊢
    rw [Term.denoteCalls?_concat, hd, Option.bind_some, hds, Option.bind_some, hcall]

/-! ### Validators -/

/-- A call on the library. -/
theorem base (method : Method) {texts : List String} {ds : List (Meaning lib.Validator)}
    (hdenotes : List.Forall₂ (Writes lib) texts ds) (hcall : lib.make? method ds = some v) :
    Writes lib ("z" ++ Expr.callText method.name (joined "," texts)) (.validator v) := by
  refine library.call method hdenotes ?_
  rw [Library.callOn?, hcall]
  rfl

/-- A call on the library with one argument. -/
theorem baseOn (method : Method) {argument : String} {d : Meaning lib.Validator} (hargument : Writes lib argument d)
    (hcall : lib.make? method [d] = some v) :
    Writes lib ("z" ++ Expr.callText method.name argument) (.validator v) := by
  have hall := base method (.cons hargument .nil) hcall
  rwa [Text.joined_singleton] at hall

/-- A call on a validator. -/
theorem method (h : Writes lib text (.validator v)) (method : Method)
    {texts : List String} {ds : List (Meaning lib.Validator)} (hdenotes : List.Forall₂ (Writes lib) texts ds)
    (hcall : lib.call? v method ds = some w) :
    Writes lib (text ++ Expr.callText method.name (joined "," texts)) (.validator w) := by
  refine h.call method hdenotes ?_
  rw [Library.callOn?, hcall]
  rfl

/-- A call with one argument. -/
theorem methodOn (h : Writes lib text (.validator v)) (method : Method)
    {argument : String} {d : Meaning lib.Validator} (hargument : Writes lib argument d)
    (hcall : lib.call? v method [d] = some w) :
    Writes lib (text ++ Expr.callText method.name argument) (.validator w) := by
  have hall := h.method method (.cons hargument .nil) hcall
  rwa [Text.joined_singleton] at hall

/-- A version of addresses, as an argument. -/
theorem version (s : String) :
    Writes lib ("\x7bversion:" ++ Text.quoted s ++ "\x7d") (.record [("version", .primitive (.text s))]) := by
  have hentry : Entries.Corresponds (Writes lib) [("version", Text.quoted s)]
      [("version", .primitive (.text s))] := .cons ⟨rfl, quoted s⟩ .nil
  have htext : "\x7bversion:" ++ Text.quoted s ++ "\x7d" = recordText [("version", Text.quoted s)] := by
    have hkey : Expr.objectKey "version" = "version" := rfl
    rw [recordText, List.map_singleton, Text.joined_singleton, hkey]
    apply String.toList_injective
    simp
  rw [htext]
  exact record hentry

/-- **The call of a rule states the rule.** -/
theorem rule {r : Rule} (h : Writes lib text (.validator v))
    (hcompiles : ∀ source, r = .pattern source → lib.compiles source) :
    ∃ call : RuleCall, call.States r ∧
      Writes lib (text ++ Expr.ruleCall r) (.validator (lib.restrict v call)) := by
  have hcount : ∀ (method : Method) (call : Numeral → RuleCall) (n : Nat),
      (∀ numeral, lib.call? v method [.primitive (.number numeral)] = some (lib.restrict v (call numeral))) →
      (∀ numeral, count? numeral = some n → (call numeral).States r) →
      ∃ call : RuleCall, call.States r ∧
        Writes lib (text ++ Expr.callText method.name (toString n)) (.validator (lib.restrict v call)) := by
    intro method call n hcall hstates
    obtain ⟨numeral, hwrites, hn⟩ := count lib n
    exact ⟨call numeral, hstates numeral hn, h.methodOn method hwrites (hcall numeral)⟩
  have hbound : ∀ (method : Method) (call : Numeral → RuleCall) (x : Double),
      (∀ numeral, lib.call? v method [.primitive (.number numeral)] = some (lib.restrict v (call numeral))) →
      (∀ numeral : Numeral, numeral.toDouble? = some x → (call numeral).States r) →
      ∃ call : RuleCall, call.States r ∧
        Writes lib (text ++ Expr.callText method.name (Expr.boundText x)) (.validator (lib.restrict v call)) := by
    intro method call x hcall hstates
    obtain ⟨numeral, hwrites, hx⟩ := bound lib x
    exact ⟨call numeral, hstates numeral hx, h.methodOn method hwrites (hcall numeral)⟩
  cases r with
  | format f =>
      refine ⟨.format f, rfl, ?_⟩
      cases f with
      | email => exact h.method .email .nil rfl
      | url => exact h.method .url .nil rfl
      | uuid => exact h.method .uuid .nil rfl
      | datetime => exact h.method .datetime .nil rfl
      | date => exact h.method .date .nil rfl
      | time => exact h.method .time .nil rfl
      | ipv4 => exact h.methodOn .ip (version "v4") rfl
      | ipv6 => exact h.methodOn .ip (version "v6") rfl
  | pattern source => exact ⟨.regex source, rfl, h.methodOn .regex (pattern (hcompiles source rfl)) rfl⟩
  | minLength n => exact hcount .min .min n (fun _ => rfl) fun _ hn => congrArg (Option.map Rule.minLength) hn
  | maxLength n => exact hcount .max .max n (fun _ => rfl) fun _ hn => congrArg (Option.map Rule.maxLength) hn
  | minItems n => exact hcount .min .min n (fun _ => rfl) fun _ hn => congrArg (Option.map Rule.minItems) hn
  | maxItems n => exact hcount .max .max n (fun _ => rfl) fun _ hn => congrArg (Option.map Rule.maxItems) hn
  | min x => exact hbound .min .min x (fun _ => rfl) fun _ hx => congrArg (Option.map Rule.min) hx
  | max x => exact hbound .max .max x (fun _ => rfl) fun _ hx => congrArg (Option.map Rule.max) hx
  | greaterThan x => exact hbound .gt .gt x (fun _ => rfl) fun _ hx => congrArg (Option.map Rule.greaterThan) hx
  | lessThan x => exact hbound .lt .lt x (fun _ => rfl) fun _ hx => congrArg (Option.map Rule.lessThan) hx
  | multipleOf x =>
      exact hbound .multipleOf .multipleOf x (fun _ => rfl) fun _ hx => congrArg (Option.map Rule.multipleOf) hx

end Writes

end ZodRoutes.Zod
