/-
The expressions of single kinds.

An expression of a kind is put together from the texts of what stands below the kind.  For each way of doing
so there is a lemma here that says what the expression accepts when the parts accept what they should:
objects with their members, composites with their branches, closed sets with their literals.  The laws of the
library are used here and nowhere else.

What matters beside the accepted values is what becomes of a missing member, and which rules the validator
still offers.  A composite of one branch stands by itself, so it offers what the branch offers; nothing
depends on that, since no rule may stand on a composite.
-/
import ZodRoutes.Proofs.Zod.Writing
import ZodRoutes.Zod.Mapping

namespace ZodRoutes.Zod

open Json (Value)
open Schema (Literal Rule Subject)
open Text (joined)

variable {lib : Library} {reading : Reading} {holds : Rule → Value → Prop} {v w : lib.Validator} {e : Expr}

/-! ### Expressions without null and absence -/

namespace Expr

/-- Neither null nor absence has been added. -/
structure Bare (e : Expr) : Prop where
  notNullable : e.isNullable = false
  notOptional : e.isOptional = false

theorem bare_ofText (text : String) : (ofText text).Bare :=
  ⟨rfl, rfl⟩

@[simp] theorem text_ofText (text : String) : (ofText text).text = text := by
  simp [ofText, Expr.text, joined]

theorem Bare.call (h : e.Bare) (text : String) : (e.call text).Bare :=
  ⟨h.notNullable, h.notOptional⟩

theorem Bare.text_call (h : e.Bare) (text : String) : (e.call text).text = e.text ++ text := by
  apply String.toList_injective
  simp [Expr.text, Expr.call, h.notNullable, h.notOptional, Term.toList_joined_empty]

theorem Bare.text_nullable (h : e.Bare) (accept : Bool) :
    (e.nullable accept).text = e.text ++ if accept then ".nullable()" else "" := by
  simp [Expr.text, Expr.nullable, h.notNullable, h.notOptional]

theorem text_optional (h : e.isOptional = false) (accept : Bool) :
    (e.optional accept).text = e.text ++ if accept then ".optional()" else "" := by
  simp [Expr.text, Expr.optional, h]

end Expr

/-! ### Validators of given values -/

/-- The validator accepts exactly these values, and what is missing where `absence` holds. -/
structure Library.Means (lib : Library) (reading : Reading) (v : lib.Validator) (absence : Prop)
    (accepts : Value → Prop) : Prop where
  values : ∀ value, value.EachNumber reading.IsNumber → (lib.accepts v (.value value) ↔ accepts value)
  missing : ∀ input, input.Missing → (lib.accepts v input ↔ absence)

namespace Library.Means

variable {absence : Prop} {accepts accepts' : Value → Prop}

/-- A validator that accepts values alone. -/
theorem of_is (h : ∀ input, input.EachNumber reading.IsNumber → (lib.accepts v input ↔ input.Is accepts)) :
    lib.Means reading v False accepts := by
  refine ⟨fun value hvalue => h (.value value) hvalue, fun input hmissing => ?_⟩
  cases input with
  | value value => cases hmissing
  | absent => exact h .absent trivial
  | inherited => exact h .inherited trivial

theorem congr (h : lib.Means reading v absence accepts)
    (hiff : ∀ value, value.EachNumber reading.IsNumber → (accepts value ↔ accepts' value)) :
    lib.Means reading v absence accepts' :=
  ⟨fun value hvalue => (h.values value hvalue).trans (hiff value hvalue), h.missing⟩

end Library.Means

/-- The expression writes a validator of exactly these values, which offers these rules. -/
structure Renders (lib : Library) (reading : Reading) (e : Expr) (offered : Rule → Prop) (absence : Prop)
    (accepts : Value → Prop) : Prop where
  bare : e.Bare
  writes : ∃ v, Writes lib e.text (.validator v) ∧ lib.Means reading v absence accepts ∧
    ∀ rule, offered rule → lib.offers v rule

/-- The rules about values of a sort, none where there is no sort. -/
def RulesOf (subject? : Option Subject) (rule : Rule) : Prop :=
  subject? = some rule.subject

namespace Renders

variable {offered offered' : Rule → Prop} {absence : Prop} {accepts accepts' : Value → Prop}

/-- A text by itself. -/
theorem ofText {text : String} (h : Writes lib text (.validator v)) (hmeans : lib.Means reading v absence accepts)
    (hoffers : ∀ rule, offered rule → lib.offers v rule) :
    Renders lib reading (.ofText text) offered absence accepts := by
  refine ⟨Expr.bare_ofText text, v, ?_, hmeans, hoffers⟩
  rw [Expr.text_ofText]
  exact h

/-- A text by itself, of a validator that no rules are asked of. -/
theorem withoutRules {text : String} (h : Writes lib text (.validator v))
    (hmeans : lib.Means reading v absence accepts) :
    Renders lib reading (.ofText text) (RulesOf none) absence accepts :=
  .ofText h hmeans fun _ hnone => by cases hnone

theorem congr (h : Renders lib reading e offered absence accepts)
    (hiff : ∀ value, value.EachNumber reading.IsNumber → (accepts value ↔ accepts' value)) :
    Renders lib reading e offered absence accepts' := by
  obtain ⟨hbare, v, hv, hmeans, hoffers⟩ := h
  exact ⟨hbare, v, hv, hmeans.congr hiff, hoffers⟩

theorem offering (h : Renders lib reading e offered absence accepts) (hless : ∀ rule, offered' rule → offered rule) :
    Renders lib reading e offered' absence accepts := by
  obtain ⟨hbare, v, hv, hmeans, hoffers⟩ := h
  exact ⟨hbare, v, hv, hmeans, fun rule hrule => hoffers rule (hless rule hrule)⟩

/-! ### Rules, null and absence -/

/-- A call of a rule keeps the values that the rule allows, and the rules that it does not replace. -/
theorem rule (hlib : lib.Documented reading holds) {r : Rule} (h : Renders lib reading e offered absence accepts)
    (hr : offered r) (hcompiles : ∀ source, r = .pattern source → lib.compiles source) :
    Renders lib reading (e.rule r) (fun later => offered later ∧ reading.drops r later = false) absence
      fun value => accepts value ∧ holds r value := by
  obtain ⟨hbare, v, hv, hmeans, hoffers⟩ := h
  obtain ⟨call, hstates, hwrites⟩ := hv.rule hcompiles
  have haccepts := hlib.restrict v call r (hoffers r hr) hstates
  refine ⟨hbare.call _, lib.restrict v call, ?_, ⟨fun value hvalue => ?_, fun input hmissing => ?_⟩, ?_⟩
  · rw [Expr.rule, hbare.text_call]
    exact hwrites
  · rw [haccepts, hmeans.values value hvalue]
    rfl
  · have hallowed : input.Allowed (holds r) := by
      cases input with
      | value value => cases hmissing
      | _ => trivial
    rw [haccepts, hmeans.missing input hmissing]
    exact and_iff_left hallowed
  · rintro later ⟨hlater, hkept⟩
    exact hlib.restrict_offers v call r (hoffers r hr) hstates later (hoffers later hlater) hkept

/-- The calls of rules that do not replace each other keep the values that all of them allow. -/
theorem rules (hlib : lib.Documented reading holds) {rs : List Rule}
    (h : Renders lib reading e offered absence accepts) (hrs : ∀ r ∈ rs, offered r)
    (hkept : rs.Pairwise fun r later => reading.drops r later = false)
    (hcompiles : ∀ source, .pattern source ∈ rs → lib.compiles source) :
    Renders lib reading (rs.foldl Expr.rule e) (RulesOf none) absence
      fun value => accepts value ∧ ∀ r ∈ rs, holds r value := by
  induction rs generalizing e accepts offered with
  | nil => exact (h.offering fun _ hnone => by cases hnone).congr fun value _ => by simp
  | cons r rest ih =>
      rw [List.pairwise_cons] at hkept
      have hfirst := h.rule hlib (hrs r (by simp)) fun source hr => hcompiles source (by simp [hr])
      refine (ih hfirst (fun later hlater => ?_) hkept.2 fun source hsource => ?_).congr fun value _ => ?_
      · exact ⟨hrs later (List.mem_cons_of_mem _ hlater), hkept.1 later hlater⟩
      · exact hcompiles source (List.mem_cons_of_mem _ hsource)
      · rw [List.forall_mem_cons, and_assoc]

/-- Null is accepted too, where it is said so. -/
theorem nullable (hlib : lib.Documented reading holds) (h : Renders lib reading e offered absence accepts)
    (accept : Bool) :
    ∃ v, Writes lib (e.nullable accept).text (.validator v) ∧
      lib.Means reading v absence fun value => (accept ∧ value = .null) ∨ accepts value := by
  obtain ⟨hbare, v, hv, hmeans, -⟩ := h
  rw [hbare.text_nullable]
  cases accept with
  | false => exact ⟨v, by simpa using hv, hmeans.congr fun value _ => by simp⟩
  | true =>
      refine ⟨lib.nullable v, hv.method .nullable .nil rfl, fun value hvalue => ?_, fun input hmissing => ?_⟩
      · rw [hlib.nullable, hmeans.values value hvalue]
        simp
      · have hvalue : input ≠ .value .null := by
          rintro rfl
          exact hmissing
        rw [hlib.nullable, hmeans.missing input hmissing]
        exact or_iff_right hvalue

end Renders

/-- Absence is accepted too, where it is said so. -/
theorem Writes.optional (hlib : lib.Documented reading holds) (h : Writes lib e.text (.validator v))
    (hpresent : e.isOptional = false) (accept : Bool) :
    ∃ w, Writes lib (e.optional accept).text (.validator w) ∧
      ∀ input, lib.accepts w input ↔ (accept ∧ input = .absent) ∨ lib.accepts v input := by
  rw [Expr.text_optional hpresent]
  cases accept with
  | false => exact ⟨v, by simpa using h, fun input => by simp⟩
  | true =>
      refine ⟨lib.optional v, h.method .optional .nil rfl, fun input => ?_⟩
      rw [hlib.optional]
      simp

/-! ### Scalars and lists -/

namespace Renders

section

variable (hlib : lib.Documented reading holds)

include hlib

theorem string : Renders lib reading .string (RulesOf (some .text)) False fun value => ∃ s, value = .str s :=
  .ofText (.base .string .nil rfl) (.of_is fun input _ => hlib.string input)
    fun rule hrule => hlib.string_offers rule (Option.some.inj hrule).symm

theorem number : Renders lib reading .number (RulesOf (some .number)) False fun value => ∃ n, value = .num n :=
  .ofText (.base .number .nil rfl) (.of_is fun input _ => hlib.number input)
    fun rule hrule => hlib.number_offers rule (Option.some.inj hrule).symm

theorem integer :
    Renders lib reading .integer (RulesOf (some .number)) False fun value => ∃ n, value = .num n ∧ n.isWhole := by
  have hnumber : Writes lib "z.number()" (.validator lib.number) := .base .number .nil rfl
  exact .ofText (hnumber.method .int .nil rfl) (.of_is hlib.int)
    fun rule hrule => hlib.int_offers rule (Option.some.inj hrule).symm

theorem boolean : Renders lib reading .boolean (RulesOf none) False fun value => ∃ b, value = .bool b :=
  .withoutRules (.base .boolean .nil rfl) (.of_is fun input _ => hlib.boolean input)

theorem null : Renders lib reading .null (RulesOf none) False fun value => value = .null :=
  .withoutRules (.base .null .nil rfl) (.of_is fun input _ => hlib.null input)

theorem unknown : Renders lib reading .unknown (RulesOf none) (reading.absence = true) fun _ => True := by
  refine .withoutRules (.base .unknown .nil rfl) ⟨fun value _ => ?_, fun input hmissing => ?_⟩
  · rw [hlib.unknown]
    exact iff_of_true (fun hmissing => hmissing.elim) trivial
  · rw [hlib.unknown]
    exact ⟨fun h => h hmissing, fun h _ => h⟩

theorem array {text : String} (h : Writes lib text (.validator v)) :
    Renders lib reading (.array text) (RulesOf (some .list)) False
      fun value => ∃ items, value = .arr items ∧ ∀ item ∈ items, lib.accepts v (.value item) := by
  have hcall : Writes lib ("z" ++ Expr.callText "array" text) (.validator (lib.array v)) := .baseOn .array h rfl
  have htext : "z.array(" ++ text ++ ")" = "z" ++ Expr.callText "array" text := by
    apply String.toList_injective
    simp [Expr.callText]
  rw [← htext] at hcall
  exact .ofText hcall (.of_is fun input _ => hlib.array v input)
    fun rule hrule => hlib.array_offers v rule (Option.some.inj hrule).symm

end

end Renders

/-! ### Objects -/

theorem Meaning.members?_eq {Validator : Type} (members : Entries Validator) :
    members? (members.map fun member => (member.1, .validator member.2)) = some members :=
  Steps.mapM_map fun _ _ => rfl

/-- Whether an object is closed does not matter where other members are described. -/
theorem Fits.of_described {members : Entries lib.Validator} {closed closed' : Bool}
    {given : List (String × Value)} (h : Fits reading lib.accepts members (some w) closed given) :
    Fits reading lib.accepts members (some w) closed' given :=
  ⟨h.described, h.other, fun _ hnone => by cases hnone⟩

/-- The members of an object expression. -/
theorem Writes.object {texts : Entries String} {members : Entries lib.Validator}
    (h : Entries.Corresponds (fun text v => Writes lib text (.validator v)) texts members)
    (hnodup : (Entries.names members).Nodup) :
    Writes lib (Expr.object texts).text (.validator (lib.object members)) := by
  have hpairs : Entries.Corresponds (Writes lib) texts
      (members.map fun member => (member.1, Meaning.validator member.2)) := by
    rw [Entries.Corresponds, List.forall₂_map_right_iff]
    exact h
  have hrecord := record hpairs
  have hdistinct : (Entries.names
      (members.map fun member => (member.1, Meaning.validator member.2))).Nodup := by
    rw [Entries.names_map]
    exact hnodup
  rw [Entries.ofList_of_nodup hdistinct] at hrecord
  have htext : (Expr.object texts).text = "z" ++ Expr.callText "object" (recordText texts) := by
    apply String.toList_injective
    simp [Expr.object, Expr.callText, recordText]
  rw [htext]
  refine baseOn .object hrecord ?_
  rw [Library.make?, Meaning.members?_eq]
  rfl

namespace Renders

section

variable (hlib : lib.Documented reading holds)

include hlib

/-- A record accepts the objects without described members. -/
theorem record {text : String} (h : Writes lib text (.validator w)) (closed : Bool) :
    Renders lib reading (.record text) (RulesOf none) False
      (IsObject (Fits reading lib.accepts [] (some w) closed)) := by
  have hkeys : Writes lib "z.string()" (.validator lib.string) := .base .string .nil rfl
  have hcall : Writes lib _ (.validator (lib.record lib.string w)) :=
    .base .record (.cons hkeys (.cons h .nil)) rfl
  have htext : "z" ++ Expr.callText "record" (joined "," ["z.string()", text]) =
      "z.record(z.string()," ++ text ++ ")" := by
    apply String.toList_injective
    simp [Expr.callText, joined]
  rw [show Method.record.name = "record" from rfl, htext] at hcall
  refine (withoutRules hcall (.of_is fun input _ => hlib.record lib.string w input)).congr fun value _ => ?_
  refine exists_congr fun given => and_congr_right fun _ => ⟨fun heach => ?_, fun hfits name item hitem => ?_⟩
  · refine ⟨fun name v hv => ?_, ?_, fun _ hnone => by cases hnone⟩
    · simp at hv
    · rintro name item - hitem _ ⟨⟩
      exact (heach name item hitem).2
  · refine ⟨(hlib.string (.value (.str name))).mpr ⟨name, rfl⟩, ?_⟩
    exact hfits.other name item (by simp) hitem w rfl

/-- **An object expression accepts the objects whose members are as its parts say.** -/
theorem object {texts : Entries String} {members : Entries lib.Validator} {other : Option String}
    {rest : Option lib.Validator} (closed : Bool)
    (h : Entries.Corresponds (fun text v => Writes lib text (.validator v)) texts members)
    (hnodup : (Entries.names members).Nodup)
    (hother : Option.Rel (fun text v => Writes lib text (.validator v)) other rest) :
    Renders lib reading (objectExpr texts other closed) (RulesOf none) False
      (IsObject (Fits reading lib.accepts members rest closed)) := by
  have hobject := Writes.object h hnodup
  have hbare : (Expr.object texts).Bare := Expr.bare_ofText _
  cases hother with
  | none =>
      cases closed with
      | false =>
          have heq : objectExpr texts none false = Expr.object texts := by cases texts <;> rfl
          rw [heq]
          exact ⟨hbare, _, hobject, .of_is fun input _ => hlib.object members input, fun _ hnone => by cases hnone⟩
      | true =>
          have heq : objectExpr texts none true = (Expr.object texts).call ".strict()" := by
            cases texts <;> rfl
          rw [heq]
          refine ⟨hbare.call _, lib.strict (lib.object members), ?_,
            .of_is fun input _ => hlib.strict members input, fun _ hnone => by cases hnone⟩
          rw [hbare.text_call]
          exact hobject.method .strict .nil rfl
  | @some text w hw =>
      cases texts with
      | nil =>
          cases h
          exact record hlib hw closed
      | cons entry others =>
          have heq : objectExpr (entry :: others) (some text) closed =
              (Expr.object (entry :: others)).call (Expr.callText "catchall" text) := by
            show (Expr.object (entry :: others)).call (".catchall(" ++ text ++ ")") = _
            rw [Expr.callText]
            rfl
          rw [heq]
          have hmeans : lib.Means reading (lib.catchall (lib.object members) w) False
              (IsObject (Fits reading lib.accepts members (some w) closed)) := by
            refine .of_is fun input _ => (hlib.catchall members w input).trans ?_
            cases input with
            | value value =>
                exact exists_congr fun _ => and_congr_right fun _ => ⟨Fits.of_described, Fits.of_described⟩
            | _ => exact Iff.rfl
          refine ⟨hbare.call _, _, ?_, hmeans, fun _ hnone => by cases hnone⟩
          rw [hbare.text_call]
          exact hobject.methodOn .catchall hw rfl

/-! ### Branches -/

/-- A union accepts what some branch accepts; a single branch stands by itself. -/
theorem union {texts : List String} {vs : List lib.Validator} {absence : Prop} {accepts : Value → Prop}
    (h : List.Forall₂ (fun text v => Writes lib text (.validator v)) texts vs) (hne : texts ≠ [])
    (hmeans : ∀ v, (∀ input, lib.accepts v input ↔ ∃ w ∈ vs, lib.accepts w input) →
      lib.Means reading v absence accepts) :
    Renders lib reading (.union texts) (RulesOf none) absence accepts := by
  have hlist : Writes lib ("[" ++ joined "," texts ++ "]") (.list (vs.map .validator)) := by
    apply Writes.list
    rw [List.forall₂_map_right_iff]
    exact h
  have hvalidators : (vs.map Meaning.validator).mapM Meaning.validator? = some vs :=
    Steps.mapM_map fun _ _ => rfl
  cases h with
  | nil => exact absurd rfl hne
  | @cons text v rest others hfirst hrest =>
      cases hrest with
      | nil => exact withoutRules hfirst (hmeans v fun input => by simp)
      | @cons text' v' rest others hsecond hrest =>
          have hcall : Writes lib
              ("z" ++ Expr.callText "union" ("[" ++ joined "," (text :: text' :: rest) ++ "]"))
              (.validator (lib.union (v :: v' :: others))) := by
            refine .baseOn .union hlist ?_
            rw [Library.make?, hvalidators]
            rfl
          have htext : "z" ++ Expr.callText "union" ("[" ++ joined "," (text :: text' :: rest) ++ "]") =
              "z.union([" ++ joined "," (text :: text' :: rest) ++ "])" := by
            apply String.toList_injective
            simp [Expr.callText]
          rw [htext] at hcall
          exact withoutRules hcall (hmeans _ fun input => hlib.union _ input)

/-- Each further branch narrows what the branches before it accept. -/
theorem all_of {text : String} {texts : List String} {vs : List lib.Validator}
    (h : Writes lib text (.validator v))
    (hothers : List.Forall₂ (fun text v => Writes lib text (.validator v)) texts vs) :
    ∃ w, Writes lib (texts.foldl (fun text branch => text ++ ".and(" ++ branch ++ ")") text) (.validator w) ∧
      ∀ input, lib.accepts w input ↔ lib.accepts v input ∧ ∀ u ∈ vs, lib.accepts u input := by
  induction hothers generalizing text v with
  | nil => exact ⟨v, h, by simp⟩
  | @cons branch u rest others hfirst hrest ih =>
      have hboth : Writes lib _ (.validator (lib.and v u)) := h.methodOn .and hfirst rfl
      have htext : text ++ Expr.callText Method.and.name branch = text ++ ".and(" ++ branch ++ ")" := by
        apply String.toList_injective
        simp [Expr.callText, Method.name]
      rw [htext] at hboth
      obtain ⟨w, hw, haccepts⟩ := ih hboth
      refine ⟨w, hw, fun input => ?_⟩
      rw [haccepts, hlib.and, List.forall_mem_cons, and_assoc]

/-- An intersection accepts what every branch accepts. -/
theorem intersection {texts : List String} {vs : List lib.Validator} {absence : Prop} {accepts : Value → Prop}
    (h : List.Forall₂ (fun text v => Writes lib text (.validator v)) texts vs) (hne : texts ≠ [])
    (hmeans : ∀ v, (∀ input, lib.accepts v input ↔ ∀ w ∈ vs, lib.accepts w input) →
      lib.Means reading v absence accepts) :
    Renders lib reading (.intersection texts) (RulesOf none) absence accepts := by
  cases h with
  | nil => exact absurd rfl hne
  | @cons text v rest others hfirst hrest =>
      obtain ⟨w, hw, haccepts⟩ := all_of hlib hfirst hrest
      refine withoutRules hw (hmeans w fun input => ?_)
      rw [haccepts, List.forall_mem_cons]

end

/-! ### Literals -/

/-- Literals that are texts come from a list of texts. -/
theorem exists_strings {values : List Literal} (htexts : values.all Literal.isText) :
    ∃ strings : List String, values = strings.map .str := by
  have heach : ∀ l ∈ values, ∃ s, l = .str s := by
    intro l hl
    have htext := List.all_eq_true.mp htexts l hl
    cases l with
    | str s => exact ⟨s, rfl⟩
    | _ => cases htext
  obtain ⟨strings, hstrings⟩ := Steps.exists_results heach
  refine ⟨strings, ?_⟩
  rw [← List.forall₂_eq_eq_eq, List.forall₂_map_right_iff]
  exact hstrings

theorem same_str {s : String} {value : Value} :
    (Literal.str s).toValue.Same value ↔ value = .str s := by
  cases value <;> simp [Literal.toValue, Value.Same, eq_comm]

section

variable (hlib : lib.Documented reading holds)

include hlib

/-- Texts alone are written as an enumeration of them. -/
theorem texts {strings : List String} :
    Renders lib reading (.ofText ("z.enum([" ++ joined "," ((strings.map .str).map Literal.text) ++ "])"))
      (RulesOf none) False fun value => ∃ s ∈ strings, value = .str s := by
  have hlist : Writes lib ("[" ++ joined "," ((strings.map .str).map Literal.text) ++ "]")
      (.list (strings.map fun s => .primitive (.text s))) := by
    apply Writes.list
    rw [List.forall₂_map_left_iff, List.forall₂_map_left_iff, List.forall₂_map_right_iff, List.forall₂_same]
    intro s _
    exact Writes.quoted s
  have hread : (strings.map fun s => (Meaning.primitive (.text s) : Meaning lib.Validator)).mapM Meaning.text? =
      some strings :=
    Steps.mapM_map fun _ _ => rfl
  generalize (strings.map Literal.str).map Literal.text = written at hlist ⊢
  have hcall : Writes lib ("z" ++ Expr.callText "enum" ("[" ++ joined "," written ++ "]"))
      (.validator (lib.enum strings)) := by
    refine .baseOn .enum hlist ?_
    rw [Library.make?, hread]
    rfl
  have htext : "z" ++ Expr.callText "enum" ("[" ++ joined "," written ++ "]") =
      "z.enum([" ++ joined "," written ++ "])" := by
    apply String.toList_injective
    simp [Expr.callText]
  rw [htext] at hcall
  exact withoutRules hcall (.of_is fun input _ => hlib.enum strings input)

/-- The validator of a literal. -/
theorem literal_of (l : Literal) (hl : l.toValue.EachNumber reading.IsNumber) :
    ∃ v, Writes lib ("z.literal(" ++ l.text ++ ")") (.validator v) ∧
      lib.Means reading v False fun value => l.toValue.Same value := by
  obtain ⟨p, hp, hliteral⟩ := Writes.literal lib l
  obtain ⟨stated, hstated, hsame⟩ := reading.same_of_literal? hliteral hl
  have htext : "z.literal(" ++ l.text ++ ")" = "z" ++ Expr.callText "literal" l.text := by
    apply String.toList_injective
    simp [Expr.callText]
  rw [htext]
  refine ⟨lib.literal p, .baseOn .literal hp rfl, ?_⟩
  exact (Library.Means.of_is (hlib.literal p stated hstated)).congr fun value _ => hsame value

/-- A closed set accepts what equals one of its literals. -/
theorem enumeration {values : List Literal} (hne : values ≠ [])
    (hvalues : ∀ l ∈ values, l.toValue.EachNumber reading.IsNumber) :
    Renders lib reading (.enumeration values) (RulesOf none) False
      fun value => ∃ literal ∈ values, literal.toValue.Same value := by
  unfold Expr.enumeration
  by_cases htexts : values.all Literal.isText
  · rw [if_pos htexts]
    obtain ⟨strings, rfl⟩ := exists_strings htexts
    refine (texts hlib).congr fun value _ => ?_
    simp only [List.mem_map, exists_exists_and_eq_and, same_str]
  · rw [if_neg htexts]
    obtain ⟨vs, hvs⟩ := Steps.exists_results fun l hl => literal_of hlib l (hvalues l hl)
    have hwrites : List.Forall₂ (fun text v => Writes lib text (.validator v))
        (values.map fun value => "z.literal(" ++ value.text ++ ")") vs := by
      rw [List.forall₂_map_left_iff]
      exact hvs.imp fun _ _ h => h.1
    refine union hlib hwrites (by simpa using hne) fun v hv => ⟨fun value hvalue => ?_, fun input hmissing => ?_⟩
    · rw [hv]
      exact Steps.exists_mem_iff hvs fun l w hw => hw.2.values value hvalue
    · rw [hv, Steps.exists_mem_iff hvs (p := fun _ => False) fun l w hw => hw.2.missing input hmissing]
      simp

end

end Renders

end ZodRoutes.Zod
