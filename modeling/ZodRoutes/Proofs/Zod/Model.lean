/-
A library that does what is documented.

A validator keeps what it was made from: what its base accepts, the sort of values that its rules are about, the
rules, and its members when it is an object.  A rule that the reading lets replace an earlier one takes its
place.  So the laws of the library can be met, in every reading and for all rules.
-/
import ZodRoutes.Proofs.Zod.Library

namespace ZodRoutes.Zod

open Json (Value)
open Schema (Rule Subject)

/-- A validator by what it was made from. -/
structure Model where
  base : Input → Prop
  subject? : Option Subject
  rules : List Rule
  members : List (String × Model)

namespace Model

variable (reading : Reading) (holds : Rule → Value → Prop)

/-- A validator without rules and members. -/
def ofBase (subject? : Option Subject) (base : Input → Prop) : Model :=
  ⟨base, subject?, [], []⟩

/-- What the base accepts and all rules allow. -/
def accepts (v : Model) (input : Input) : Prop :=
  v.base input ∧ ∀ rule ∈ v.rules, input.Allowed (holds rule)

@[simp] theorem accepts_ofBase {subject? : Option Subject} {base : Input → Prop} {input : Input} :
    (ofBase subject? base).accepts holds input ↔ base input := by
  simp [ofBase, accepts]

/-- A rule about such values that replaces no rule. -/
def offers (v : Model) (rule : Rule) : Prop :=
  v.subject? = some rule.subject ∧ ∀ earlier ∈ v.rules, reading.drops earlier rule = false

theorem offers_ofBase {subject : Subject} {base : Input → Prop} {rule : Rule} (h : rule.subject = subject) :
    (ofBase (some subject) base).offers reading rule :=
  ⟨congrArg some h.symm, by rintro _ ⟨⟩⟩

/-- One more rule, the rules that it replaces taken out. -/
def withRule (v : Model) (rule : Rule) : Model :=
  { v with rules := (v.rules.filter fun earlier => !reading.drops earlier rule) ++ [rule] }

/-- The call of a rule. -/
def restrict (v : Model) (call : RuleCall) : Model :=
  match v.subject?.bind fun subject => call.rule? subject with
  | some rule => v.withRule reading rule
  | none => v

/-- An object with these members. -/
def object (members : Entries Model) (rest : Option Model) (closed : Bool) : Model where
  base := Input.Is (IsObject (Fits reading (accepts holds) members rest closed))
  subject? := none
  rules := []
  members := members

theorem restrict_of_states {v : Model} {call : RuleCall} {rule : Rule} (hsubject : v.subject? = some rule.subject)
    (hstates : call.States rule) : v.restrict reading call = v.withRule reading rule := by
  have hrule : (v.subject?.bind fun subject => call.rule? subject) = some rule := by
    rw [hsubject]
    exact hstates
  rw [restrict, hrule]

theorem withRule_of_offers {v : Model} {rule : Rule} (h : v.offers reading rule) :
    v.withRule reading rule = { v with rules := v.rules ++ [rule] } := by
  rw [withRule, List.filter_eq_self.mpr fun earlier hearlier => by simp [h.2 earlier hearlier]]

/-- A rule that is replaced leaves nothing behind. -/
theorem withRule_withRule {v : Model} {rule later : Rule} (h : v.offers reading rule)
    (hdrops : reading.drops rule later) :
    (v.withRule reading rule).withRule reading later = v.withRule reading later := by
  rw [withRule_of_offers reading h]
  simp [withRule, hdrops]

end Model

/-- Rules that replace each other are about values of one sort. -/
theorem Reading.subject_of_drops {reading : Reading} {rule later : Rule} (h : reading.drops rule later) :
    later.subject = rule.subject := by
  unfold drops sameEnd at h
  rw [Bool.and_eq_true] at h
  obtain ⟨-, hsame⟩ := h
  split at hsame
  · rfl
  · rfl
  · cases hsame

/-- The library of the validators that keep what they were made from. -/
def Library.model (reading : Reading) (compiles : String → Bool) (holds : Rule → Value → Prop) : Library where
  Validator := Model
  accepts := Model.accepts holds
  offers := Model.offers reading
  compiles := compiles
  string := .ofBase (some .text) (Input.Is fun value => ∃ s, value = .str s)
  number := .ofBase (some .number) (Input.Is fun value => ∃ n, value = .num n)
  boolean := .ofBase none (Input.Is fun value => ∃ b, value = .bool b)
  null := .ofBase none (Input.Is fun value => value = .null)
  unknown := .ofBase none fun input => input.Missing → reading.absence
  object members := .object reading holds members none false
  record key element := .ofBase none (Input.Is (IsObject fun members =>
    ∀ name item, Entries.get? members name = some item →
      key.accepts holds (.value (.str name)) ∧ element.accepts holds (.value item)))
  array element := .ofBase (some .list) (Input.Is fun value => ∃ items, value = .arr items ∧
    ∀ item ∈ items, element.accepts holds (.value item))
  enum texts := .ofBase none (Input.Is fun value => ∃ s ∈ texts, value = .str s)
  literal primitive := .ofBase none fun input =>
    ∃ stated, reading.primitive? primitive = some stated ∧ input.Is stated.Same
  union branches := .ofBase none fun input => ∃ v ∈ branches, v.accepts holds input
  nullable v := .ofBase none fun input => input = .value .null ∨ v.accepts holds input
  optional v := .ofBase none fun input => input = .absent ∨ v.accepts holds input
  and v w := .ofBase none fun input => v.accepts holds input ∧ w.accepts holds input
  int v := { v with base := fun input => v.base input ∧ input.Is fun value => ∃ n, value = .num n ∧ n.isWhole }
  strict v := .object reading holds v.members none true
  catchall v rest := .object reading holds v.members (some rest) false
  restrict := Model.restrict reading

/-- **The model does what is documented.** -/
theorem Library.model_documented (reading : Reading) (compiles : String → Bool) (holds : Rule → Value → Prop) :
    (model reading compiles holds).Documented reading holds where
  string input := Model.accepts_ofBase holds
  number input := Model.accepts_ofBase holds
  boolean input := Model.accepts_ofBase holds
  null input := Model.accepts_ofBase holds
  unknown input := Model.accepts_ofBase holds
  object members input := and_iff_left (by rintro _ ⟨⟩)
  strict members input := and_iff_left (by rintro _ ⟨⟩)
  catchall members rest input := and_iff_left (by rintro _ ⟨⟩)
  record key element input := Model.accepts_ofBase holds
  array element input := Model.accepts_ofBase holds
  enum texts input := Model.accepts_ofBase holds
  literal primitive stated hstated input _ := by
    refine (Model.accepts_ofBase holds).trans ?_
    rw [hstated]
    simp
  union branches input := Model.accepts_ofBase holds
  nullable v input := Model.accepts_ofBase holds
  optional v input := Model.accepts_ofBase holds
  and v w input := Model.accepts_ofBase holds
  int input _ := by
    refine (and_iff_left (by rintro _ ⟨⟩)).trans (and_iff_right_of_imp fun h => ?_)
    cases input with
    | value value =>
        obtain ⟨n, hn, -⟩ := h
        exact ⟨n, hn⟩
    | _ => exact h
  string_offers rule hrule := Model.offers_ofBase reading hrule
  number_offers rule hrule := Model.offers_ofBase reading hrule
  int_offers rule hrule := ⟨congrArg some hrule.symm, by rintro _ ⟨⟩⟩
  array_offers element rule hrule := Model.offers_ofBase reading hrule
  restrict v call rule hoffers hstates input := by
    show (Model.restrict reading v call).accepts holds input ↔ _
    rw [Model.restrict_of_states reading hoffers.1 hstates, Model.withRule_of_offers reading hoffers]
    show (v.base input ∧ ∀ r ∈ v.rules ++ [rule], input.Allowed (holds r)) ↔ _
    rw [List.forall_mem_append, List.forall_mem_singleton, ← and_assoc]
    rfl
  restrict_offers v call rule hoffers hstates later hlater hkept := by
    show (Model.restrict reading v call).offers reading later
    rw [Model.restrict_of_states reading hoffers.1 hstates, Model.withRule_of_offers reading hoffers]
    refine ⟨hlater.1, List.forall_mem_append.mpr ⟨hlater.2, ?_⟩⟩
    rw [List.forall_mem_singleton]
    exact hkept
  restrict_replaces v call rule hoffers hstates call' later hstates' hdrops input := by
    have hsubject : v.subject? = some later.subject := by
      rw [Reading.subject_of_drops hdrops]
      exact hoffers.1
    show (Model.restrict reading (Model.restrict reading v call) call').accepts holds input ↔
      (Model.restrict reading v call').accepts holds input
    rw [Model.restrict_of_states reading hoffers.1 hstates, Model.restrict_of_states reading hsubject hstates',
      Model.restrict_of_states reading (v := v.withRule reading rule) hsubject hstates',
      Model.withRule_withRule reading hoffers hdrops]

end ZodRoutes.Zod
