/-
What the text of an expression says.

The text of a tree is read in one way only, as a term of the grammar.  What that term accepts in a script is
what the tree accepts, with three things to be said about it.  A member must be there when it is required and
its schema does not accept everything, since what accepts everything accepts absence.  Numbers are binary64
numbers, in the tree and in the values.  And the tree must suit the reading: a member named `__proto__` is none,
something is inherited under some names, only the last of two bounds on the same end of a list counts, and a
source must be one of a regular expression.  Each of these is needed, as the examples at the end show.

Nothing of the kind matters for two trees with the same text.  They accept the same values.
-/
import ZodRoutes.Proofs.Zod.Faithful

namespace ZodRoutes.Zod

open Json (Value)
open Schema (Kind Node Rule)

variable {lib : Library} {holds : Rule → Value → Prop}

theorem waives_script : Reading.script.waives = Node.acceptsAbsence := by
  funext node
  exact Bool.true_and _

/-- Trees with the same text accept the same values. -/
theorem accepts_congr {node node' : Node} {text : String} (h : expression node = .ok text)
    (h' : expression node' = .ok text) {value : Value} : node'.Accepts holds value ↔ node.Accepts holds value := by
  have hread : ∀ node, expression node = .ok text → ∃ v, Writes (.plain holds) text (.validator v) ∧
      ∀ value, (Library.plain holds).accepts v (.value value) ↔ node.Accepts holds value := by
    intro node h
    obtain ⟨e, he, htext⟩ := Steps.bind_eq_ok.mp h
    rw [Steps.pure_eq_ok] at htext
    subst htext
    obtain ⟨-, v, hv, hmeans⟩ := faithful_plain holds he
    exact ⟨v, hv, fun value => hmeans.values value (.of_forall (fun _ => trivial) value)⟩
  obtain ⟨v, ⟨term, htext, hv⟩, haccepts⟩ := hread node h
  obtain ⟨v', ⟨term', htext', hv'⟩, haccepts'⟩ := hread node' h'
  have hsame : term' = term := Term.text_injective (htext'.trans htext.symm)
  rw [hsame, hv] at hv'
  cases hv'
  rw [← haccepts, ← haccepts']

/-- **The text of a tree is read in one way only, and what is read accepts in a script what the tree accepts**,
required members apart whose schemas accept everything.  Two trees with the same text accept the same values. -/
theorem expression_faithful {node : Node} {text : String} (h : expression node = .ok text) :
    (∃ term : Term, term.text = text ∧ (∀ other : Term, other.text = text → other = term) ∧
      ∀ (lib : Library) (holds : Rule → Value → Prop), lib.Documented .script holds →
        node.Everywhere (Reading.script.Suits lib.compiles) →
        ∃ v, term.denote? lib = some (.validator v) ∧
          ∀ value, value.EachNumber Json.Number.IsBinary64 →
            (lib.accepts v (.value value) ↔ (node.relaxed Node.acceptsAbsence).Accepts holds value)) ∧
    ∀ node', expression node' = .ok text →
      ∀ holds value, node'.Accepts holds value ↔ node.Accepts holds value := by
  obtain ⟨e, he, htext⟩ := Steps.bind_eq_ok.mp h
  rw [Steps.pure_eq_ok] at htext
  subst htext
  obtain ⟨-, -, ⟨term, htext, -⟩, -⟩ := faithful_plain (fun _ _ => True) he
  have honly : ∀ other : Term, other.text = e.text → other = term := by
    intro other hother
    exact Term.text_injective (hother.trans htext.symm)
  refine ⟨⟨term, htext, honly, fun lib holds hlib hsuits => ?_⟩, fun node' h' holds value => accepts_congr h h'⟩
  obtain ⟨-, v, ⟨other, hother, hv⟩, hmeans⟩ := faithful hlib node hsuits .root e he
  rw [honly other hother] at hv
  rw [Reading.Accepts, waives_script] at hmeans
  exact ⟨v, hv, hmeans.values⟩

/-- A closed object with a member that may be null, one that may be anything and an optional closed set. -/
def entryNode (required : List String) : Node :=
  (Kind.object [("a b", ⟨.string, [.minLength 1, .pattern "^a"], true⟩), ("id", Kind.any.plain),
    ("tag", (Kind.enumeration [.num (.int 1), .str "x"]).plain)] required none true).plain

/-- Its expression where two of the members are required. -/
def entryText : String :=
  "z.object(\x7b\"a b\":z.string().min(1).regex(new RegExp(\"^a\")).nullable(),id:z.unknown()," ++
    "tag:z.union([z.literal(1),z.literal(\"x\")]).optional()\x7d).strict()"

/-- Of the two required members, the one that may be anything may be absent. -/
theorem expression_faithful_entry :
    expression (entryNode ["a b", "id"]) = .ok entryText ∧
      ∃ term : Term, term.text = entryText ∧ (∀ other : Term, other.text = entryText → other = term) ∧
        ∀ holds, ∃ v, term.denote? (.model .script (fun source => source != "(") holds) = some (.validator v) ∧
          ∀ value, value.EachNumber Json.Number.IsBinary64 →
            ((Library.model .script (fun source => source != "(") holds).accepts v (.value value) ↔
              (entryNode ["a b"]).Accepts holds value) := by
  have h : expression (entryNode ["a b", "id"]) = .ok entryText := by
    rfl
  have hone : Json.Number.IsBinary64 (.int 1) := ⟨.ofInt 1, by decide +kernel⟩
  obtain ⟨⟨term, htext, honly, hmeans⟩, -⟩ := expression_faithful h
  refine ⟨h, term, htext, honly, fun holds => hmeans _ holds (Library.model_documented _ _ holds) ?_⟩
  refine .intro ⟨by simp [Reading.SuitsKind, entryNode, Kind.plain, Reading.script, inheritedNames],
    by simp [entryNode, Kind.plain], by simp [entryNode, Kind.plain]⟩ ?_
  simp only [entryNode, Kind.plain, Kind.children, List.map_cons, List.map_nil, Option.toList_none, List.append_nil,
    List.forall_mem_cons]
  refine ⟨.intro ⟨trivial, ?_, by simp [Reading.drops, sameEnd]⟩ (by simp [Kind.children]),
    .intro ⟨trivial, by simp, by simp⟩ (by simp [Kind.children]),
    .intro ⟨?_, by simp, by simp⟩ (by simp [Kind.children]), by simp⟩
  · intro source hsource
    obtain rfl : source = "^a" := by simpa using hsource
    rfl
  · simp only [Reading.SuitsKind, List.forall_mem_cons, Schema.Literal.toValue]
    exact ⟨.num hone, .str, by simp⟩

/-! ### What scripts make different -/

/-- The expression of the node and the node disagree about the value. -/
def Disagree (lib : Library) (holds : Rule → Value → Prop) (node : Node) (value : Value) : Prop :=
  ∃ text v, expression node = .ok text ∧ Writes lib text (.validator v) ∧
    ¬ (lib.accepts v (.value value) ↔ node.Accepts holds value)

/-- The expression of an object with one property. -/
theorem writes_property {name text : String} {v : lib.Validator} (h : Writes lib text (.validator v)) :
    Writes lib (Expr.object [(name, text)]).text (.validator (lib.object [(name, v)])) :=
  .object (.cons ⟨rfl, h⟩ .nil) (by simp)

/-- An object with one property accepts an empty value where the name need not be there. -/
theorem accepts_empty_iff {name : String} {node : Node} {required : List String} :
    (Kind.object [(name, node)] required none false).plain.Accepts holds (.obj []) ↔ name ∉ required := by
  rw [Node.accepts_iff, Kind.plain, Kind.accepts_object]
  constructor
  · rintro (⟨hnull, -⟩ | ⟨⟨members, hmembers, hfit⟩, -⟩)
    · cases hnull
    · cases hmembers
      intro hname
      simpa using hfit.present name hname (by simp [Entries.ofList, Entries.insert])
  · intro hname
    refine .inr ⟨⟨[], rfl, fun other hother hproperty => ?_, by simp, by simp, by simp⟩, by simp⟩
    have hsame : other = name := by simpa [Entries.ofList, Entries.insert] using hproperty
    exact absurd (hsame ▸ hother) hname

section

variable (hlib : lib.Documented .script holds)

include hlib

/-- A validator of an object with one member accepts an empty object where the member accepts what is missing. -/
theorem accepts_object_empty_iff {name : String} {v : lib.Validator} :
    lib.accepts (lib.object [(name, v)]) (.value (.obj [])) ↔
      (Reading.script.isMember name → lib.accepts v (Reading.script.missing name)) := by
  refine (hlib.object _ _).trans ⟨?_, fun h => ⟨[], rfl, fun other w hw hmember => ?_, by simp, by simp⟩⟩
  · rintro ⟨members, hmembers, hfits⟩ hmember
    cases hmembers
    exact hfits.described name v (by simp [Entries.get?_cons]) hmember
  · rw [Entries.get?_cons] at hw
    by_cases hname : other = name
    · subst hname
      rw [if_pos rfl] at hw
      cases hw
      exact h hmember
    · rw [if_neg hname] at hw
      cases hw

/-- A required member without a type may be absent. -/
theorem disagree_untyped :
    Disagree lib holds (Kind.object [("k", Kind.any.plain)] ["k"] none false).plain (.obj []) := by
  have hwrites : Writes lib "z.unknown()" (.validator lib.unknown) := .base .unknown .nil rfl
  refine ⟨_, _, rfl, writes_property hwrites, ?_⟩
  rw [accepts_object_empty_iff hlib, accepts_empty_iff, hlib.unknown]
  simp [Reading.script]

/-- A required member named `__proto__` may be absent. -/
theorem disagree_proto :
    Disagree lib holds (Kind.object [("__proto__", Kind.string.plain)] ["__proto__"] none false).plain (.obj []) := by
  have hwrites : Writes lib "z.string()" (.validator lib.string) := .base .string .nil rfl
  refine ⟨_, _, rfl, writes_property hwrites, ?_⟩
  rw [accepts_object_empty_iff hlib, accepts_empty_iff]
  simp [Reading.script]

/-- An optional member must be there when something else is inherited under its name. -/
theorem disagree_inherited :
    Disagree lib holds (Kind.object [("toString", Kind.string.plain)] [] none false).plain (.obj []) := by
  have hwrites : Writes lib "z.string()" (.validator lib.string) := .base .string .nil rfl
  have hoptional : Writes lib "z.string().optional()" (.validator (lib.optional lib.string)) :=
    hwrites.method .optional .nil rfl
  refine ⟨_, _, rfl, writes_property hoptional, ?_⟩
  have hmissing : Reading.script.missing "toString" = .inherited := rfl
  rw [accepts_object_empty_iff hlib, accepts_empty_iff, hmissing, hlib.optional, hlib.string]
  simp [Reading.script, Input.Is]

/-- A literal that is no binary64 number accepts the nearest one. -/
theorem disagree_rounded :
    Disagree lib holds (Kind.enumeration [.num (.int 9007199254740993)]).plain (.num (.int 9007199254740992)) := by
  let numeral : Decimal.Numeral := ⟨none, Decimal.Digits.text 9007199254740993, none, none⟩
  have hnumeral : Writes lib "9007199254740993" (.primitive (.number numeral)) :=
    .numeral ⟨.inl rfl, Decimal.isRow_text 9007199254740993, by simp [numeral], by simp [numeral]⟩ (by decide +kernel)
  have hliteral : Writes lib ("z" ++ Expr.callText "literal" "9007199254740993")
      (.validator (lib.literal (.number numeral))) := .baseOn .literal hnumeral rfl
  have hrounded : numeral.toDouble? = some (.ofInt 9007199254740992) := by decide +kernel
  have hexact : (Json.Number.real (.ofInt 9007199254740992)).exact =
      (Json.Number.int 9007199254740992).exact := by decide +kernel
  have hstands : Reading.script.primitive? (.number numeral) = some (.num (.real (.ofInt 9007199254740992))) := by
    show (numeral.toDouble?.map Json.Number.real).map Value.num = _
    rw [hrounded]
    rfl
  refine ⟨_, _, rfl, hliteral, ?_⟩
  rw [hlib.literal _ _ hstands (.value _) (.num ⟨_, hexact⟩), Node.accepts_iff, Kind.plain, Kind.accepts_enumeration]
  intro hiff
  rcases hiff.mp hexact with ⟨hnull, -⟩ | ⟨⟨literal, hliteral, hsame⟩, -⟩
  · cases hnull
  · rw [List.mem_singleton.mp hliteral] at hsame
    have hne : (Json.Number.int 9007199254740993).exact ≠ (Json.Number.int 9007199254740992).exact := by
      decide +kernel
    exact hne hsame

/-- The later of two bounds on the same end counts alone. -/
theorem disagree_bounds (hfew : ¬ holds (.minItems 2) (.arr [.null])) (hone : holds (.minItems 1) (.arr [.null])) :
    Disagree lib holds ⟨.array Kind.any.plain, [.minItems 2, .minItems 1], false⟩ (.arr [.null]) := by
  have hunknown : Writes lib "z.unknown()" (.validator lib.unknown) := .base .unknown .nil rfl
  have harray : Writes lib ("z" ++ Expr.callText "array" "z.unknown()") (.validator (lib.array lib.unknown)) :=
    .baseOn .array hunknown rfl
  obtain ⟨call, hstates, hfirst⟩ := harray.rule (r := .minItems 2) (by simp)
  obtain ⟨call', hstates', hsecond⟩ := hfirst.rule (r := .minItems 1) (by simp)
  have hoffers : ∀ n, lib.offers (lib.array lib.unknown) (.minItems n) := fun n => hlib.array_offers _ _ rfl
  refine ⟨_, _, rfl, hsecond, ?_⟩
  rw [hlib.restrict_replaces _ call _ (hoffers 2) hstates call' _ hstates' rfl,
    hlib.restrict _ call' _ (hoffers 1) hstates', hlib.array, Node.accepts_iff]
  intro hiff
  have hitems : ∀ item ∈ [Value.null], lib.accepts lib.unknown (.value item) :=
    fun item _ => (hlib.unknown _).mpr fun hmissing => hmissing.elim
  rcases hiff.mp ⟨⟨_, rfl, hitems⟩, hone⟩ with ⟨hnull, -⟩ | ⟨-, hrules⟩
  · cases hnull
  · exact hfew (hrules _ (by simp))

end

/-- An expression with a regular expression that cannot be made stands for nothing. -/
theorem not_writes_pattern {source : String} (h : lib.compiles source = false) :
    ∃ text, expression ⟨.string, [.pattern source], false⟩ = .ok text ∧ ∀ d, ¬ Writes lib text d := by
  let term : Term := .chain ([(Method.string.word, [])] ++ [(Method.regex.word, [.pattern (.ofString source)])])
  have htext : expression ⟨.string, [.pattern source], false⟩ = .ok term.text := by
    refine congrArg Except.ok (String.toList_injective ?_)
    simp [term, Term.text, Expr.text, Expr.nullable, Expr.rule, Expr.call, Expr.string, Expr.ofText, Expr.ruleCall,
      Term.callText, Expr.callText, Method.word, Method.name, Text.joined]
  have hitems : Term.denoteItems? lib [.pattern (.ofString source)] = none := by
    have hsource : String.ofList (StringWord.ofString source).value = source := String.ofList_toList
    simp [Term.denoteItems?, Term.denote?, hsource, h]
  have hnone : term.denote? lib = none := by
    rw [Term.denote?, Term.denoteCalls?_concat, hitems]
    simp
  refine ⟨_, htext, ?_⟩
  rintro d ⟨other, hother, hd⟩
  rw [Term.text_injective hother, hnone] at hd
  cases hd

/-- Lists are as long as is asked; no other rule asks for anything. -/
def LongEnough : Rule → Value → Prop
  | .minItems n, .arr items => n ≤ items.length
  | _, _ => True

/-- The model for scripts in which lists are as long as is asked. -/
abbrev Library.counting : Library :=
  .model .script (fun source => source != "(") LongEnough

/-- **In scripts, expressions and their trees can disagree**, in each of these ways. -/
theorem expression_not_faithful :
    Library.counting.Documented .script LongEnough ∧
      Disagree .counting LongEnough (Kind.object [("k", Kind.any.plain)] ["k"] none false).plain (.obj []) ∧
      Disagree .counting LongEnough
        (Kind.object [("__proto__", Kind.string.plain)] ["__proto__"] none false).plain (.obj []) ∧
      Disagree .counting LongEnough (Kind.object [("toString", Kind.string.plain)] [] none false).plain (.obj []) ∧
      Disagree .counting LongEnough (Kind.enumeration [.num (.int 9007199254740993)]).plain
        (.num (.int 9007199254740992)) ∧
      Disagree .counting LongEnough ⟨.array Kind.any.plain, [.minItems 2, .minItems 1], false⟩ (.arr [.null]) ∧
      ∃ text, expression ⟨.string, [.pattern "("], false⟩ = .ok text ∧ ∀ d, ¬ Writes .counting text d := by
  have hlib : Library.counting.Documented .script LongEnough := Library.model_documented _ _ _
  have hfew : ¬ LongEnough (.minItems 2) (.arr [.null]) := by
    show ¬ 2 ≤ 1
    decide
  have hone : LongEnough (.minItems 1) (.arr [.null]) := Nat.le_refl 1
  exact ⟨hlib, disagree_untyped hlib, disagree_proto hlib, disagree_inherited hlib, disagree_rounded hlib,
    disagree_bounds hlib hfew hone, not_writes_pattern rfl⟩

end ZodRoutes.Zod
