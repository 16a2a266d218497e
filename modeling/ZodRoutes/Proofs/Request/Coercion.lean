/-
Query values that are turned into numbers.

Whether a value is turned into a number first is asked of the tree alone: the kind is numeric, or it is an
intersection with a numeric branch, at any depth.  The answer is sound, by induction on the tree: what an
intersection accepts every branch accepts, so a numeric tree accepts numbers and nothing else but null, whatever its
rules and wherever null is accepted beside them.

What is written around the text of a schema is told apart by the end of the text: neither the text of a schema nor
the call that turns its values into numbers ends as the call does that makes a parameter optional.
-/
import ZodRoutes.Proofs.Zod.LastCall
import ZodRoutes.Request.Parameter

namespace ZodRoutes

open Json (Value)
open Schema (Kind Node)
open Zod (Expr mapNode)

/-! ### Numeric trees -/

namespace Schema.Node

variable {node : Node} {holds : Rule → Value → Prop} {value : Value}

theorem anyNumeric_iff {nodes : List Node} : anyNumeric nodes ↔ ∃ node ∈ nodes, node.isNumeric := by
  induction nodes with
  | nil => simp [anyNumeric]
  | cons first rest ih => simp [anyNumeric, ih]

/-- A tree is numeric when its kind is, or when it is an intersection with a numeric branch. -/
theorem isNumeric_iff : node.isNumeric ↔ node.kind = .number ∨ node.kind = .integer ∨
    ∃ branches, node.kind = .intersection branches ∧ ∃ branch ∈ branches, branch.isNumeric := by
  obtain ⟨kind, rules, nullable⟩ := node
  cases kind with
  | intersection branches => simp [isNumeric, anyNumeric_iff]
  | _ => simp [isNumeric, Kind.isNumeric]

/-- **A numeric tree accepts numbers alone, and null.** -/
theorem null_or_number (h : node.isNumeric) (haccepts : node.Accepts holds value) :
    value = .null ∨ ∃ n, value = .num n := by
  induction node using Node.induction generalizing value with
  | step node ih =>
      rcases accepts_iff.mp haccepts with ⟨-, hnull⟩ | ⟨hkind, -⟩
      · exact .inl hnull
      · rcases isNumeric_iff.mp h with hnumber | hinteger | ⟨branches, hbranches, branch, hmem, hnumeric⟩
        · rw [hnumber, Kind.accepts_number] at hkind
          exact .inr hkind
        · rw [hinteger, Kind.accepts_integer] at hkind
          obtain ⟨n, hvalue, -⟩ := hkind
          exact .inr ⟨n, hvalue⟩
        · rw [hbranches, Kind.accepts_intersection] at hkind
          have hchild : branch ∈ node.kind.children := by
            rw [hbranches]
            exact hmem
          exact ih branch hchild hnumeric (hkind branch hmem)

end Schema.Node

/-! ### Expressions of parameters -/

namespace Request

/-- The expression of a parameter depends on three things: the text of its schema, whether values are turned into
numbers, and whether it must be there. -/
theorem Parameter.expression_eq {p : Parameter} {e : Expr} (h : mapNode p.schema .root = .ok e) :
    p.expression = .ok ((if p.needsCoercion then (Expr.coercion Expr.string.text e.text).text else e.text) ++
      if !p.required then ".optional()" else "") := by
  have hpresent : e.isOptional = false := (Zod.faithful_plain (fun _ _ => True) h).1
  unfold expression expressionOf
  rw [h]
  show Except.ok _ = Except.ok _
  split
  · rw [Expr.text_optional rfl]
  · rw [Expr.text_optional hpresent]

/-- A parameter has an expression where its schema has one. -/
theorem Parameter.expression_eq_ok {p : Parameter} {text : String} (h : p.expression = .ok text) :
    ∃ e, mapNode p.schema .root = .ok e ∧ text =
      (if p.needsCoercion then (Expr.coercion Expr.string.text e.text).text else e.text) ++
        if !p.required then ".optional()" else "" := by
  cases hmapped : mapNode p.schema .root with
  | ok e =>
      rw [expression_eq hmapped, Except.ok.injEq] at h
      exact ⟨e, rfl, h.symm⟩
  | error source =>
      rw [expression, hmapped] at h
      cases h

/-- Values of text that are turned into numbers first. -/
theorem coercion_string_text (target : String) :
    (Expr.coercion Expr.string.text target).text = "z.string().transform(Number).pipe(" ++ target ++ ")" := by
  rw [Expr.coercion, Expr.text_ofText]
  rfl

/-- Turning values into numbers first shows in the text. -/
theorem coercion_text_ne (source target : String) : (Expr.coercion source target).text ≠ target := by
  intro heq
  have hlength := congrArg String.length heq
  simp only [Expr.coercion, Expr.text_ofText, String.length_append] at hlength
  have hpositive : 0 < ")".length := by decide
  omega

/-- Values are turned into numbers in the query, where the schema is numeric. -/
theorem Parameter.needsCoercion_iff {p : Parameter} :
    p.needsCoercion ↔ p.location = .query ∧ p.schema.isNumeric := by
  have htextual : p.location.isTextual ↔ p.location = .query := by
    cases p.location <;> decide
  rw [needsCoercion, Bool.and_eq_true, htextual]

/-- **When query values are turned into numbers, and that only numbers are checked then.**  The expression of a
parameter is the text of its schema, piped through a conversion in the query where the schema is numeric, and the
call that makes it optional comes last, once, and only where the parameter may be absent.  What a numeric schema
accepts are numbers and null, so no schema that accepts another value is piped. -/
theorem expression_coerces :
    (∀ (p : Parameter) (text : String), Zod.expression p.schema = .ok text → ∃ whole,
      p.expression = .ok (whole ++ if p.required then "" else ".optional()") ∧
      (∀ front, whole ≠ front ++ ".optional()") ∧
      (p.location = .query ∧ p.schema.isNumeric →
        whole = "z.string().transform(Number).pipe(" ++ text ++ ")") ∧
      (¬ (p.location = .query ∧ p.schema.isNumeric) → whole = text) ∧
      (whole ≠ text → ∀ holds value, p.schema.Accepts holds value → value = .null ∨ ∃ n, value = .num n)) ∧
    ∀ node : Node, node.isNumeric → ∀ holds value, node.Accepts holds value →
      value = .null ∨ ∃ n, value = .num n := by
  refine ⟨fun p text h => ?_, fun node hnumeric holds value haccepts => Node.null_or_number hnumeric haccepts⟩
  obtain ⟨e, he, htext⟩ := Steps.bind_eq_ok.mp h
  rw [Steps.pure_eq_ok] at htext
  subst htext
  have hwhole := Parameter.expression_eq he
  have hmark : (if !p.required then ".optional()" else "") = if p.required then "" else ".optional()" := by
    cases p.required <;> rfl
  rw [hmark] at hwhole
  refine ⟨_, hwhole, ?_⟩
  by_cases hcoerced : p.needsCoercion
  · rw [if_pos hcoerced, coercion_string_text]
    have hcase := Parameter.needsCoercion_iff.mp hcoerced
    refine ⟨fun front heq => ?_, fun _ => rfl, fun hplain => absurd hcase hplain, fun _ holds value haccepts => ?_⟩
    · obtain ⟨term, hterm⟩ := Zod.exists_term_of_mapNode he
      have hpiped := term.endsShut.append "z.string().transform(Number).pipe("
      have hbrackets : front ++ ".optional" ++ "()" = front ++ ".optional()" := by
        rw [String.append_assoc]
        rfl
      rw [hterm] at hpiped
      exact hpiped.not_empty_brackets (front ++ ".optional") (heq.trans hbrackets.symm)
    · exact Node.null_or_number hcase.2 haccepts
  · rw [if_neg hcoerced]
    have hcase := mt Parameter.needsCoercion_iff.mpr hcoerced
    exact ⟨Zod.not_optional he, fun hboth => absurd hboth hcase, fun _ => rfl, fun hne => absurd rfl hne⟩

/-- A whole number behind two intersections, with null accepted at each level. -/
def nestedCount : Node :=
  ⟨.intersection [Kind.any.plain,
    ⟨.intersection [⟨.integer, [], true⟩, Kind.any.plain], [], true⟩], [], true⟩

theorem expression_coerces_nested :
    (⟨"count", .query, false, nestedCount⟩ : Parameter).expression =
        .ok ("z.string().transform(Number).pipe(" ++
          "z.unknown().and(z.number().int().nullable().and(z.unknown()).nullable()).nullable()" ++ ")" ++
          ".optional()") ∧
      ∀ holds value, nestedCount.Accepts holds value → value = .null ∨ ∃ n, value = .num n := by
  have htext : Zod.expression nestedCount = .ok
      "z.unknown().and(z.number().int().nullable().and(z.unknown()).nullable()).nullable()" := rfl
  have hnumeric : nestedCount.isNumeric := rfl
  obtain ⟨whole, hwhole, -, hpiped, -, -⟩ :=
    expression_coerces.1 ⟨"count", .query, false, nestedCount⟩ _ htext
  refine ⟨?_, expression_coerces.2 nestedCount hnumeric⟩
  rw [hwhole, hpiped ⟨rfl, hnumeric⟩]
  rfl

end Request

end ZodRoutes
