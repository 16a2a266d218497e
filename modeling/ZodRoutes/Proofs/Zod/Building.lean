/-
Building an expression step by step.

An expression under construction takes calls and flags in any order and any number of times, and its text can be
looked at in between.  What one step adds falls into three parts that do not mix: a call behind the calls that are
there, null, and absence.  So a run of steps adds the calls of all its steps in their order, and accepts null or
absence as soon as one of its steps does; runs that agree in these three parts end in the same text, whatever came
first.  A look leaves the expression alone: what follows goes on as if nobody had looked.
-/
import ZodRoutes.Proofs.Zod.Term

namespace ZodRoutes.Zod

open Schema (Rule)

theorem joined_empty (texts : List String) : Text.joined "" texts = String.join texts := by
  apply String.toList_injective
  rw [Term.toList_joined_empty, String.toList_join]

/-! ### Steps -/

/-- A step in building an expression. -/
inductive Step
  | rule (r : Rule)
  | call (text : String)
  | nullable (accept : Bool)
  | optional (accept : Bool)

namespace Step

/-- The expression after a step. -/
def applyTo (e : Expr) : Step → Expr
  | rule r => e.rule r
  | call text => e.call text
  | nullable accept => e.nullable accept
  | optional accept => e.optional accept

/-- The call that a step chains, if it chains one. -/
def call? : Step → Option String
  | rule r => some (Expr.ruleCall r)
  | call text => some text
  | _ => none

/-- Whether null is accepted from this step on. -/
def acceptsNull : Step → Bool
  | nullable accept => accept
  | _ => false

/-- Whether absence is accepted from this step on. -/
def acceptsAbsence : Step → Bool
  | optional accept => accept
  | _ => false

end Step

/-- The calls that steps chain, in the order of the steps. -/
def callsOf (steps : List Step) : List String := steps.filterMap Step.call?

namespace Expr

/-- The expression after steps, one after the other. -/
def after (e : Expr) (steps : List Step) : Expr := steps.foldl Step.applyTo e

/-- One step adds its call and its flags, and leaves the rest. -/
theorem applyTo_eq (e : Expr) (step : Step) :
    step.applyTo e = ⟨e.base, e.calls ++ step.call?.toList, e.isNullable || step.acceptsNull,
      e.isOptional || step.acceptsAbsence⟩ := by
  cases step <;> simp [Step.applyTo, Step.call?, Step.acceptsNull, Step.acceptsAbsence, rule, call, nullable,
    optional]

/-- **A run of steps adds the calls of its steps in order, and a flag when one of its steps does.** -/
theorem after_eq (e : Expr) (steps : List Step) :
    e.after steps = ⟨e.base, e.calls ++ callsOf steps, e.isNullable || steps.any Step.acceptsNull,
      e.isOptional || steps.any Step.acceptsAbsence⟩ := by
  induction steps generalizing e with
  | nil => simp [after, callsOf]
  | cons step rest ih =>
      have hrest : e.after (step :: rest) = (step.applyTo e).after rest := rfl
      have hcalls : callsOf (step :: rest) = step.call?.toList ++ callsOf rest := by
        cases h : step.call? <;> simp [callsOf, h]
      rw [hrest, ih, applyTo_eq, hcalls, List.any_cons, List.any_cons, List.append_assoc, Bool.or_assoc, Bool.or_assoc]

theorem text_after (base : String) (steps : List Step) :
    ((ofText base).after steps).text = base ++ String.join (callsOf steps) ++
      (if steps.any Step.acceptsNull then ".nullable()" else "") ++
      (if steps.any Step.acceptsAbsence then ".optional()" else "") := by
  rw [after_eq, text, joined_empty]
  simp [ofText]

end Expr

/-! ### Looks in between -/

/-- What is done with an expression under construction: a step is taken, or its text is looked at. -/
inductive Use
  | step (taken : Step)
  | look

/-- The step that is taken, if one is. -/
def Use.step? : Use → Option Step
  | step taken => some taken
  | look => none

/-- The steps that are taken. -/
def stepsOf (uses : List Use) : List Step := uses.filterMap Use.step?

/-- An expression under construction, and the texts that were seen of it. -/
structure Session where
  expr : Expr
  /-- What every look so far has shown. -/
  shown : List String

namespace Session

/-- An expression of which nothing was seen yet. -/
def start (e : Expr) : Session := ⟨e, []⟩

/-- Take a step, or look. -/
def use (session : Session) : Use → Session
  | .step taken => { session with expr := taken.applyTo session.expr }
  | .look => { session with shown := session.shown ++ [session.expr.text] }

/-- The session after uses, one after the other. -/
def after (session : Session) (uses : List Use) : Session := uses.foldl use session

/-- The expression is that after the steps alone, and what was seen before is kept and never matters. -/
theorem after_eq (session : Session) (uses : List Use) :
    session.after uses =
      ⟨session.expr.after (stepsOf uses), session.shown ++ ((start session.expr).after uses).shown⟩ := by
  induction uses generalizing session with
  | nil => simp [after, start, stepsOf, Expr.after]
  | cons next rest ih =>
      have hrest : ∀ session : Session, session.after (next :: rest) = (session.use next).after rest := fun _ => rfl
      rw [hrest, hrest, ih, ih (use _ _)]
      cases next with
      | step taken => rfl
      | look =>
          have hsteps : stepsOf (.look :: rest) = stepsOf rest := rfl
          simp [use, start, hsteps]

/-- A look shows the text of the steps so far, and the session goes on as if it began there. -/
theorem shown_look (e : Expr) (front back : List Use) :
    ((start e).after (front ++ .look :: back)).shown =
      ((start e).after front).shown ++ (e.after (stepsOf front)).text ::
        ((start (e.after (stepsOf front))).after back).shown := by
  have hsplit : (start e).after (front ++ .look :: back) = (((start e).after front).use .look).after back :=
    List.foldl_append
  have hexpr : ((start e).after front).expr = e.after (stepsOf front) :=
    congrArg expr (after_eq (start e) front)
  rw [hsplit, after_eq]
  simp [use, hexpr]

end Session

/-- **The order of modifiers is fixed, however an expression is built.**  On every base and after every run of steps,
the text is the base, the calls in their order, `.nullable()` once when some step accepts null, and `.optional()` once
when some step accepts absence.  So runs with the same calls and the same two answers end in the same text.  Looking in
between shows what the steps so far have built, and changes neither the expression nor what is shown later. -/
theorem text_built (base : String) :
    (∀ steps, ((Expr.ofText base).after steps).text = base ++ String.join (callsOf steps) ++
      (if steps.any Step.acceptsNull then ".nullable()" else "") ++
      (if steps.any Step.acceptsAbsence then ".optional()" else "")) ∧
    (∀ steps others, callsOf steps = callsOf others →
      steps.any Step.acceptsNull = others.any Step.acceptsNull →
      steps.any Step.acceptsAbsence = others.any Step.acceptsAbsence →
      ((Expr.ofText base).after steps).text = ((Expr.ofText base).after others).text) ∧
    (∀ uses, ((Session.start (Expr.ofText base)).after uses).expr = (Expr.ofText base).after (stepsOf uses)) ∧
    (∀ front back, ((Session.start (Expr.ofText base)).after (front ++ .look :: back)).shown =
      ((Session.start (Expr.ofText base)).after front).shown ++ ((Expr.ofText base).after (stepsOf front)).text ::
        ((Session.start ((Expr.ofText base).after (stepsOf front))).after back).shown) := by
  refine ⟨Expr.text_after base, ?_, ?_, Session.shown_look (Expr.ofText base)⟩
  · intro steps others hcalls hnull habsence
    rw [Expr.text_after, Expr.text_after, hcalls, hnull, habsence]
  · intro uses
    exact congrArg Session.expr (Session.after_eq (Session.start (Expr.ofText base)) uses)

/-- Flags in front of the call, or behind it in another order and given again. -/
theorem text_built_reordered :
    ((Expr.ofText "z.string()").after [.optional true, .nullable true, .rule (.minLength 1)]).text =
      ((Expr.ofText "z.string()").after
        [.rule (.minLength 1), .nullable true, .optional true, .nullable false, .optional true]).text :=
  (text_built "z.string()").2.1 _ _ (by decide) (by decide) (by decide)

end ZodRoutes.Zod
