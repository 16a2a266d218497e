/-
Brackets of a script.

The tokens of a script are run against a stack of the brackets that are still owed, innermost first.  A
closing bracket has to be the one on top, and a comma has to stand in a bracket.  A run that leaves the empty
stack as it is has matching brackets and no comma outside them, so a comma behind it is where it ends.  The
stack below a run is never looked at, so such a run may stand anywhere.
-/
import ZodRoutes.Proofs.Script.Token

namespace ZodRoutes.Script

/-- The bracket that closes a bracket. -/
def closing? : Char → Option Char
  | '(' => some ')'
  | '[' => some ']'
  | '\x7b' => some '\x7d'
  | _ => none

/-- What is owed behind a mark, given what is owed before it; none where the mark may not stand. -/
def afterMark? (owed : List Char) (c : Char) : Option (List Char) :=
  match closing? c with
  | some close => some (close :: owed)
  | none =>
    if [')', ']', '\x7d'].contains c then if owed.head? = some c then some owed.tail else none
    else if c = ',' ∧ owed = [] then none
    else some owed

/-- What is owed behind a token. -/
def after? (owed : List Char) : Token → Option (List Char)
  | .mark c => afterMark? owed c
  | _ => some owed

/-- What is owed behind tokens. -/
def run? (owed : List Char) (tokens : List Token) : Option (List Char) :=
  tokens.foldlM after? owed

/-- The brackets match, and no comma stands outside them. -/
def Closed (tokens : List Token) : Prop := run? [] tokens = some []

instance (tokens : List Token) : Decidable (Closed tokens) :=
  inferInstanceAs (Decidable (run? [] tokens = some []))

/-- The brackets match, and commas may stand outside them: what an open bracket may hold. -/
def Held (tokens : List Token) : Prop := ∀ close, run? [close] tokens = some [close]

variable {owed owed' base : List Char} {tokens tokens' : List Token}

theorem run?_cons (token : Token) :
    run? owed (token :: tokens) = (after? owed token).bind (run? · tokens) :=
  List.foldlM_cons

theorem run?_append : run? owed (tokens ++ tokens') = (run? owed tokens).bind (run? · tokens') :=
  List.foldlM_append

/-- A mark that may stand above a stack may stand above a higher one, and does the same there. -/
theorem afterMark?_append {c : Char} (h : afterMark? owed c = some owed') (base : List Char) :
    afterMark? (owed ++ base) c = some (owed' ++ base) := by
  unfold afterMark? at h ⊢
  cases hclose : closing? c with
  | some close =>
      rw [hclose] at h
      cases h
      rfl
  | none =>
      rw [hclose] at h
      dsimp only at h ⊢
      split at h
      · next hbracket =>
          rw [if_pos hbracket]
          split at h
          · next htop =>
              obtain ⟨rest, rfl⟩ : ∃ rest, owed = c :: rest := List.head?_eq_some_iff.mp htop
              cases h
              rw [List.cons_append, List.head?_cons, if_pos rfl, List.tail_cons, List.tail_cons]
          · cases h
      · next hbracket =>
          rw [if_neg hbracket]
          split at h
          · cases h
          · next hcomma =>
              cases h
              rw [if_neg]
              rintro ⟨hc, hempty⟩
              exact hcomma ⟨hc, (List.append_eq_nil_iff.mp hempty).1⟩

/-- **A run never looks below the stack it was given.** -/
theorem run?_below (h : run? owed tokens = some owed') (base : List Char) :
    run? (owed ++ base) tokens = some (owed' ++ base) := by
  induction tokens generalizing owed with
  | nil =>
      cases h
      rfl
  | cons token rest ih =>
      rw [run?_cons] at h ⊢
      obtain ⟨middle, hafter, hrest⟩ := Option.bind_eq_some_iff.mp h
      have hstep : after? (owed ++ base) token = some (middle ++ base) := by
        cases token with
        | mark c => exact afterMark?_append hafter base
        | _ =>
            cases hafter
            rfl
      rw [hstep]
      exact ih hrest

theorem Closed.above (h : Closed tokens) (owed : List Char) : run? owed tokens = some owed := by
  have hbelow := run?_below h owed
  rwa [List.nil_append] at hbelow

theorem Closed.held (h : Closed tokens) : Held tokens := fun close => h.above [close]

theorem Closed.append (h : Closed tokens) (h' : Closed tokens') : Closed (tokens ++ tokens') := by
  unfold Closed at *
  rw [run?_append, h]
  exact h'

theorem Closed.flatMap {α : Type} {tokensOf : α → List Token} {items : List α}
    (h : ∀ a ∈ items, Closed (tokensOf a)) : Closed (items.flatMap tokensOf) := by
  induction items with
  | nil => rfl
  | cons a rest ih =>
      exact (h a (by simp)).append (ih fun b hb => h b (List.mem_cons_of_mem _ hb))

theorem Held.append (h : Held tokens) (h' : Held tokens') : Held (tokens ++ tokens') := by
  intro close
  rw [run?_append, h close]
  exact h' close

theorem Held.flatMap {α : Type} {tokensOf : α → List Token} {items : List α}
    (h : ∀ a ∈ items, Held (tokensOf a)) : Held (items.flatMap tokensOf) := by
  induction items with
  | nil => exact fun close => rfl
  | cons a rest ih =>
      exact (h a (by simp)).append (ih fun b hb => h b (List.mem_cons_of_mem _ hb))

theorem Held.above (h : Held tokens) (close : Char) (owed : List Char) :
    run? (close :: owed) tokens = some (close :: owed) :=
  run?_below (h close) owed

/-- What an open bracket holds and its closing bracket take the stack back to where it was. -/
theorem Held.bracket (h : Held tokens) {opening close : Char} (hclose : closing? opening = some close) :
    Closed (.mark opening :: tokens ++ [.mark close]) := by
  have hafter : after? [] (.mark opening) = some [close] := by
    show afterMark? [] opening = _
    unfold afterMark?
    rw [hclose]
  have hback : run? [close] [.mark close] = some [] := by
    unfold closing? at hclose
    split at hclose <;> cases hclose <;> rfl
  show run? [] _ = _
  rw [List.cons_append, run?_cons, hafter, Option.bind_some, run?_append, h close]
  exact hback

example : Closed [.mark '[', .mark ',', .mark ']'] ∧ ¬ Closed [.mark ','] ∧
    ¬ Closed [.mark '(', .mark ']'] := by
  decide

/-! ### Rows -/

/-- The tokens of items with a comma between each two neighbours. -/
def commaSeparated : List (List Token) → List Token
  | [] => []
  | [item] => item
  | item :: rest => item ++ .mark ',' :: commaSeparated rest

theorem commaSeparated_cons_cons (first second : List Token) (rest : List (List Token)) :
    commaSeparated (first :: second :: rest) =
      first ++ .mark ',' :: commaSeparated (second :: rest) := rfl

/-- A bracket may hold a row of closed items. -/
theorem held_commaSeparated {items : List (List Token)} (h : ∀ item ∈ items, Closed item) :
    Held (commaSeparated items) := by
  have hcomma : Held [.mark ','] := fun close => rfl
  induction items with
  | nil => exact fun close => rfl
  | cons first rest ih =>
      have hfirst := (h first (by simp)).held
      cases rest with
      | nil => exact hfirst
      | cons second rest =>
          rw [commaSeparated_cons_cons]
          exact hfirst.append (hcomma.append (ih fun item hitem => h item (List.mem_cons_of_mem _ hitem)))

end ZodRoutes.Script
