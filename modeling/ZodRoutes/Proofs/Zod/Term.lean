/-
The terms of generated expressions, and that a text is one of them in one way only.

An expression is built from literals, lists, records, patterns and chains of calls on the library `z`.  The
grammar is wider than what is generated: any identifier may be called, with any terms as arguments, and any
string literal may be written, whatever its escapes.  Reading a text as a term in one way only therefore
says more than if the grammar knew the calls.

A term ends where a comma or a closing bracket follows, or nothing.  The proof goes through the front of two
equal texts: the first character tells which sort of term stands there, words end by themselves, and
everything else is bracketed.  It is by induction on the term, for all that may follow it.
-/
import ZodRoutes.Proofs.Zod.Word
import ZodRoutes.Text.Joined

namespace ZodRoutes.Zod

open Text (joined)

/-- The key of a record entry, a name or a string literal. -/
inductive Key where
  | name (word : NameWord)
  | quoted (word : StringWord)

/-- A term of a generated expression. -/
inductive Term where
  | string (word : StringWord)
  | number (word : NumberWord)
  | truth (b : Bool)
  /-- A regular expression with its source. -/
  | pattern (source : StringWord)
  | list (items : List Term)
  | record (entries : List (Key × Term))
  /-- The library, with calls of its methods chained onto it. -/
  | chain (calls : List (NameWord × List Term))

/-- The text of a key. -/
def Key.text : Key → String
  | .name word => word.name
  | .quoted word => word.text

namespace Term

mutual

/-- The text of a term. -/
def text : Term → String
  | .string word => word.text
  | .number word => word.text
  | .truth true => "true"
  | .truth false => "false"
  | .pattern source => "new RegExp(" ++ source.text ++ ")"
  | .list items => "[" ++ joined "," (itemTexts items) ++ "]"
  | .record entries => "\x7b" ++ joined "," (entryTexts entries) ++ "\x7d"
  | .chain calls => "z" ++ joined "" (callTexts calls)

/-- The texts of terms in order. -/
def itemTexts : List Term → List String
  | [] => []
  | term :: rest => text term :: itemTexts rest

/-- The texts of entries, each with its key in front. -/
def entryTexts : List (Key × Term) → List String
  | [] => []
  | (key, term) :: rest => (key.text ++ ":" ++ text term) :: entryTexts rest

/-- The texts of calls, each with its arguments. -/
def callTexts : List (NameWord × List Term) → List String
  | [] => []
  | (word, arguments) :: rest =>
    Expr.callText word.name (joined "," (itemTexts arguments)) :: callTexts rest

end

/-- The text of an entry. -/
def entryText (entry : Key × Term) : String :=
  entry.1.text ++ ":" ++ entry.2.text

/-- The text of a call. -/
def callText (call : NameWord × List Term) : String :=
  Expr.callText call.1.name (joined "," (call.2.map text))

@[simp] theorem itemTexts_eq (items : List Term) : itemTexts items = items.map text := by
  induction items with
  | nil => rfl
  | cons term rest ih => rw [itemTexts, ih, List.map_cons]

@[simp] theorem entryTexts_eq (entries : List (Key × Term)) :
    entryTexts entries = entries.map entryText := by
  induction entries with
  | nil => rfl
  | cons entry rest ih => rw [entryTexts, ih, List.map_cons, entryText]

@[simp] theorem callTexts_eq (calls : List (NameWord × List Term)) :
    callTexts calls = calls.map callText := by
  induction calls with
  | nil => rfl
  | cons call rest ih => rw [callTexts, ih, List.map_cons, callText, itemTexts_eq]

/-! ### Terms below a term -/

/-- The terms directly below a term. -/
def children : Term → List Term
  | .list items => items
  | .record entries => entries.map Prod.snd
  | .chain calls => calls.flatMap Prod.snd
  | _ => []

theorem sizeOf_child_lt {term child : Term} (h : child ∈ term.children) :
    sizeOf child < sizeOf term := by
  cases term with
  | list items =>
      have := List.sizeOf_lt_of_mem (show child ∈ items from h)
      simp only [list.sizeOf_spec]
      omega
  | record entries =>
      obtain ⟨⟨key, inner⟩, hmem, rfl⟩ := List.mem_map.mp h
      have := List.sizeOf_lt_of_mem hmem
      simp only [record.sizeOf_spec, Prod.mk.sizeOf_spec] at this ⊢
      omega
  | chain calls =>
      obtain ⟨⟨word, arguments⟩, hmem, hchild⟩ := List.mem_flatMap.mp h
      have houter := List.sizeOf_lt_of_mem hmem
      have hinner := List.sizeOf_lt_of_mem hchild
      simp only [chain.sizeOf_spec, Prod.mk.sizeOf_spec] at houter hinner ⊢
      omega
  | _ => simp [children] at h

/-- What holds of a term whenever it holds of the terms below it holds of every term. -/
@[elab_as_elim]
theorem induction {motive : Term → Prop}
    (step : ∀ term : Term, (∀ child ∈ term.children, motive child) → motive term) :
    ∀ term, motive term := by
  intro term
  exact step term fun child hchild => induction step child
termination_by term => sizeOf term
decreasing_by exact sizeOf_child_lt hchild

/-! ### The front of a text -/

/-- The shapes of terms, as the first character tells them apart. -/
inductive Shape where
  | string
  | number
  | truth (b : Bool)
  | pattern
  | list
  | record
  | chain
  deriving DecidableEq

/-- The shape of a term. -/
def shape : Term → Shape
  | .string _ => .string
  | .number _ => .number
  | .truth b => .truth b
  | .pattern _ => .pattern
  | .list _ => .list
  | .record _ => .record
  | .chain _ => .chain

/-- The shape of the terms that begin with a character, if any does. -/
def shapeOf? (c : Char) : Option Shape :=
  if c = '"' then some .string
  else if c.isDigit ∨ c = '-' then some .number
  else if c = 't' then some (.truth true)
  else if c = 'f' then some (.truth false)
  else if c = 'n' then some .pattern
  else if c = '[' then some .list
  else if c = '\x7b' then some .record
  else if c = 'z' then some .chain
  else none

/-- The first character of a term tells its shape. -/
theorem exists_first (term : Term) :
    ∃ c rest, term.text.toList = c :: rest ∧ shapeOf? c = some term.shape := by
  cases term with
  | string word => exact ⟨'"', _, by simp [text, StringWord.text]; rfl, rfl⟩
  | number word =>
      obtain ⟨⟨sign, whole, fraction, power⟩, hwritten⟩ := word
      obtain ⟨first, rest, hwhole⟩ := List.exists_cons_of_ne_nil hwritten.whole.1
      have hdigit := hwritten.whole.2 first (by rw [hwhole]; simp)
      dsimp only at hwhole hdigit
      subst hwhole
      rcases hwritten.sign with hsign | hsign
      · dsimp only at hsign
        subst hsign
        refine ⟨first, _, by simp [text, NumberWord.text, Decimal.Numeral.chars]; rfl, ?_⟩
        have hquote : first ≠ '"' := by
          rintro rfl
          exact absurd hdigit (by decide)
        unfold shapeOf?
        rw [if_neg hquote, if_pos (.inl hdigit)]
        rfl
      · dsimp only at hsign
        subst hsign
        exact ⟨'-', _, by simp [text, NumberWord.text, Decimal.Numeral.chars]; rfl, rfl⟩
  | truth b => cases b <;> exact ⟨_, _, rfl, rfl⟩
  | pattern source => exact ⟨'n', _, by simp [text]; rfl, rfl⟩
  | list items => exact ⟨'[', _, by simp [text]; rfl, rfl⟩
  | record entries => exact ⟨'\x7b', _, by simp [text]; rfl, rfl⟩
  | chain calls => exact ⟨'z', _, by simp [text]; rfl, rfl⟩

/-- No term begins with a character that ends one. -/
theorem shapeOf?_of_closes {c : Char} (h : closes c) : shapeOf? c = none := by
  rcases eq_of_closes h with rfl | rfl | rfl | rfl <;> decide

theorem shape_eq {term term' : Term} {rest rest' : List Char}
    (h : term.text.toList ++ rest = term'.text.toList ++ rest') : term.shape = term'.shape := by
  obtain ⟨c, others, htext, hshape⟩ := term.exists_first
  obtain ⟨c', others', htext', hshape'⟩ := term'.exists_first
  rw [htext, htext', List.cons_append, List.cons_append, List.cons.injEq] at h
  rw [h.1, hshape', Option.some.injEq] at hshape
  exact hshape.symm

/-! ### Rows of terms -/

theorem toList_joined_cons (separator first : String) (rest : List String) :
    (joined separator (first :: rest)).toList =
      first.toList ++ rest.flatMap fun text => separator.toList ++ text.toList := by
  induction rest generalizing first with
  | nil => simp [joined]
  | cons second rest ih =>
      rw [Text.joined_cons_cons, String.toList_append, String.toList_append, ih, List.flatMap_cons,
        List.append_assoc, List.append_assoc]

theorem toList_joined_empty (texts : List String) :
    (joined "" texts).toList = texts.flatMap String.toList := by
  cases texts with
  | nil => rfl
  | cons first rest =>
      rw [toList_joined_cons, List.flatMap_cons]
      rfl

section Rows

variable {α : Type} {text : α → String}

/-- Something is read in one way only from the front of a text. -/
def ReadsOnce (text : α → String) (a : α) : Prop :=
  ∀ a' rest rest', Ends rest → Ends rest' →
    (text a).toList ++ rest = (text a').toList ++ rest' → a = a' ∧ rest = rest'

/-- The items behind the first, each after a comma. -/
def behind (text : α → String) (items : List α) : List Char :=
  items.flatMap fun a => ',' :: (text a).toList

theorem ends_behind (items : List α) {close : Char} (hclose : closes close) (rest : List Char) :
    Ends (behind text items ++ close :: rest) := by
  cases items with
  | nil => exact ends_cons hclose
  | cons a items => exact ends_cons (by decide)

theorem behind_unique {items : List α} (h : ∀ a ∈ items, ReadsOnce text a) {items' : List α}
    {close : Char} (hclose : closes close) (hcomma : close ≠ ',') {rest rest' : List Char}
    (heq : behind text items ++ close :: rest = behind text items' ++ close :: rest') :
    items = items' ∧ rest = rest' := by
  induction items generalizing items' with
  | nil =>
      cases items' with
      | nil => exact ⟨rfl, List.tail_eq_of_cons_eq heq⟩
      | cons a' items' => exact absurd (List.head_eq_of_cons_eq heq) hcomma
  | cons a items ih =>
      cases items' with
      | nil => exact absurd (List.head_eq_of_cons_eq heq).symm hcomma
      | cons a' items' =>
          have hitems : (text a).toList ++ (behind text items ++ close :: rest) =
              (text a').toList ++ (behind text items' ++ close :: rest') := by
            simpa [behind] using heq
          obtain ⟨rfl, hbehind⟩ := h a (by simp) a' _ _ (ends_behind items hclose rest)
            (ends_behind items' hclose rest') hitems
          obtain ⟨rfl, hrest⟩ := ih (fun b hb => h b (List.mem_cons_of_mem _ hb)) hbehind
          exact ⟨rfl, hrest⟩

/-- **A bracketed row is read in one way only** when each of its items is. -/
theorem row_unique {items : List α} (h : ∀ a ∈ items, ReadsOnce text a)
    (hstart : ∀ a, ∃ c others, (text a).toList = c :: others ∧ ¬ closes c) {items' : List α}
    {close : Char} (hclose : closes close) (hcomma : close ≠ ',') {rest rest' : List Char}
    (heq : (joined "," (items.map text)).toList ++ close :: rest =
      (joined "," (items'.map text)).toList ++ close :: rest') :
    items = items' ∧ rest = rest' := by
  have hfirst : ∀ (a : α) (items : List α), (joined "," ((a :: items).map text)).toList =
      (text a).toList ++ behind text items := by
    intro a items
    rw [List.map_cons, toList_joined_cons, List.flatMap_map]
    rfl
  -- An item is never mistaken for the bracket behind an empty row.
  have hempty : ∀ (a : α) (items : List α) (front back : List Char),
      close :: front ≠ (text a).toList ++ behind text items ++ back := by
    intro a items front back hsame
    obtain ⟨c, others, htext, hopen⟩ := hstart a
    rw [htext] at hsame
    exact hopen (List.head_eq_of_cons_eq hsame ▸ hclose)
  cases items with
  | nil =>
      cases items' with
      | nil => exact ⟨rfl, List.tail_eq_of_cons_eq heq⟩
      | cons a' items' =>
          rw [hfirst] at heq
          exact absurd heq (hempty a' items' _ _)
  | cons a items =>
      cases items' with
      | nil =>
          rw [hfirst] at heq
          exact absurd heq.symm (hempty a items _ _)
      | cons a' items' =>
          rw [hfirst, hfirst, List.append_assoc, List.append_assoc] at heq
          obtain ⟨rfl, hbehind⟩ := h a (by simp) a' _ _ (ends_behind items hclose rest)
            (ends_behind items' hclose rest') heq
          obtain ⟨rfl, hrest⟩ := behind_unique (fun b hb => h b (List.mem_cons_of_mem _ hb)) hclose
            hcomma hbehind
          exact ⟨rfl, hrest⟩

end Rows

theorem starts (term : Term) : ∃ c others, term.text.toList = c :: others ∧ ¬ closes c := by
  obtain ⟨c, others, htext, hshape⟩ := term.exists_first
  refine ⟨c, others, htext, fun hcloses => ?_⟩
  rw [shapeOf?_of_closes hcloses] at hshape
  cases hshape

theorem key_unique {key key' : Key} {rest rest' : List Char}
    (h : key.text.toList ++ ':' :: rest = key'.text.toList ++ ':' :: rest') :
    key = key' ∧ rest = rest' := by
  -- A name does not begin with a quote.
  have hmixed : ∀ (word : NameWord) (quoted : StringWord) (front back : List Char),
      word.name.toList ++ front ≠ quoted.text.toList ++ back := by
    intro word quoted front back hsame
    obtain ⟨first, others, hname, hfirst, -⟩ := word.exists_cons
    simp only [hname, StringWord.text, String.toList_ofList, List.cons_append, List.cons.injEq] at hsame
    rw [hsame.1] at hfirst
    exact absurd hfirst (by decide)
  cases key with
  | name word =>
      cases key' with
      | name word' =>
          obtain ⟨rfl, hrest⟩ := NameWord.unique (by decide) h
          exact ⟨rfl, hrest⟩
      | quoted word' => exact absurd h (hmixed word word' _ _)
  | quoted word =>
      cases key' with
      | name word' => exact absurd h.symm (hmixed word' word _ _)
      | quoted word' =>
          obtain ⟨rfl, hrest⟩ := StringWord.unique h
          exact ⟨rfl, List.tail_eq_of_cons_eq hrest⟩

theorem entry_readsOnce {entry : Key × Term} (h : ReadsOnce text entry.2) :
    ReadsOnce entryText entry := by
  intro entry' rest rest' hrest hrest' heq
  obtain ⟨key, term⟩ := entry
  obtain ⟨key', term'⟩ := entry'
  simp only [entryText, String.toList_append, List.append_assoc] at heq
  obtain ⟨rfl, hterms⟩ := key_unique heq
  obtain ⟨rfl, hrests⟩ := h term' rest rest' hrest hrest' hterms
  exact ⟨rfl, hrests⟩

theorem entry_starts (entry : Key × Term) :
    ∃ c others, (entryText entry).toList = c :: others ∧ ¬ closes c := by
  obtain ⟨key, term⟩ := entry
  cases key with
  | name word =>
      obtain ⟨first, others, hname, hfirst, -⟩ := word.exists_cons
      refine ⟨first, _, by simp [entryText, Key.text, hname]; rfl, fun hcloses => ?_⟩
      rcases eq_of_closes hcloses with rfl | rfl | rfl | rfl <;> exact absurd hfirst (by decide)
  | quoted word => exact ⟨'"', _, by simp [entryText, Key.text, StringWord.text]; rfl, by decide⟩

theorem calls_unique {calls calls' : List (NameWord × List Term)} {rest rest' : List Char}
    (h : ∀ call ∈ calls, ∀ argument ∈ call.2, ReadsOnce text argument) (hrest : Ends rest)
    (hrest' : Ends rest')
    (heq : (calls.map callText).flatMap String.toList ++ rest =
      (calls'.map callText).flatMap String.toList ++ rest') :
    calls = calls' ∧ rest = rest' := by
  have hcall : ∀ (call : NameWord × List Term), (callText call).toList =
      '.' :: (call.1.name.toList ++ '(' :: ((joined "," (call.2.map text)).toList ++ [')'])) := by
    intro call
    simp [callText, Expr.callText]
  -- What ends a term does not begin a call.
  have hdot : ∀ (call : NameWord × List Term) (more front : List Char), Ends front →
      front ≠ (callText call).toList ++ more := by
    intro call more front hfront hsame
    rw [hcall] at hsame
    subst hsame
    exact absurd (hfront '.' rfl) (by decide)
  induction calls generalizing calls' with
  | nil =>
      cases calls' with
      | nil => exact ⟨rfl, heq⟩
      | cons call' calls' =>
          simp only [List.map_nil, List.flatMap_nil, List.nil_append, List.map_cons, List.flatMap_cons,
            List.append_assoc] at heq
          exact absurd heq (hdot call' _ _ hrest)
  | cons call calls ih =>
      cases calls' with
      | nil =>
          simp only [List.map_nil, List.flatMap_nil, List.nil_append, List.map_cons, List.flatMap_cons,
            List.append_assoc] at heq
          exact absurd heq.symm (hdot call _ _ hrest')
      | cons call' calls' =>
          obtain ⟨word, arguments⟩ := call
          obtain ⟨word', arguments'⟩ := call'
          simp only [List.map_cons, List.flatMap_cons, hcall, List.cons_append, List.append_assoc,
            List.cons.injEq, true_and, List.nil_append] at heq
          obtain ⟨rfl, hbracket⟩ := NameWord.unique (by decide) heq
          obtain ⟨rfl, hcalls⟩ := row_unique (h (word, arguments) (by simp)) starts (by decide)
            (by decide) hbracket
          obtain ⟨rfl, hrests⟩ := ih (fun call hcall => h call (List.mem_cons_of_mem _ hcall)) hcalls
          exact ⟨rfl, hrests⟩

/-- **A term is read in one way only from the front of a text.** -/
theorem readsOnce (term : Term) : ReadsOnce text term := by
  induction term using Term.induction with
  | step term ih =>
      intro term' rest rest' hrest hrest' heq
      have hshape := shape_eq heq
      cases term with
      | string word =>
          cases term' with
          | string word' =>
              obtain ⟨rfl, hrests⟩ := StringWord.unique heq
              exact ⟨rfl, hrests⟩
          | _ => cases hshape
      | number word =>
          cases term' with
          | number word' =>
              obtain ⟨rfl, hrests⟩ := NumberWord.unique hrest hrest' heq
              exact ⟨rfl, hrests⟩
          | _ => cases hshape
      | truth b =>
          cases term' with
          | truth b' =>
              cases hshape
              exact ⟨rfl, List.append_cancel_left heq⟩
          | _ => cases hshape
      | pattern source =>
          cases term' with
          | pattern source' =>
              simp only [text, String.toList_append, List.append_assoc] at heq
              obtain ⟨rfl, hrests⟩ := StringWord.unique (List.append_cancel_left heq)
              exact ⟨rfl, List.append_cancel_left hrests⟩
          | _ => cases hshape
      | list items =>
          cases term' with
          | list items' =>
              simp only [text, itemTexts_eq, String.toList_append, List.append_assoc] at heq
              obtain ⟨rfl, hrests⟩ := row_unique ih starts (by decide) (by decide)
                (List.append_cancel_left heq)
              exact ⟨rfl, hrests⟩
          | _ => cases hshape
      | record entries =>
          cases term' with
          | record entries' =>
              simp only [text, entryTexts_eq, String.toList_append, List.append_assoc] at heq
              have hentries : ∀ entry ∈ entries, ReadsOnce entryText entry := fun entry hentry =>
                entry_readsOnce (ih entry.2 (List.mem_map.mpr ⟨entry, hentry, rfl⟩))
              obtain ⟨rfl, hrests⟩ := row_unique hentries entry_starts (by decide) (by decide)
                (List.append_cancel_left heq)
              exact ⟨rfl, hrests⟩
          | _ => cases hshape
      | chain calls =>
          cases term' with
          | chain calls' =>
              simp only [text, callTexts_eq, String.toList_append, toList_joined_empty,
                List.append_assoc] at heq
              have harguments : ∀ call ∈ calls, ∀ argument ∈ call.2, ReadsOnce text argument :=
                fun call hcall argument hargument =>
                  ih argument (List.mem_flatMap.mpr ⟨call, hcall, hargument⟩)
              obtain ⟨rfl, hrests⟩ := calls_unique harguments hrest hrest'
                (List.append_cancel_left heq)
              exact ⟨rfl, hrests⟩
          | _ => cases hshape

/-- **No two terms have the same text.** -/
theorem text_injective {term term' : Term} (h : term.text = term'.text) : term = term' := by
  have hends : Ends [] := by
    rintro _ ⟨⟩
  exact (term.readsOnce term' [] [] hends hends (by rw [h])).1

end Term

end ZodRoutes.Zod
