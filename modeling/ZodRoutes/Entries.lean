/-
Named entries in the order of their first write.

The objects of a document, the properties of a schema and the buckets of a route are all lists of
named entries whose order shows in what is written out.  `insert` keeps the place of a name that is
already there and replaces its value, so a list built by `insert` alone has each name once, where it
was first written, with the value written last.
-/
namespace ZodRoutes

universe u

/-- Values by name, in the order in which the names were first written. -/
abbrev Entries (α : Type u) := List (String × α)

namespace Entries

variable {α : Type u}

/-- The value of the first entry of that name. -/
def get? (entries : Entries α) (name : String) : Option α :=
  entries.lookup name

/-- Whether an entry of that name is there. -/
def has (entries : Entries α) (name : String) : Bool :=
  (get? entries name).isSome

/-- The names, in order. -/
def names (entries : Entries α) : List String :=
  entries.map Prod.fst

/-- Give `name` the value `value`: in its place when the name is there, else at the end. -/
def insert : Entries α → String → α → Entries α
  | [], name, value => [(name, value)]
  | (other, old) :: rest, name, value =>
    if other = name then (name, value) :: rest else (other, old) :: insert rest name value

/-- The entries written one after the other. -/
def ofList (pairs : List (String × α)) : Entries α :=
  pairs.foldl (fun entries pair => insert entries pair.1 pair.2) []

/-- Names without repeats, each where it first stands. -/
def distinct (names : List String) : List String :=
  names.foldl (fun seen name => if name ∈ seen then seen else seen ++ [name]) []

/-! ### What a write changes -/

@[simp] theorem get?_nil (name : String) : get? ([] : Entries α) name = none := rfl

theorem get?_cons (other : String) (value : α) (rest : Entries α) (name : String) :
    get? ((other, value) :: rest) name = if name = other then some value else get? rest name := by
  unfold get?
  rw [List.lookup_cons]
  by_cases h : name = other
  · simp [h]
  · simp [h, beq_eq_false_iff_ne.mpr h]

/-- Reading back the name just written gives the value just written. -/
@[simp] theorem get?_insert_self (entries : Entries α) (name : String) (value : α) :
    get? (insert entries name value) name = some value := by
  induction entries with
  | nil => simp [insert, get?_cons]
  | cons entry rest ih =>
    obtain ⟨other, old⟩ := entry
    by_cases h : other = name
    · simp [insert, h, get?_cons]
    · simp [insert, h, get?_cons, Ne.symm h, ih]

/-- A write leaves every other name alone. -/
theorem get?_insert_of_ne (entries : Entries α) {name key : String} (value : α) (h : key ≠ name) :
    get? (insert entries name value) key = get? entries key := by
  induction entries with
  | nil => simp [insert, get?_cons, h]
  | cons entry rest ih =>
    obtain ⟨other, old⟩ := entry
    by_cases ho : other = name
    · subst ho; simp [insert, get?_cons, h]
    · simp [insert, ho, get?_cons, ih]

/-- A write adds its name at the end, unless it is there already. -/
theorem names_insert (entries : Entries α) (name : String) (value : α) :
    names (insert entries name value) =
      if name ∈ names entries then names entries else names entries ++ [name] := by
  induction entries with
  | nil => simp [insert, names]
  | cons entry rest ih =>
    obtain ⟨other, old⟩ := entry
    by_cases h : other = name
    · simp [insert, names, h]
    · have h' : ¬ name = other := fun e => h e.symm
      simp only [names] at ih
      by_cases hm : name ∈ rest.map Prod.fst <;> simp [insert, names, h, h', ih, hm]

end Entries

end ZodRoutes
