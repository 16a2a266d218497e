/-
What a tree of files shows at its places.

A place shows a file with its text, a directory, or nothing.  This is all that paths and readers see of a
tree: a path is followed through directories alone, and what stands at the end of it is read.

Putting an entry somewhere shows there and nowhere else, as long as the new entry holds nothing itself and no
directory stood there before.  So a tree changes in two ways: directories appear where nothing was, and a file
gets a text.  Neither takes a directory away, so a path that leads somewhere still leads there afterwards.
-/
import ZodRoutes.Cli.FileTree

namespace ZodRoutes.Cli

/-- What stands at a place, leaving out what a directory holds. -/
inductive Shown where
  | file (text : String)
  | dir
  deriving DecidableEq

/-- What an entry shows. -/
def Entry.shown : Entry → Shown
  | file text => .file text
  | dir _ => .dir

namespace Entry

/-- What an entry shows at the end of a row of names. -/
def shownAt? (names : List String) (entry : Entry) : Option Shown :=
  (entry.at? names).map shown

@[simp] theorem shownAt?_nil (entry : Entry) : entry.shownAt? [] = some entry.shown := rfl

theorem shownAt?_cons_dir (name : String) (names : List String) (entries : List (String × Entry)) :
    (dir entries).shownAt? (name :: names) = (Entries.get? entries name).bind (shownAt? names) := by
  unfold shownAt?
  rw [at?]
  cases Entries.get? entries name <;> rfl

/-! ### Putting an entry in -/

variable {new entry result : Entry} {name : String} {names place other : List String}

/-- Below a directory an entry is put into the entry of the first name, or is that entry itself. -/
theorem put?_cons (h : put? new (name :: names) entry = some result) :
    ∃ entries inside, entry = dir entries ∧ result = dir (Entries.insert entries name inside) ∧
      ((names = [] ∧ inside = new) ∨
        ∃ old, Entries.get? entries name = some old ∧ put? new names old = some inside) := by
  cases entry with
  | file text => cases names <;> simp [put?] at h
  | dir entries =>
      cases names with
      | nil =>
          rw [put?, Option.some.injEq] at h
          exact ⟨entries, new, rfl, h.symm, .inl ⟨rfl, rfl⟩⟩
      | cons next rest =>
          rw [put?, Option.map_eq_some_iff] at h
          · obtain ⟨inside, hinside, hresult⟩ := h
            obtain ⟨old, hold, hput⟩ := Option.bind_eq_some_iff.mp hinside
            exact ⟨entries, inside, rfl, hresult.symm, .inr ⟨old, hold, hput⟩⟩
          · simp

/-- What was put in shows at its place. -/
theorem shownAt?_put? (h : put? new place entry = some result) : result.shownAt? place = some new.shown := by
  induction place generalizing entry result with
  | nil =>
      rw [put?, Option.some.injEq] at h
      rw [← h, shownAt?_nil]
  | cons name names ih =>
      obtain ⟨entries, inside, -, rfl, hinside⟩ := put?_cons h
      rw [shownAt?_cons_dir, Entries.get?_insert_self, Option.bind_some]
      rcases hinside with ⟨rfl, rfl⟩ | ⟨old, -, hput⟩
      · rfl
      · exact ih hput

/-- **An entry without contents, put where no directory stands, shows nowhere else.** -/
theorem shownAt?_put?_of_ne (hbare : ∀ name names, new.shownAt? (name :: names) = none)
    (hfree : entry.shownAt? place ≠ some .dir) (h : put? new place entry = some result) (hne : other ≠ place) :
    result.shownAt? other = entry.shownAt? other := by
  induction place generalizing entry result other with
  | nil =>
      rw [put?, Option.some.injEq] at h
      obtain ⟨first, rest, rfl⟩ := List.exists_cons_of_ne_nil hne
      rw [← h, hbare]
      cases entry with
      | file text => rfl
      | dir entries => exact absurd rfl hfree
  | cons name names ih =>
      obtain ⟨entries, inside, rfl, rfl, hinside⟩ := put?_cons h
      cases other with
      | nil => rfl
      | cons first rest =>
          rw [shownAt?_cons_dir, shownAt?_cons_dir]
          by_cases hfirst : first = name
          · subst hfirst
            have hrest : rest ≠ names := fun heq => hne (heq ▸ rfl)
            rw [shownAt?_cons_dir] at hfree
            rw [Entries.get?_insert_self, Option.bind_some]
            rcases hinside with ⟨rfl, rfl⟩ | ⟨old, hold, hput⟩
            · -- Nothing was below the new entry: it takes the place of a file or of nothing.
              obtain ⟨next, others, rfl⟩ := List.exists_cons_of_ne_nil hrest
              rw [hbare]
              cases hget : Entries.get? entries first with
              | none => rfl
              | some old =>
                  rw [hget] at hfree
                  cases old with
                  | file text => rfl
                  | dir _ => exact absurd rfl hfree
            · rw [hold, Option.bind_some] at hfree ⊢
              exact ih hfree hput hrest
          · rw [Entries.get?_insert_of_ne _ _ hfirst]

end Entry

namespace FileTree

variable {tree tree' tree'' : FileTree} {path text : String} {place other : List String}

/-- What a tree shows at a place. -/
def shown? (tree : FileTree) (place : List String) : Option Shown :=
  tree.root.shownAt? place

/-- The text of the file at a place. -/
def fileAt? (tree : FileTree) (place : List String) : Option String :=
  match tree.entryAt? place with
  | some (.file text) => some text
  | _ => none

theorem shown?_eq : tree.shown? place = (tree.entryAt? place).map Entry.shown := rfl

theorem fileAt?_eq_some : tree.fileAt? place = some text ↔ tree.shown? place = some (.file text) := by
  unfold fileAt?
  rw [shown?_eq]
  split
  · next found hfound => simp [hfound, Entry.shown]
  · next hnone =>
      simp only [reduceCtorEq, Option.map_eq_some_iff, false_iff, not_exists, not_and]
      intro entry hentry hshown
      cases entry with
      | file found => exact hnone found hentry
      | dir entries => cases hshown

/-! ### Paths -/

/-- A path leads to a place. -/
def Leads (tree : FileTree) (path : String) (place : List String) : Prop :=
  tree.place path.toList = .ok place

instance : Decidable (tree.Leads path place) :=
  match h : tree.place path.toList with
  | .ok found => decidable_of_iff (found = place) (by simp [Leads, h])
  | .error _ => .isFalse (by simp [Leads, h])

theorem Leads.unique (h : tree.Leads path place) (h' : tree.Leads path other) : place = other :=
  Except.ok.inj (h.symm.trans h')

theorem isThere_iff : tree.isThere path ↔ ∃ place, tree.Leads path place ∧ tree.shown? place ≠ none := by
  unfold isThere entry? Leads
  cases hplace : tree.place path.toList with
  | error detour => simp
  | ok place => cases hentry : tree.entryAt? place <;> simp [shown?_eq, hentry]

theorem read?_eq_some :
    tree.read? path = some text ↔ ∃ place, tree.Leads path place ∧ tree.shown? place = some (.file text) := by
  unfold read? entry? Leads
  cases hplace : tree.place path.toList with
  | error detour => simp
  | ok place =>
      simp only [Except.ok.injEq, exists_eq_left', ← fileAt?_eq_some]
      rfl

theorem isThere_of_read? (h : tree.read? path = some text) : tree.isThere path := by
  obtain ⟨place, hleads, hshown⟩ := read?_eq_some.mp h
  exact isThere_iff.mpr ⟨place, hleads, by simp [hshown]⟩

/-- Every directory of the first tree is one of the second, and both have the same working directory. -/
structure KeepsDirs (tree tree' : FileTree) : Prop where
  work : tree'.work = tree.work
  dirs : ∀ place, tree.shown? place = some .dir → tree'.shown? place = some .dir

/-- Where one more component leads from a directory. -/
def onward (place : List String) (piece : List Char) : List String :=
  if piece == [] || piece == ['.'] then place
  else if piece == ['.', '.'] then place.dropLast
  else place ++ [String.ofList piece]

/-- Every component but the last one leads on from a directory. -/
theorem follow_cons_eq_ok {piece : List Char} {rest : List (List Char)} {start : List String} :
    tree.follow start (piece :: rest) = .ok place ↔
      tree.shown? start = some .dir ∧ tree.follow (onward start piece) rest = .ok place := by
  rw [follow, shown?_eq]
  unfold onward
  cases tree.entryAt? start with
  | none => simp
  | some entry =>
      cases entry with
      | file found => simp [Entry.shown]
      | dir entries =>
          simp only [Option.map_some, Entry.shown, true_and]
          split
          · rfl
          · split <;> rfl

/-- Only directories count on the way. -/
theorem KeepsDirs.follow (h : tree.KeepsDirs tree') {pieces : List (List Char)} {start : List String}
    (hfollow : tree.follow start pieces = .ok place) : tree'.follow start pieces = .ok place := by
  induction pieces generalizing start with
  | nil => exact hfollow
  | cons piece rest ih =>
      rw [follow_cons_eq_ok] at hfollow ⊢
      exact ⟨h.dirs start hfollow.1, ih hfollow.2⟩

/-- **A path that leads somewhere leads there as long as the directories stay.** -/
theorem KeepsDirs.leads (h : tree.KeepsDirs tree') (hleads : tree.Leads path place) : tree'.Leads path place := by
  unfold Leads FileTree.place at hleads ⊢
  split
  · next hempty => simp [hempty] at hleads
  · next hempty =>
      split
      · next hnull => simp [hempty, hnull] at hleads
      · next hnull =>
          rw [if_neg hempty, if_neg hnull] at hleads
          rw [h.work]
          exact h.follow hleads

/-! ### Changes -/

/-- Only directories are new, and they stand where nothing was. -/
structure Extends (tree tree' : FileTree) : Prop where
  work : tree'.work = tree.work
  shown : ∀ place, tree'.shown? place = tree.shown? place ∨
    (tree.shown? place = none ∧ tree'.shown? place = some .dir)

/-- A file at the place has the text, and elsewhere only directories are new. -/
structure Stores (tree : FileTree) (place : List String) (text : String) (tree' : FileTree) : Prop where
  work : tree'.work = tree.work
  here : tree'.shown? place = some (.file text)
  notDir : tree.shown? place ≠ some .dir
  elsewhere : ∀ other, other ≠ place → tree'.shown? other = tree.shown? other ∨
    (tree.shown? other = none ∧ tree'.shown? other = some .dir)

theorem Extends.refl (tree : FileTree) : tree.Extends tree :=
  ⟨rfl, fun _ => .inl rfl⟩

theorem Extends.trans (h : tree.Extends tree') (h' : tree'.Extends tree'') : tree.Extends tree'' := by
  refine ⟨h'.work.trans h.work, fun place => ?_⟩
  rcases h.shown place with heq | ⟨hnone, hdir⟩
  · rw [← heq]
    exact h'.shown place
  · rcases h'.shown place with heq' | ⟨hnone', -⟩
    · exact .inr ⟨hnone, heq'.trans hdir⟩
    · rw [hdir] at hnone'
      cases hnone'

theorem Extends.keepsDirs (h : tree.Extends tree') : tree.KeepsDirs tree' := by
  refine ⟨h.work, fun place hdir => ?_⟩
  rcases h.shown place with heq | ⟨hnone, -⟩
  · rw [heq, hdir]
  · rw [hnone] at hdir
    cases hdir

theorem Stores.keepsDirs (h : tree.Stores place text tree') : tree.KeepsDirs tree' := by
  refine ⟨h.work, fun other hdir => ?_⟩
  by_cases hother : other = place
  · exact absurd (hother ▸ hdir) h.notDir
  · rcases h.elsewhere other hother with heq | ⟨hnone, -⟩
    · rw [heq, hdir]
    · rw [hnone] at hdir
      cases hdir

/-- Directories may be made before a text is stored. -/
theorem Extends.stores (h : tree.Extends tree') (h' : tree'.Stores place text tree'') :
    tree.Stores place text tree'' := by
  refine ⟨h'.work.trans h.work, h'.here, ?_, fun other hother => ?_⟩
  · intro hdir
    exact h'.notDir (h.keepsDirs.dirs place hdir)
  · rcases h.shown other with heq | ⟨hnone, hdir⟩
    · rw [← heq]
      exact h'.elsewhere other hother
    · rcases h'.elsewhere other hother with heq' | ⟨hnone', -⟩
      · exact .inr ⟨hnone, heq'.trans hdir⟩
      · rw [hdir] at hnone'
        cases hnone'

/-- Both trees hold the same files with the same texts. -/
def SameFiles (tree tree' : FileTree) : Prop :=
  ∀ place, tree'.fileAt? place = tree.fileAt? place

/-- The path leads to a file with the text now, where it led before if it led anywhere, and no other file has
changed. -/
def OnlyWrites (tree : FileTree) (path text : String) (tree' : FileTree) : Prop :=
  ∃ place, tree'.Leads path place ∧ (∀ other, tree.Leads path other → other = place) ∧
    tree'.fileAt? place = some text ∧ ∀ other, other ≠ place → tree'.fileAt? other = tree.fileAt? other

/-- A place that is as it was, or a new directory, has the file that it had. -/
theorem fileAt?_eq_of_shown (h : tree'.shown? place = tree.shown? place ∨
    (tree.shown? place = none ∧ tree'.shown? place = some .dir)) : tree'.fileAt? place = tree.fileAt? place := by
  refine Option.ext fun text => ?_
  rw [fileAt?_eq_some, fileAt?_eq_some]
  rcases h with heq | ⟨hnone, hdir⟩
  · rw [heq]
  · simp [hnone, hdir]

/-- New directories are no files. -/
theorem Extends.sameFiles (h : tree.Extends tree') : tree.SameFiles tree' :=
  fun place => fileAt?_eq_of_shown (h.shown place)

theorem Stores.onlyWrites (h : tree.Stores place text tree') (hleads : tree'.Leads path place) :
    tree.OnlyWrites path text tree' :=
  ⟨place, hleads, fun _ hother => (h.keepsDirs.leads hother).unique hleads, fileAt?_eq_some.mpr h.here,
    fun other hne => fileAt?_eq_of_shown (h.elsewhere other hne)⟩

/-- **Writing stores the text where the path leads.** -/
theorem stores_of_write? (h : tree.write? path text = some tree') :
    ∃ place, tree.Leads path place ∧ tree.Stores place text tree' := by
  unfold write? at h
  split at h
  · cases h
  · next place hplace =>
      split at h
      · cases h
      · next hfree =>
          obtain ⟨root, hroot, rfl⟩ := Option.map_eq_some_iff.mp h
          have hnotDir : tree.shown? place ≠ some .dir := by
            intro hdir
            rw [shown?_eq, Option.map_eq_some_iff] at hdir
            obtain ⟨entry, hentry, hshown⟩ := hdir
            cases entry with
            | file found => cases hshown
            | dir entries => exact hfree entries hentry
          refine ⟨place, hplace, rfl, Entry.shownAt?_put? hroot, hnotDir, fun other hother => .inl ?_⟩
          exact Entry.shownAt?_put?_of_ne (fun _ _ => rfl) hnotDir hroot hother

/-- A new directory stands where nothing was. -/
theorem extends_of_makeDirectory (h : tree.makeDirectory path = .ok tree') : tree.Extends tree' := by
  unfold makeDirectory at h
  cases hplace : tree.place (path.toList.reverse.dropWhile (· == '/')).reverse with
  | error detour => simp [hplace, bind, Except.bind] at h
  | ok place =>
      simp only [hplace, bind, Except.bind] at h
      split at h
      · cases h
      · next hnone =>
          split at h
          · next root hroot =>
              cases h
              have hshown : tree.shown? place = none := by rw [shown?_eq, hnone, Option.map_none]
              refine ⟨rfl, fun other => ?_⟩
              by_cases hother : other = place
              · subst hother
                exact .inr ⟨hshown, Entry.shownAt?_put? hroot⟩
              · refine .inl (Entry.shownAt?_put?_of_ne ?_ (by rw [← shown?, hshown]; simp) hroot hother)
                intro name names
                rw [Entry.shownAt?_cons_dir, Entries.get?_nil, Option.bind_none]
          · cases h

/-- Making directories only makes directories, whether or not it gets to the last one. -/
theorem extends_of_makeDirectories (depth : Nat) (tree : FileTree) (path : String) :
    tree.Extends (tree.makeDirectories depth path).2 := by
  induction depth generalizing tree path with
  | zero => exact .refl tree
  | succ depth ih =>
      rw [makeDirectories]
      split
      · exact .refl tree
      · split
        · next made hmade => exact extends_of_makeDirectory hmade
        · split
          · exact .refl tree
          · next parent _ =>
              have hparents := ih tree parent
              split
              · next made heq => rwa [heq] at hparents
              · next made heq =>
                  rw [heq] at hparents
                  split
                  · next last hlast => exact hparents.trans (extends_of_makeDirectory hlast)
                  · exact hparents
        · exact .refl tree

end FileTree

end ZodRoutes.Cli
