/-
How commands change a tree of files.

Everything is read before anything is written, so a command that fails to read leaves the tree as it is.  What
is written is one file: the directories above it may be made first, and when they cannot be made, or the file
cannot be written, no file has changed.
-/
import ZodRoutes.Cli.Command
import ZodRoutes.Proofs.Cli.FileTree

namespace ZodRoutes.Cli

open Document (Route)

variable {tree tree' : FileTree} {path text : String}

/-! ### Writing a module -/

theorem extends_makeParents (tree : FileTree) (path : String) : tree.Extends (makeParents tree path).2 := by
  unfold makeParents
  split
  · exact .refl tree
  · next parent _ =>
      have hmade := FileTree.extends_of_makeDirectories (parent.length + 1) tree parent
      split
      · exact .refl tree
      · split
        · next made heq => exact (congrArg Prod.snd heq) ▸ hmade
        · next made heq => exact (congrArg Prod.snd heq) ▸ hmade

/-- What becomes of a tree to which a text is written. -/
inductive Writing (tree : FileTree) (path text : String) : Except WriteError Written → FileTree → Prop
  | unchanged (held : tree.read? path = some text) : Writing tree path text (.ok .unchanged) tree
  | written {place : List String} {tree' : FileTree} (leads : tree'.Leads path place)
      (stores : tree.Stores place text tree') :
      Writing tree path text (.ok (.written text.utf8ByteSize)) tree'
  | failed {e : WriteError} {tree' : FileTree} (extended : tree.Extends tree') :
      Writing tree path text (.error e) tree'

theorem writing_writeModule (tree : FileTree) (path text : String) :
    Writing tree path text (writeModule false tree path text).1 (writeModule false tree path text).2 := by
  unfold writeModule
  rw [if_neg Bool.false_ne_true]
  split
  · next hheld => exact .unchanged (by simpa using hheld)
  · have hparents := extends_makeParents tree path
    split
    · next e made heq => exact .failed (congrArg Prod.snd heq ▸ hparents)
    · next made heq =>
        rw [heq] at hparents
        split
        · next tree' hwrite =>
            obtain ⟨place, hleads, hstores⟩ := FileTree.stores_of_write? hwrite
            exact .written (hstores.keepsDirs.leads hleads) (hparents.stores hstores)
        · exact .failed hparents

/-- **Writing is exact or leaves all files alone.** -/
theorem Writing.onlyWrites_or_sameFiles {result : Except WriteError Written}
    (h : Writing tree path text result tree') :
    (∃ written, result = .ok written ∧ tree.OnlyWrites path text tree') ∨
      ∃ e, result = .error e ∧ tree.SameFiles tree' := by
  cases h with
  | unchanged held =>
      obtain ⟨place, hleads, hshown⟩ := FileTree.read?_eq_some.mp held
      exact .inl ⟨_, rfl, place, hleads, fun _ hother => hother.unique hleads,
        FileTree.fileAt?_eq_some.mpr hshown, fun _ _ => rfl⟩
  | written leads stores => exact .inl ⟨_, rfl, stores.onlyWrites leads⟩
  | failed extended => exact .inr ⟨_, rfl, extended.sameFiles⟩

end ZodRoutes.Cli
