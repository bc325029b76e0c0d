import LineShell.Proofs.InputPlaces
import LineShell.Proofs.LastCommand
import LineShell.Proofs.LimitedOutput
import LineShell.Proofs.WholePrepend

/-!
# Files without a name

Standard input may be a file that no directory names, or that has lost its names. No path leads to
it, so nothing that the shell does with paths has to do with it, and it stands still as long as
programs leave it alone.

* `Nameless`: the file with its number, which is in no directory. One lemma for each operation on
  trees.
* `nameless_redirect`, `nameless_alongRuns`: so the shell leaves the file alone.
* `nameless_standsStill`: a session that reads the file finds it as it was.
-/
namespace LineShell

open LineShell.Action (stateAfter Across)

namespace Tree

/-- What is read depends on the file alone. -/
theorem read_congr {t t' : Tree} {i : Ino} (h : t'.node? i = t.node? i) : t'.read i = t.read i := by
  unfold read contents
  rw [h]

/-- The file is in no directory. -/
structure Nameless (t : Tree) (i : Ino) (n : Node) : Prop where
  node : t.node? i = some n
  notRoot : i ≠ root
  unnamed : ∀ dir mode es name, t.node? dir = some (.directory mode es) →
    es.lookup name ≠ some i

variable {t t' : Tree} {i j : Ino} {n : Node}

/-- It matters only what walks see, and the file itself. -/
theorem Nameless.congr (h : t.Nameless i n) (hs : ∀ j, t'.skeleton j = t.skeleton j)
    (hi : t'.node? i = t.node? i) : t'.Nameless i n where
  node := hi.trans h.node
  notRoot := h.notRoot
  unnamed dir mode es name hd := by
    rw [← skeleton_directory_iff, hs, skeleton_directory_iff] at hd
    exact h.unnamed dir mode es name hd

theorem Nameless.write (h : t.Nameless i n) (hj : j ≠ i) (start : Nat) (bs : Bytes) :
    (t.write j start bs).Nameless i n :=
  h.congr (skeleton_write t j start bs) (node?_write_ne start bs hj.symm)

theorem Nameless.truncate (h : t.Nameless i n) (hj : j ≠ i) : (t.truncate j).Nameless i n :=
  h.congr (skeleton_truncate t j) (node?_truncate_ne hj.symm)

theorem Nameless.append (h : t.Nameless i n) (hj : j ≠ i) (bs : Bytes) :
    (t.append j bs).Nameless i n := h.write hj _ bs

/-- No trail ends at the file. -/
theorem Nameless.here_ne (h : t.Nameless i n) {trail : Trail} (hv : trail.Valid t) :
    trail.here ≠ i := by
  cases trail with
  | nil => exact h.notRoot.symm
  | cons e dir =>
    obtain ⟨-, -, mode, es, hd, hl⟩ := hv
    rintro rfl
    exact h.unnamed _ mode es e.1 hd hl

theorem Nameless.openExisting_ne (h : t.Nameless i n) {access : Access} {path : Bytes}
    (ho : onName path (t.openExisting access path) = .ok j) : j ≠ i := by
  obtain ⟨trail, hl, rfl⟩ := numberAt_of_openExisting ho
  exact h.here_ne (find_valid (leadsTo_iff.1 hl).2)

theorem Nameless.created (h : t.Nameless i n) {made : Mode} {dir : Trail} {name : Bytes}
    (hdir : dir.here ≠ i) (hc : Created made t t' dir name j) : t'.Nameless i n ∧ j ≠ i := by
  have hne : j ≠ i := by
    rintro rfl
    have hnode := h.node
    rw [hc.new] at hnode
    cases hnode
  obtain ⟨mode, es, hd, -, -, hfree, hd'⟩ := hc.free
  refine ⟨⟨(hc.others i hdir.symm hne.symm).trans h.node, h.notRoot, ?_⟩, hne⟩
  intro k mode' es' name' hk
  by_cases hkd : k = dir.here
  · subst hkd
    rw [hd'] at hk
    cases hk
    by_cases hn : name' = name
    · subst hn
      rw [Entries.lookup_append_self hfree]
      exact fun e => hne (Option.some.inj e)
    · rw [Entries.lookup_append_ne hn]
      exact h.unnamed _ _ es name' hd
  · have hkj : k ≠ j := by
      rintro rfl
      rw [hc.file] at hk
      cases hk
    rw [hc.others k hkd hkj] at hk
    exact h.unnamed k mode' es' name' hk

theorem Nameless.openCreating (h : t.Nameless i n) {access : Access} {made : Mode} {path : Bytes}
    (ho : onName path (t.openCreating access made path) = .ok (j, t')) :
    t'.Nameless i n ∧ j ≠ i := by
  rcases openCreating_cases (onName_ok_iff.1 ho).2 with
    ⟨rfl, trail, hf, rfl, -⟩ | ⟨dir, name, hl, hc⟩
  · exact ⟨h, h.here_ne (find_valid hf)⟩
  · exact h.created (h.here_ne (locate_sound hl).1) hc

theorem Nameless.unbind (h : t.Nameless i n) {dir : Ino} (hdir : dir ≠ i) (name : Bytes) :
    (t.unbind dir name).Nameless i n where
  node := (node?_unbind_ne hdir.symm).trans h.node
  notRoot := h.notRoot
  unnamed k mode es name' hk := by
    rw [← skeleton_directory_iff, skeleton_unbind] at hk
    split at hk
    · rename_i hkd
      subst hkd
      obtain ⟨node, hnode, hes⟩ := Option.map_eq_some_iff.1 hk
      cases node with
      | directory mode' es' =>
        cases hes
        by_cases hn : name' = name
        · subst hn
          rw [Entries.lookup_filter_self]
          exact nofun
        · rw [Entries.lookup_filter_ne es' hn]
          exact h.unnamed k mode es' name' (skeleton_directory_iff.1 hnode)
      | _ => cases hes
    · exact h.unnamed k mode es name' (skeleton_directory_iff.1 hk)

theorem Nameless.withoutScratch (h : t.Nameless i n) (scratch : Bytes) :
    (Shell.withoutScratch scratch t).Nameless i n := by
  unfold Shell.withoutScratch
  split
  · rename_i hu
    obtain ⟨name, _, dir, hf, -, rfl⟩ := unlink_cases hu
    exact h.unbind (h.here_ne (find_valid hf).1) name
  · exact h

end Tree

/-- No program changes the file or gives it a name, unless it has it open. -/
def LeavesNameless (programs : Programs) (i : Ino) (n : Node) : Prop :=
  ∀ order output held system ended, system.files.Nameless i n → output ≠ .file i → i ∉ held →
    programs.run order output held system = .ok ended → ended.system.files.Nameless i n

namespace Shell

open LineShell.Tree

variable {programs : Programs} (config : Config) {i : Ino} {n : Node}

/-- The file is left alone. -/
def KeepsNameless (i : Ino) (n : Node) (s s' : Shell) : Prop :=
  s.system.files.Nameless i n → s'.system.files.Nameless i n

/-! ## Redirections -/

/-- A prepend opens other files. -/
theorem nameless_prepare {s : Shell} (h : s.system.files.Nameless i n) (target scratch : Bytes) :
    match prepare s target scratch with
    | .refused _ after => after.system.files.Nameless i n
    | .ready file aside before => before.system.files.Nameless i n ∧ file ≠ i ∧ aside ≠ i := by
  have hcases := prepare_cases s target scratch
  generalize prepare s target scratch = p at hcases
  cases hcases with
  | refused => exact h
  | @givenUp old aside made part system cause _ _ hopen _ hfiles _ _ =>
    obtain ⟨hmade, haside⟩ := h.openCreating hopen
    simp only [removeScratch_eq, withFiles_files, withSystem_system, hfiles]
    exact ((hmade.truncate haside).append haside part).withoutScratch scratch
  | @ready old aside file made system _ _ hopen hfiles _ hwrite =>
    obtain ⟨hmade, haside⟩ := h.openCreating hopen
    have hcopied : system.files.Nameless i n :=
      hfiles ▸ (hmade.truncate haside).append haside ((made.truncate aside).contents old)
    have hne := hcopied.openExisting_ne hwrite
    exact ⟨hcopied.truncate hne, hne, haside⟩

theorem nameless_finish (target scratch : Bytes) (aside : Ino) (ran : Except Failure Unit) :
    Across (KeepsNameless i n) (finish target scratch aside ran) := by
  intro s h
  rw [stateAfter_finish, removeScratch_eq, withFiles_files]
  refine Nameless.withoutScratch ?_ scratch
  rcases putBack_cases target aside s with ⟨e, -, hback⟩ | ⟨file, part, hopen, hfiles, -⟩
  · rw [hback]
    exact h
  · rw [hfiles]
    exact h.append (h.openExisting_ne hopen) part

variable (hprograms : LeavesNameless programs i n)
include hprograms

theorem nameless_ranInto {s : Shell} (h : s.system.files.Nameless i n) (argv : List Bytes)
    (target : Bytes) {file : Ino} (hfile : file ≠ i) {held : List Ino} (hheld : i ∉ held) :
    (ranInto programs argv target file held s).system.files.Nameless i n := by
  refine ranInto_files_of (Nameless · i n) (fun part => h.write hfile 0 part) fun ended hc => ?_
  obtain ⟨order, -, he, -⟩ := runInto_child target hc
  exact hprograms _ _ _ s.system.answered _ h (fun e => hfile (Destination.file.inj e)) hheld
    (run_of_endedInto he)

theorem nameless_redirect (argv : List Bytes) (target : Bytes) (op : Operator) :
    Across (KeepsNameless i n) (redirect programs config argv target op) := by
  intro s h
  rw [redirect_eq]
  split
  · exact h
  · rw [putInFront_eq]
    have hprepared := nameless_prepare h (s.env.resolve target) (s.env.resolve config.scratch)
    split
    · rename_i hp
      rw [hp] at hprepared
      exact hprepared
    · rename_i file aside before hp
      rw [hp] at hprepared
      obtain ⟨hfiles, hfile, haside⟩ := hprepared
      exact nameless_finish _ _ _ _ _ (nameless_ranInto hprograms hfiles argv _ hfile
        (by simp [hfile.symm, haside.symm]))
  · rw [intoNewFile_eq]
    split
    · exact h
    · rename_i file files ho
      obtain ⟨hfiles, hfile⟩ := h.openCreating ho
      exact nameless_ranInto hprograms (s := s.withFiles files) hfiles argv _ hfile
        (by simp [hfile.symm])

/-! ## Commands -/

theorem nameless_start (program : Bytes) (argv : List Bytes) :
    Across (KeepsNameless i n) (start programs program argv .terminal []) := by
  intro s h
  unfold start
  split
  · exact h
  · simp only
    split
    · exact h
    · split
      · exact h
      · rename_i hran
        have hended := hprograms _ .terminal [] _ _ h nofun List.not_mem_nil hran
        simp only [stateAfter]
        split
        · exact hended
        · exact hended

omit hprograms in
/-- Built-in commands do nothing to the system. -/
theorem builtin_system (b : Builtin) (words : List Bytes) :
    Across (fun s s' => s'.system = s.system) (b.run words) := by
  have hsay : ∀ bytes, Across (fun s s' => s'.system = s.system) (say bytes) := by
    intro bytes s
    unfold say
    rcases s.transcript.say bytes with ⟨e | u, transcript⟩ <;> rfl
  have hgoTo : ∀ target, Across (fun s s' => s'.system = s.system) (goTo target) := by
    intro target s
    unfold goTo
    split <;> rfl
  unfold Builtin.run
  split
  · exact fun _ => rfl
  · intro s
    unfold obey
    split
    · rfl
    · exact hgoTo _ s
    · split
      · rfl
      · exact hgoTo _ s
    · exact ((hsay _).bind (fun h h' => h'.trans h) fun _ => hsay _).orFail _ s

theorem nameless_runCommand (raw : Bytes) :
    Across (KeepsNameless i n) (runCommand programs config raw) := by
  have hnoting : ∀ {x : Action Shell Failure Unit}, Across (KeepsNameless i n) x →
      Across (KeepsNameless i n) (noting raw x) := by
    intro x hx s h
    have hxs := hx s h
    unfold noting
    cases hr : x s with
    | ok u s' =>
      rw [hr] at hxs
      exact hxs
    | error e s' =>
      rw [hr] at hxs
      exact hxs
  unfold runCommand
  split
  · exact hnoting fun _ h => h
  · exact fun _ h => h
  · refine hnoting ?_
    unfold perform
    split
    · exact fun _ h => h
    · exact fun _ h => h
    · intro s h
      rw [run, handle_eq]
      split
      · exact h
      · rename_i b _
        show (stateAfter (b.run _ s)).system.files.Nameless i n
        rw [builtin_system b _ s]
        exact h
      · exact nameless_start hprograms _ _ s h
    · exact nameless_redirect config hprograms _ _ _

theorem nameless_alongRuns : AlongRuns programs config (KeepsNameless i n) where
  refl _ h := h
  trans h h' hs := h' (h hs)
  say bytes s h := by
    unfold Shell.say
    rcases s.transcript.say bytes with ⟨e | u, transcript⟩
    · exact h
    · exact h
  command := nameless_runCommand config hprograms

end Shell

namespace Session

/-- A file without a name stands still if programs leave it alone. -/
theorem nameless_standsStill {programs : Programs} (config : Config) (mode : SessionMode) {i : Ino}
    {n : Node} (hprograms : LeavesNameless programs i n) {s : Shell}
    (h : s.system.files.Nameless i n) (pos : Nat) :
    StandsStill programs config mode s (some (i, pos)) := by
  have hread : Across (OnShells (Shell.KeepsNameless i n))
      (read config : Action (Shell × List Piece) IoError _) := by
    intro s h
    rw [read_shell]
    exact h
  rintro _ ⟨⟩ s' hreached
  have hs' := across_reaches (Shell.nameless_alongRuns config hprograms) hread hreached h
  exact Tree.read_congr (hs'.node.trans h.node.symm)

end Session

end LineShell
