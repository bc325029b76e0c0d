import LineShell.Proofs.WholePrepend

/-!
# The scratch file of a prepend goes away

A prepend that finds no entry under the scratch file's name makes one. On every path from there on
it tries to take this entry away again, and if that fails it says nothing.

* `Unaltered`: what a prepend that is refused before its target is emptied does to the tree
  (`prepare_refused`).
* `Stays`: what a program may do that leaves the entry alone. It may still change the permissions of
  the directory, and of those on the way to it.
* `finish_gone_iff`: the entry goes away just if the scratch file's path still leads to it and
  entries of its directory may be changed then.
* `prepend_cleans_up`: every prepend to an existing file. `sealed_directory_keeps_scratch` is one
  that leaves the entry behind.
-/
namespace LineShell

open LineShell.Action (stateAfter)

namespace Tree

/-! ## Nothing is different -/

/-- Nothing is different, but that there may be one more file, which no directory names. -/
def Unaltered (t t' : Tree) : Prop :=
  t' = t ∨ ∃ mode data, t' = (t.add (.file mode data)).2

section Unaltered

variable {t t' : Tree} {i : Ino}

/-- A tree with one more file than another is this other tree with the file added. -/
theorem eq_add {n : Node} (hnew : t.node? i = none) (hi : t'.node? i = some n)
    (hothers : ∀ j, j ≠ i → t'.node? j = t.node? j) : t' = (t.add n).2 := by
  have hle : t.nodes.length ≤ i := List.getElem?_eq_none_iff.1 hnew
  obtain rfl : i = t.nodes.length := by
    -- otherwise the number after the last one of `t` is skipped
    refine Nat.le_antisymm (Nat.le_of_not_lt fun hlt => ?_) hle
    have hnone : t'.node? t.nodes.length = none :=
      (hothers _ (Nat.ne_of_lt hlt)).trans (List.getElem?_eq_none (Nat.le_refl _))
    have hshort : t'.nodes.length ≤ t.nodes.length := List.getElem?_eq_none_iff.1 hnone
    have hlong : i < t'.nodes.length := (List.getElem?_eq_some_iff.1 hi).1
    exact Nat.lt_irrefl i (Nat.lt_of_lt_of_le hlong (Nat.le_trans hshort (Nat.le_of_lt hlt)))
  have hnodes : t'.nodes = t.nodes ++ [n] := by
    refine List.ext_getElem? fun j => ?_
    by_cases hj : j = t.nodes.length
    · subst hj
      rw [List.getElem?_concat_length]
      exact hi
    · refine (hothers j hj).trans ?_
      unfold node?
      rcases Nat.lt_or_gt_of_ne hj with hlt | hgt
      · rw [List.getElem?_append_left hlt]
      · rw [List.getElem?_eq_none (Nat.le_of_lt hgt), List.getElem?_eq_none]
        rw [List.length_append]
        exact hgt
  cases t'
  cases hnodes
  rfl

theorem skeleton_add_file (t : Tree) (mode : Mode) (data : Bytes) (j : Ino) :
    (t.add (.file mode data)).2.skeleton j = t.skeleton j := by
  unfold skeleton node? add
  rcases Nat.lt_trichotomy j t.nodes.length with hlt | rfl | hgt
  · simp only [List.getElem?_append_left hlt]
  · simp
  · have hout : (t.nodes ++ [Node.file mode data]).length ≤ j := by
      rw [List.length_append]
      exact hgt
    rw [List.getElem?_eq_none (Nat.le_of_lt hgt), List.getElem?_eq_none hout]

/-- Every walk is what it was. -/
theorem Unaltered.locate (h : Unaltered t t') (follow : Bool) (path : Bytes) :
    t'.locate follow path = t.locate follow path := by
  rcases h with rfl | ⟨mode, data, rfl⟩
  · rfl
  · exact locate_congr (skeleton_add_file t mode data) follow path

end Unaltered

/-! ## The entry of a file -/

section Entry

variable {t t' : Tree} {name scratch : Bytes} {d : Ino} {i : Ino}

/-- A program has left an entry of a directory alone: it is there as before, and names a file that
looks the same to walks. -/
structure Stays (t t' : Tree) (d : Ino) (name : Bytes) : Prop where
  entry : (t'.entries d).lookup name = (t.entries d).lookup name
  leaf : ∀ i, (t.entries d).lookup name = some i → t'.skeleton i = t.skeleton i

theorem entries_eq_of_skeleton (h : t'.skeleton d = t.skeleton d) : t'.entries d = t.entries d := by
  unfold skeleton at h
  unfold entries
  cases hn : t.node? d with
  | none => cases hn' : t'.node? d with
    | none => rfl
    | some n' => cases n' <;> simp_all
  | some n => cases hn' : t'.node? d with
    | none => cases n <;> simp_all
    | some n' => cases n <;> cases n' <;> simp_all

theorem Stays.of_skeleton (h : ∀ j, t'.skeleton j = t.skeleton j) (d : Ino) (name : Bytes) :
    t.Stays t' d name :=
  ⟨by rw [entries_eq_of_skeleton (h d)], fun i _ => h i⟩

theorem entries_directory {mode : Mode} {es : Entries} (h : t.node? d = some (.directory mode es)) :
    t.entries d = es := by
  unfold entries
  rw [h]

/-- What a trail ends with is an entry of the directory before it. -/
theorem entry_of_find {dir : Trail} {follow : Bool} {path : Bytes}
    (hf : t.find follow path = .ok ((name, i) :: dir)) :
    (t.entries dir.here).lookup name = some i := by
  obtain ⟨-, -, mode, es, hd, hl⟩ := find_valid hf
  rw [entries_directory hd]
  exact hl

theorem lookup_unbind {name' : Bytes} {d' : Ino} :
    ((t.unbind d' name').entries d).lookup name =
      if d = d' ∧ name = name' then none else (t.entries d).lookup name := by
  by_cases hd : d = d'
  · subst hd
    unfold unbind
    cases hn : t.node? d with
    | none => simp [entries, hn]
    | some n =>
      cases n with
      | directory mode es =>
        simp only [entries, node?_put_self hn, hn, true_and]
        by_cases hname : name = name'
        · rw [if_pos hname, hname, Entries.lookup_filter_self]
        · rw [if_neg hname, Entries.lookup_filter_ne es hname]
      | file mode data => simp [entries, hn]
      | link target => simp [entries, hn]
      | null => simp [entries, hn]
  · rw [if_neg fun h => hd h.1]
    unfold entries
    rw [node?_unbind_ne hd]

/-- The entry of a file that is neither a directory nor a link goes away just if the path leads to
it and entries of its directory may be changed. -/
theorem withoutScratch_gone_iff (scratch : Bytes) (hentry : (t.entries d).lookup name = some i)
    (hleaf : t.skeleton i = none) :
    ((Shell.withoutScratch scratch t).entries d).lookup name = none ↔
      ∃ dir : Trail, t.find false scratch = .ok ((name, i) :: dir) ∧ dir.here = d ∧
        t.mayChange dir = true := by
  constructor
  · intro hgone
    unfold Shell.withoutScratch at hgone
    split at hgone
    · rename_i hu
      obtain ⟨name', i', dir, hf, hmay, rfl⟩ := unlink_cases hu
      rw [lookup_unbind] at hgone
      split at hgone
      · rename_i heq
        obtain ⟨rfl, rfl⟩ := heq
        have hfound := entry_of_find hf
        rw [hentry] at hfound
        cases hfound
        exact ⟨dir, hf, rfl, hmay⟩
      · rw [hentry] at hgone
        cases hgone
    · rw [hentry] at hgone
      cases hgone
  · rintro ⟨dir, hf, rfl, hmay⟩
    have hr : t.Removable scratch dir name i := ⟨locate_of_find hf, hleaf, hmay⟩
    rw [hr.withoutScratch_eq, lookup_unbind, if_pos ⟨rfl, rfl⟩]

/-- Then no entry stands under the path. -/
theorem withoutScratch_nothing {dir : Trail} (hf : t.find false scratch = .ok ((name, i) :: dir))
    (hleaf : t.skeleton i = none) (hmay : t.mayChange dir = true) (trail : Trail) :
    (Shell.withoutScratch scratch t).find false scratch ≠ .ok trail := by
  intro hf'
  have hr : t.Removable scratch dir name i := ⟨locate_of_find hf, hleaf, hmay⟩
  have hmissing := hr.withoutScratch
  rw [locate_of_find hf'] at hmissing
  cases hmissing

end Entry

end Tree

namespace Shell

open LineShell.Tree

/-! ## Before the program -/

section Prepare

variable {t : Tree} {s : Shell} {target scratch : Bytes} {file aside : Ino}

/-- A file has just been made, and its content has changed since. Without its name nothing is
different. -/
theorem withoutScratch_created {made u : Tree} {m : Mode} {dir : Trail} {name data : Bytes}
    (hmade : Created m t made dir name aside)
    (hl : t.locate false scratch = .ok (.missing dir name false))
    (hs : ∀ j, u.skeleton j = made.skeleton j) (hi : u.node? aside = some (.file m data))
    (hothers : ∀ j, j ≠ aside → u.node? j = made.node? j) :
    t.Unaltered (withoutScratch scratch u) := by
  have hremovable : made.Removable scratch dir name aside :=
    ⟨locate_named_self hmade.named hl rfl, skeleton_file hmade.file, hmade.mayChange⟩
  rw [(hremovable.congr hs).withoutScratch_eq]
  refine Or.inr ⟨m, data, eq_add hmade.new (node?_unbind_file.2 hi) fun j hj => ?_⟩
  rw [node?_unbind_congr (hothers _ hmade.dir_ne) (hothers j hj), hmade.node?_unbind hj]

/-- **Refused before the target is emptied.** Whatever the reason is, nothing is different but what
the disk takes. -/
theorem prepare_refused {cause : Failure} {after : Shell}
    (hnone : ∀ trail, s.system.files.find false scratch ≠ .ok trail)
    (h : prepare s target scratch = .refused cause after) :
    s.system.files.Unaltered after.system.files ∧ after.system.input = s.system.input := by
  have hcases := prepare_cases s target scratch
  rw [h] at hcases
  cases hcases with
  | refused => exact ⟨Or.inl rfl, rfl⟩
  | @givenUp old aside made part system _ _ _ ho _ hfiles hinput _ =>
    rw [removeScratch_eq]
    refine ⟨?_, hinput⟩
    rw [withFiles_files, withSystem_system, hfiles]
    obtain ⟨dir, name, hl, hmade⟩ := created_of_opens hnone ho
    refine withoutScratch_created hmade hl (fun j => ?_)
      (contents_append part (node?_truncate hmade.file)) fun j hj => ?_
    · rw [skeleton_append, skeleton_truncate]
    · rw [node?_append_ne part hj, node?_truncate_ne hj]

/-- When the program is looked for, the scratch file has its entry, and the target is empty. -/
theorem prepare_entry {before : Shell}
    (hnone : ∀ trail, s.system.files.find false scratch ≠ .ok trail)
    (h : prepare s target scratch = .ready file aside before) :
    ∃ dir name, s.system.files.locate false scratch = .ok (.missing dir name false) ∧
      (before.system.files.entries dir.here).lookup name = some aside ∧
      before.system.files.skeleton aside = none ∧ before.system.files.contents file = [] := by
  obtain ⟨old, made, ho, -, hfiles⟩ := prepare_ready h
  rw [hfiles]
  obtain ⟨dir, name, hl, hmade⟩ := created_of_opens hnone ho
  have hs := skeleton_staged made file aside ((made.truncate aside).contents old)
  refine ⟨dir, name, hl, ?_, (hs aside).trans (skeleton_file hmade.file), contents_truncate _ file⟩
  have hlocated := locate_named_self hmade.named hl rfl
  exact entry_of_find ((find_congr hs false scratch).trans (find_of_locate hlocated))

end Prepare

/-! ## The program and what follows -/

section After

variable (programs : Programs) (config : Config) (argv : List Bytes) (target : Bytes) (s : Shell)

/-- The program that a prepend starts, if it starts one, leaves the entry of the scratch file
alone. -/
def ScratchStays : Prop :=
  ∀ file aside before,
    prepare s (s.env.resolve target) (s.env.resolve config.scratch) = .ready file aside before →
    ∀ dir name,
      s.system.files.locate false (s.env.resolve config.scratch) = .ok (.missing dir name false) →
      ∀ ended, childOf programs argv file [file, aside] before = some ended →
        before.system.files.Stays ended.system.files dir.here name

/-- So does the error message in the place of a program. -/
theorem ranInto_stays (target : Bytes) {name : Bytes} {file d : Ino} {held : List Ino}
    {before : Shell} (h : ∀ ended, childOf programs argv file held before = some ended →
      before.system.files.Stays ended.system.files d name) :
    before.system.files.Stays (ranInto programs argv target file held before).system.files d
      name :=
  ranInto_files_of (before.system.files.Stays · d name)
    (fun part => .of_skeleton (skeleton_write _ file 0 part) d name) h

variable {s}

/-- **Cleaning up.** Whether the content can be put back or not, the entry of the scratch file goes
away just if its path leads to it and entries of its directory may be changed. Then no entry stands
under the path. -/
theorem finish_gone_iff (target : Bytes) (ran : Except Failure Unit) {scratch name : Bytes}
    {d aside : Ino} (hentry : (s.system.files.entries d).lookup name = some aside)
    (hleaf : s.system.files.skeleton aside = none) :
    (((stateAfter (finish target scratch aside ran s)).system.files.entries d).lookup name = none ↔
      ∃ dir : Trail, s.system.files.find false scratch = .ok ((name, aside) :: dir) ∧
        dir.here = d ∧ s.system.files.mayChange dir = true) ∧
    (((stateAfter (finish target scratch aside ran s)).system.files.entries d).lookup name = none →
      ∀ trail, (stateAfter (finish target scratch aside ran s)).system.files.find false scratch ≠
        .ok trail) := by
  rw [stateAfter_finish, removeScratch_eq, withFiles_files]
  obtain ⟨file, part, hfiles⟩ := putBack_appends target aside s
  have hs := skeleton_append s.system.files file part
  rw [← hfiles] at hs
  generalize (stateAfter (putBack target aside s)).system.files = t at hs
  have hentry' : (t.entries d).lookup name = some aside := by
    rw [entries_eq_of_skeleton (hs d)]
    exact hentry
  have hleaf' : t.skeleton aside = none := (hs aside).trans hleaf
  have hiff := withoutScratch_gone_iff scratch hentry' hleaf'
  refine ⟨?_, fun hgone => ?_⟩
  · rw [hiff, find_congr hs]
    simp only [mayChange_congr hs]
  · obtain ⟨dir, hf, -, hmay⟩ := hiff.1 hgone
    exact withoutScratch_nothing hf hleaf' hmay

/-- **A prepend cleans up.** The target exists, no entry stands under the scratch file's name, and
the program leaves the entry alone that the prepend makes there. Then the prepend is refused before
the target is emptied, no program has been started and nothing is different. Or the target is
emptied, and in the end the entry is gone, and no other stands under the name, just if the name
still leads to the entry when the program has ended and entries of its directory may be changed. -/
theorem prepend_cleans_up (hexists : s.system.files.leadsToFile (s.env.resolve target) = true)
    (hnone : ∀ trail, s.system.files.find false (s.env.resolve config.scratch) ≠ .ok trail)
    (hstays : ScratchStays programs config argv target s) :
    (∃ cause system, redirect programs config argv target .prepend s =
        .error cause (s.withSystem system) ∧ system.input = s.system.input ∧
      s.system.files.Unaltered system.files ∧
      ∀ trail, system.files.find false (s.env.resolve config.scratch) ≠ .ok trail) ∨
    ∃ (file aside : Ino) (before : Shell) (dir : Trail) (name : Bytes) (after : Tree),
      prepare s (s.env.resolve target) (s.env.resolve config.scratch) =
        .ready file aside before ∧ before.system.files.contents file = [] ∧
      s.system.files.locate false (s.env.resolve config.scratch) = .ok (.missing dir name false) ∧
      after = (stateAfter (redirect programs config argv target .prepend s)).system.files ∧
      ((after.entries dir.here).lookup name = none ↔
        ∃ dir' : Trail, (ranInto programs argv (s.env.resolve target) file [file, aside]
            before).system.files.find false (s.env.resolve config.scratch) =
              .ok ((name, aside) :: dir') ∧ dir'.here = dir.here ∧
          (ranInto programs argv (s.env.resolve target) file [file, aside]
            before).system.files.mayChange dir' = true) ∧
      ((after.entries dir.here).lookup name = none →
        ∀ trail, after.find false (s.env.resolve config.scratch) ≠ .ok trail) := by
  rw [redirect_eq, hexists]
  simp only [putInFront_eq]
  cases hp : prepare s (s.env.resolve target) (s.env.resolve config.scratch) with
  | refused cause after =>
    left
    obtain ⟨hsame, hinput⟩ := prepare_refused hnone hp
    refine ⟨cause, after.system, ?_, hinput, hsame, fun trail hf => hnone trail ?_⟩
    · rw [← refused_system hp]
    · exact find_of_locate ((hsame.locate false _).symm.trans (locate_of_find hf))
  | ready file aside before =>
    right
    obtain ⟨dir, name, hl, hentry, hleaf, hempty⟩ := prepare_entry hnone hp
    have hleft := ranInto_stays programs argv (s.env.resolve target)
      (hstays file aside before hp dir name hl)
    obtain ⟨hiff, hnothing⟩ := finish_gone_iff (s.env.resolve target) _
      (hleft.entry.trans hentry) ((hleft.leaf _ hentry).trans hleaf)
    exact ⟨file, aside, before, dir, name, _, rfl, hempty, hl, rfl, hiff, hnothing⟩

end After

section Runs

open Bytes (ofString)

theorem plainOut_target : plainOut.LeadsTo (ofString "/out") [(ofString "out", 1)] ∧
    plainOut.node? 1 = some (.file 0o644 (ofString "old\n")) ∧
    ∀ trail, plainOut.find false (ofString "/temp") ≠ .ok trail := by
  refine ⟨rfl, rfl, fun trail h => ?_⟩
  cases h

theorem idle_scratchStays (config : Config) (argv : List Bytes) (target : Bytes) (s : Shell) :
    ScratchStays idle config argv target s := by
  intro file aside before hp dir name hl ended hc
  rw [idle_child hc]
  exact ⟨rfl, fun _ _ => rfl⟩

/-- A program that does nothing lets the entry go away. A directory as the target can be opened, but
not read, and the entry that was made by then goes away as well. -/
theorem plainOut_cleaned_up :
    plainOut.leadsToFile (ofString "/out") = true ∧ plainOut.leadsToFile (ofString "/.") = true ∧
    (∀ trail, plainOut.find false (ofString "/temp") ≠ .ok trail) ∧
    ScratchStays idle {} [ofString "/idle"] (ofString "out") (atRoot plainOut) ∧
    ScratchStays idle {} [ofString "/idle"] (ofString ".") (atRoot plainOut) ∧
    (∀ trail, (stateAfter (redirect idle {} [ofString "/idle"] (ofString "out") .prepend
      (atRoot plainOut))).system.files.find false (ofString "/temp") ≠ .ok trail) ∧
    ∃ system, redirect idle {} [ofString "/idle"] (ofString ".") .prepend (atRoot plainOut) =
        .error (.resource (ofString "/temp") (.os .isDirectory))
          ((atRoot plainOut).withSystem system) ∧
      plainOut.Unaltered system.files := by
  have hout : plainOut.leadsToFile (ofString "/out") = true := by decide
  have hdirectory : plainOut.leadsToFile (ofString "/.") = true := by decide
  have hnone := plainOut_target.2.2
  have hstays := fun target =>
    idle_scratchStays {} [ofString "/idle"] target (atRoot plainOut)
  refine ⟨hout, hdirectory, hnone, hstays _, hstays _, ?_, ?_⟩
  · obtain ⟨cause, system, hr, -⟩ |
        ⟨file, aside, before, dir, name, after, hp, -, hl, rfl, hiff, hnothing⟩ :=
      prepend_cleans_up idle {} [ofString "/idle"] (ofString "out") hout hnone (hstays _)
    · cases hr
    · cases hp
      cases hl
      exact hnothing (hiff.2 ⟨[], rfl, rfl, by decide⟩)
  · obtain ⟨cause, system, hr, -, hsame, -⟩ | ⟨file, aside, before, dir, name, after, hp, -⟩ :=
      prepend_cleans_up idle {} [ofString "/idle"] (ofString ".") hdirectory hnone (hstays _)
    · have hcause : cause = .resource (ofString "/temp") (.os .isDirectory) := by
        cases hr
        rfl
      exact ⟨system, hcause ▸ hr, hsame⟩
    · cases hp

/-- Programs that forbid to change the entries of the root directory, and end. -/
def sealing : Programs :=
  ⟨fun _ _ _ system => (system.files.setMode (ofString "/") 0o555).map fun files =>
    ⟨{ system with files }, []⟩⟩

/-- **Counterexample**: a program that leaves the scratch file's entry alone, but not the
permissions of its directory. The prepend succeeds, and the entry stays. -/
theorem sealed_directory_keeps_scratch :
    plainOut.leadsToFile (ofString "/out") = true ∧
    (∀ trail, plainOut.find false (ofString "/temp") ≠ .ok trail) ∧
    ScratchStays sealing {} [ofString "/idle"] (ofString "out") (atRoot plainOut) ∧
    ∃ s', redirect sealing {} [ofString "/idle"] (ofString "out") .prepend (atRoot plainOut) =
        .ok () s' ∧
      s'.system.files.find false (ofString "/temp") = .ok [(ofString "temp", 3)] := by
  refine ⟨by decide, plainOut_target.2.2, ?_, _, rfl, rfl⟩
  intro file aside before hp dir name hl ended hc
  cases hp
  cases hl
  cases hc
  refine ⟨rfl, fun i hi => ?_⟩
  cases hi
  rfl

end Runs

end Shell

end LineShell
