import LineShell.Proofs.PrependFrame

/-!
# The tree around one target

`Tree.Settled` says that a target is missing and can be made, or is a regular file with some
content, and that the scratch file's name is free. A redirection takes a settled tree to a settled
tree: the lemmas here follow it through its steps.

* `Settled.create`: a missing target is made, empty.
* `Settled.prepare`: an existing target is emptied, with its content aside (`Poised`), or the
  prepend is refused and the tree is settled as before.
* `Wrote`: what the program then does. It fills the target and leaves everything else alone.
* `Poised.finish`: the old content comes behind the new, if the disk takes it. Then the tree is
  settled again (`Poised.append`, `Poised.withoutScratch`).
-/
namespace LineShell

namespace Tree

/-- The shell can make a file at the path: its walk ends, behind all links, at a free name in a
directory whose entries may be changed. -/
structure Creatable (t : Tree) (path : Bytes) (dir : Trail) (name : Bytes) : Prop where
  noZero : path.contains 0 = false
  noSlash : (Path.endsWithSlash path && !(Path.withoutSlash path).isEmpty) = false
  located : t.locate true path = .ok (.missing dir name false)
  mayChange : t.mayChange dir = true

/-- Nothing stands under the scratch file's name, and the shell can make a file there. -/
def ScratchFree (t : Tree) (scratch : Bytes) : Prop :=
  ∃ dir name, t.locate false scratch = .ok (.missing dir name false) ∧
    t.Creatable scratch dir name

/-- What stands at a target. Nothing: then a file can be made there, with the permissions `made`,
though not in the scratch file's place. Or a regular file with some content. If `permitted` says so,
the owner may both read and write the one or the other. -/
def Holds (t : Tree) (made : Mode) (target scratch : Bytes) (permitted : Bool) :
    Option Bytes → Prop
  | none => permitted = (made.readable && made.writable) ∧ ∃ dir name, t.Creatable target dir name ∧
      ∀ dir' name', t.locate true scratch = .ok (.missing dir' name' false) →
        ¬ (dir'.here = dir.here ∧ name' = name)
  | some content => target.contains 0 = false ∧ ∃ trail mode, t.find true target = .ok trail ∧
      t.node? trail.here = some (.file mode content) ∧
      permitted = (mode.readable && mode.writable)

/-- The target holds some content or is missing, and the scratch file's name is free. -/
structure Settled (t : Tree) (made : Mode) (target scratch : Bytes) (permitted : Bool)
    (content : Option Bytes) : Prop where
  free : t.ScratchFree scratch
  holds : t.Holds made target scratch permitted content

/-- The content of the regular file that a path leads to. -/
def contentAt (t : Tree) (path : Bytes) : Option Bytes :=
  match t.find true path with
  | .ok trail =>
    match t.node? trail.here with
    | some (.file _ data) => some data
    | _ => none
  | .error _ => none

section Transport

variable {t t' : Tree} {path name : Bytes} {dir : Trail} {i : Ino}

theorem mayChange_kept {files : Ino → Prop} {names : Ino → Bytes → Prop}
    (k : Kept files names t t') (h : t.mayChange dir = true) : t'.mayChange dir = true := by
  obtain ⟨mode, entries, hn, h⟩ := mayChange_iff.1 h
  obtain ⟨n', hn', kn⟩ := k _ _ hn
  cases kn with
  | directory _ => exact mayChange_iff.2 ⟨mode, _, hn', h⟩

/-- Opening makes the file. -/
theorem Creatable.opens (h : t.Creatable path dir name) (access : Access) (made : Mode) :
    ∃ i t', onName path (t.openCreating access made path) = .ok (i, t') ∧
      Created made t t' dir name i := by
  obtain ⟨mode, es, hd, hw, -⟩ := mayChange_iff.1 h.mayChange
  have hc : t.create dir name (.file made []) =
      .ok ((t.add (.file made [])).1,
        (t.add (.file made [])).2.bind dir.here name (t.add (.file made [])).1) := by
    unfold create
    rw [hd]
    simp only [if_pos hw]
  refine ⟨_, _, onName_ok_iff.2 ⟨h.noZero, ?_⟩, created_of_create h.located hc⟩
  unfold openCreating
  rw [if_neg (by simp [h.noSlash]), h.located]
  exact hc

/-- What can be made is what opening makes. -/
theorem creatable_of_opens {access : Access} {made : Mode}
    (hl : t.locate true path = .ok (.missing dir name false))
    (h : onName path (t.openCreating access made path) = .ok (i, t')) :
    t.Creatable path dir name := by
  obtain ⟨hz, h⟩ := onName_ok_iff.1 h
  obtain ⟨-, -, mode, es, hd, hs, -⟩ := locate_sound hl
  unfold openCreating at h
  split at h
  · split at h <;> cases h
  · rename_i hslash
    rw [hl] at h
    simp only [create, hd] at h
    split at h
    · rename_i hw
      exact ⟨hz, by simpa using hslash, hl,
        mayChange_iff.2 ⟨mode, es, hd, hw, hs⟩⟩
    · cases h

theorem ScratchFree.unmoved (h : t.ScratchFree path) (hu : t.Unmoved t' path) :
    t'.ScratchFree path := by
  obtain ⟨dir, name, hl, hc⟩ := h
  exact ⟨dir, name, (hu.locate false).trans hl, hc.noZero, hc.noSlash,
    (hu.locate true).trans hc.located, (hu.mayChange _ hl).trans hc.mayChange⟩

/-- The names of the path lead nowhere. -/
theorem ScratchFree.walksNowhere (h : t.ScratchFree path) (trail : Trail) :
    ¬ t.WalksTo path trail := by
  obtain ⟨dir, name, -, hc⟩ := h
  intro hw
  have hl := hc.located
  unfold locate at hl
  split at hl; · cases hl
  split at hl; · cases hl
  rw [hw.2] at hl
  cases hl

theorem ScratchFree.find_false (h : t.ScratchFree path) (trail : Trail) :
    t.find false path ≠ .ok trail := by
  obtain ⟨dir, name, hl, -⟩ := h
  intro hf
  have hl' := locate_of_find hf
  rw [hl] at hl'
  cases hl'

/-- A scratch file that could be opened where no entry stood was made there. -/
theorem scratchFree_of_opens {access : Access} {made : Mode}
    (hnone : ∀ trail, t.find false path ≠ .ok trail)
    (ho : onName path (t.openCreating access made path) = .ok (i, t')) :
    t.ScratchFree path := by
  have hfound : ∀ trail, t.locate false path ≠ .ok (.found trail) := fun trail hl =>
    hnone trail (find_of_locate hl)
  have hfollow : t.locate true path = t.locate false path := by
    rcases locate_follow t path with e | ⟨trail, e⟩
    · exact e
    · exact absurd e (hfound trail)
  rcases openCreating_cases (onName_ok_iff.1 ho).2 with ⟨-, trail, hf, -⟩ | ⟨dir, name, hl, -⟩
  · rw [← hfollow] at hfound
    exact absurd (locate_of_find hf) (hfound trail)
  · exact ⟨dir, name, hfollow ▸ hl, creatable_of_opens hl ho⟩

theorem Unmoved.of_skeleton (hs : ∀ j, t'.skeleton j = t.skeleton j) : t.Unmoved t' path :=
  ⟨fun follow => locate_congr hs follow path, fun _ _ => hs _,
    fun p _ => mayChange_congr hs p.holder⟩

end Transport

theorem Settled.contentAt {t : Tree} {made : Mode} {target scratch : Bytes} {permitted : Bool}
    {content : Option Bytes} (h : t.Settled made target scratch permitted content) :
    t.contentAt target = content := by
  have ht := h.holds
  unfold Tree.contentAt
  cases content with
  | none =>
    obtain ⟨-, dir, name, hc, -⟩ := ht
    unfold find
    rw [hc.located]
  | some data =>
    obtain ⟨-, trail, mode, hf, hn, -⟩ := ht
    rw [hf]
    simp only [hn]

theorem LeadsTo.leadsToFile {t : Tree} {path : Bytes} {trail : Trail} {n : Node}
    (h : t.LeadsTo path trail) (hn : t.node? trail.here = some n) : t.leadsToFile path = true := by
  obtain ⟨hz, hf⟩ := leadsTo_iff.1 h
  unfold Tree.leadsToFile stat
  simp only [hf, hn, hz]
  rfl

theorem Settled.leadsToFile {t : Tree} {made : Mode} {target scratch : Bytes} {permitted : Bool}
    {content : Option Bytes} (h : t.Settled made target scratch permitted content) :
    t.leadsToFile target = content.isSome := by
  have ht := h.holds
  cases content with
  | none =>
    obtain ⟨-, dir, name, hc, -⟩ := ht
    have hf : t.find true target = .error .noEntry := by unfold find; rw [hc.located]
    unfold Tree.leadsToFile stat
    rw [hf]
    simp [Except.isOk, Except.toBool]
  | some data =>
    obtain ⟨hz, trail, mode, hf, hn, -⟩ := ht
    exact LeadsTo.leadsToFile (leadsTo_iff.2 ⟨hz, hf⟩) hn

/-! ## A new target -/

/-- A missing target is made. Nothing else is different. -/
theorem Settled.create {t : Tree} {made : Mode} {target scratch : Bytes} {permitted : Bool}
    (h : t.Settled made target scratch permitted none) (access : Access) :
    ∃ file t', onName target (t.openCreating access made target) = .ok (file, t') ∧
      t'.NumberAt target file ∧ t'.node? file = some (.file made []) ∧
      t'.Settled made target scratch permitted (some []) := by
  obtain ⟨hp, dir, name, hc, hother⟩ := h.holds
  obtain ⟨file, t', ho, hcreated⟩ := hc.opens access made
  have hf : t'.find true target = .ok ((name, file) :: dir) :=
    find_of_locate (locate_named_self hcreated.named hc.located rfl)
  refine ⟨file, t', ho, ⟨_, leadsTo_iff.2 ⟨hc.noZero, hf⟩, rfl⟩, hcreated.file, ?_, hc.noZero,
    _, made, hf, hcreated.file, hp⟩
  obtain ⟨sdir, sname, hl, hs⟩ := h.free
  have hne := hother sdir sname hs.located
  have hkept : Kept (fun _ => False) (fun _ _ => True) t t' := hcreated.kept trivial
  exact ⟨sdir, sname, locate_named_other hcreated.named hl hne, hs.noZero, hs.noSlash,
    locate_named_other hcreated.named hs.located hne, mayChange_kept hkept hs.mayChange⟩

/-! ## An existing target -/

/-- The tree while a prepend is under way: the target holds `new`, and the scratch file, which has
only the name that it was opened by, holds `old`. -/
structure Poised (t : Tree) (target scratch : Bytes) (file aside : Ino) (mode : Mode)
    (new old : Bytes) : Prop where
  noZero : target.contains 0 = false
  found : ∃ trail, t.find true target = .ok trail ∧ trail.here = file
  content : t.node? file = some (.file mode new)
  noZero_scratch : scratch.contains 0 = false
  noSlash : (Path.endsWithSlash scratch && !(Path.withoutSlash scratch).isEmpty) = false
  removable : ∃ dir name, t.Removable scratch dir name aside
  kept : ∃ made, t.node? aside = some (.file made old)

section Poised

open LineShell.Action (stateAfter)

variable {t t' : Tree} {target scratch : Bytes} {file aside : Ino} {mode : Mode}
  {new new' old old' content : Bytes} {permitted : Bool} {made : Mode} {s : Shell}

/-- Contents change, and no path leads elsewhere. -/
theorem Poised.change (h : t.Poised target scratch file aside mode new old)
    (hs : ∀ j, t'.skeleton j = t.skeleton j) (hf : t'.node? file = some (.file mode new'))
    (ha : ∃ made, t'.node? aside = some (.file made old')) :
    t'.Poised target scratch file aside mode new' old' := by
  obtain ⟨trail, hfound, hhere⟩ := h.found
  obtain ⟨dir, name, hr⟩ := h.removable
  exact ⟨h.noZero, ⟨trail, (find_congr hs true target).trans hfound, hhere⟩, hf, h.noZero_scratch,
    h.noSlash, ⟨dir, name, hr.congr hs⟩, ha⟩

/-- The permissions of a regular file decide whether it is opened. -/
theorem openExisting_file {trail : Trail} (hl : t.LeadsTo target trail)
    (hn : t.node? trail.here = some (.file mode content)) (access : Access) :
    onName target (t.openExisting access target) =
      if access.permits mode then .ok trail.here else .error (.os .accessDenied) := by
  obtain ⟨hz, hf⟩ := leadsTo_iff.1 hl
  unfold onName Tree.openExisting openNode
  rw [hz, hf]
  simp only [hn]
  cases access.permits mode <;> rfl

theorem Poised.openExisting (h : t.Poised target scratch file aside mode new old)
    (access : Access) :
    onName target (t.openExisting access target) =
      if access.permits mode then .ok file else .error (.os .accessDenied) := by
  obtain ⟨trail, hfound, rfl⟩ := h.found
  exact openExisting_file (leadsTo_iff.2 ⟨h.noZero, hfound⟩) h.content access

/-- Without the scratch file's name the tree is settled. -/
theorem Poised.withoutScratch (h : t.Poised target scratch file aside mode new old)
    (hne : file ≠ aside) (made : Mode) :
    (Shell.withoutScratch scratch t).Settled made target scratch
      (mode.readable && mode.writable) (some new) := by
  obtain ⟨trail, hfound, hhere⟩ := h.found
  obtain ⟨dir, name, hr⟩ := h.removable
  have hgone := hr.withoutScratch
  have hkept : Kept (fun _ => False) (fun _ _ => True) t (t.unbind dir.here name) :=
    kept_unbind trivial t
  rw [hr.withoutScratch_eq] at hgone ⊢
  refine ⟨⟨dir, name, hgone, h.noZero_scratch, h.noSlash, locate_missing hgone,
    mayChange_kept hkept hr.mayChange⟩, h.noZero, trail, mode, ?_, ?_, rfl⟩
  · exact find_of_named hr.named hfound (by rw [hhere]; exact hne)
  · rw [hhere]
    exact node?_unbind_file.2 h.content

/-- The scratch file is opened: it is a new file. -/
theorem Settled.openScratch (h : t.Settled made target scratch permitted (some content)) :
    ∃ file aside mode t', onName scratch (t.openCreating .both made scratch) = .ok (aside, t') ∧
      t.node? file = some (.file mode content) ∧ t.NumberAt target file ∧
      permitted = (mode.readable && mode.writable) ∧ file ≠ aside ∧
      t'.Poised target scratch file aside mode content [] := by
  obtain ⟨hz, trail, mode, hf, hn, hp⟩ := h.holds
  obtain ⟨dir, name, hl, hc⟩ := h.free
  obtain ⟨aside, t', ho, hcreated⟩ := hc.opens .both made
  have hne : trail.here ≠ aside := by
    intro e
    have hnew := hcreated.new
    rw [← e, hn] at hnew
    cases hnew
  have hdir : trail.here ≠ dir.here := by
    intro e
    obtain ⟨dmode, es, hd, -⟩ := hcreated.free
    rw [← e, hn] at hd
    cases hd
  refine ⟨trail.here, aside, mode, t', ho, hn, ⟨trail, leadsTo_iff.2 ⟨hz, hf⟩, rfl⟩, hp, hne, hz,
    ⟨trail, find_named hcreated.named hf, rfl⟩, ?_, hc.noZero, hc.noSlash, ?_, made, hcreated.file⟩
  · rw [hcreated.others _ hdir hne]
    exact hn
  · exact ⟨dir, name, locate_named_self hcreated.named hl rfl, skeleton_file hcreated.file,
      hcreated.mayChange⟩

theorem Poised.truncateAside (h : t.Poised target scratch file aside mode new old)
    (hne : file ≠ aside) : (t.truncate aside).Poised target scratch file aside mode new [] := by
  obtain ⟨made, ha⟩ := h.kept
  exact h.change (skeleton_truncate t aside) ((node?_truncate_ne hne).trans h.content)
    ⟨made, node?_truncate ha⟩

/-- The scratch file grows. -/
theorem Poised.appendAside (h : t.Poised target scratch file aside mode new old)
    (hne : file ≠ aside) (part : Bytes) :
    (t.append aside part).Poised target scratch file aside mode new (old ++ part) := by
  obtain ⟨made, ha⟩ := h.kept
  exact h.change (skeleton_append t aside part) ((node?_append_ne part hne).trans h.content)
    ⟨made, contents_append part ha⟩

theorem Poised.truncateFile (h : t.Poised target scratch file aside mode new old)
    (hne : file ≠ aside) : (t.truncate file).Poised target scratch file aside mode [] old := by
  obtain ⟨made, ha⟩ := h.kept
  exact h.change (skeleton_truncate t file) (node?_truncate h.content)
    ⟨made, (node?_truncate_ne hne.symm).trans ha⟩

theorem Settled.passes (h : s.system.files.Settled made target scratch permitted (some content)) :
    Shell.samePlace s.system.files target scratch = false := by
  by_cases hs : Shell.samePlace s.system.files target scratch = true
  · obtain ⟨-, -, -, -, trail, -, hw⟩ := Shell.samePlace_iff.1 hs
    exact absurd hw (h.free.walksNowhere trail)
  · simpa using hs

/-- Putting the target aside makes the scratch file grow, and it ends well, with the whole content
aside, if the disk takes that. -/
theorem Poised.setAside {system : System}
    (h : system.files.Poised target scratch file aside mode content []) (hne : file ≠ aside) :
    (∃ part, (stateAfter (System.setAside file aside system)).files.Poised target scratch file aside
      mode content part) ∧
    (∀ system', System.setAside file aside system = .ok () system' →
      system'.files.Poised target scratch file aside mode content content) ∧
    ∀ n, system.disk.Takes (content.length + n) →
      ∃ system', System.setAside file aside system = .ok () system' ∧ system'.disk.Takes n := by
  have hcontents : system.files.contents file = content := contents_file h.content
  have hread : system.files.read file = .ok content := by
    unfold Tree.read
    rw [hcontents, h.content]
  obtain ⟨part, hgrew, -⟩ := System.setAside_grew file aside system
  refine ⟨⟨part, ?_⟩, fun system' hok => ?_,
    fun n hdisk => System.setAside_takes (fun e => absurd e hne) hread hdisk⟩
  · rw [hgrew.files]
    exact h.appendAside hne part
  · rw [(System.setAside_ok hok).files, hcontents]
    exact h.appendAside hne content

/-- A prepend to an existing target is refused, and the tree is settled as before, or its program
is looked for, with the target empty and the old content aside. The target's permissions decide, if
the disk takes the content. -/
theorem Settled.prepare
    (h : s.system.files.Settled s.newMode target scratch permitted (some content)) :
    (∃ cause after, Shell.prepare s target scratch = .refused cause after ∧
      after.system.files.Settled s.newMode target scratch permitted (some content) ∧
      (permitted = true → ¬ s.system.disk.Takes content.length)) ∨
    (permitted = true ∧ ∃ file aside mode before,
      Shell.prepare s target scratch = .ready file aside before ∧
      (mode.readable && mode.writable) = true ∧ file ≠ aside ∧
      before.system.files.Poised target scratch file aside mode [] content ∧
      ∀ n, s.system.disk.Takes (content.length + n) → before.system.disk.Takes n) := by
  obtain ⟨file, aside, mode, t₁, ho, hn, hat, hp, hne, hpoised⟩ := h.openScratch
  have hread : onName target (s.system.files.openExisting .read target) =
      if mode.readable then .ok file else .error (.os .accessDenied) := by
    obtain ⟨trail, hl, rfl⟩ := hat
    exact openExisting_file hl hn .read
  unfold Shell.prepare
  rw [if_neg (by simp [h.passes]), hread]
  by_cases hr : mode.readable = true
  · rw [if_pos hr, ho]
    simp only [Shell.inFile_run]
    have hemptied : (s.withFiles (t₁.truncate aside)).system.files.Poised target scratch file aside
        mode content [] := hpoised.truncateAside hne
    obtain ⟨⟨part, hgrown⟩, haside, htakes⟩ := hemptied.setAside hne
    cases hset : System.setAside file aside (s.withFiles (t₁.truncate aside)).system with
    | error e after =>
      rw [hset] at hgrown
      refine Or.inl ⟨_, _, rfl, ?_, fun _ hdisk => ?_⟩
      · rw [Shell.removeScratch_eq, Shell.withFiles_files, Shell.withSystem_system, hp]
        exact hgrown.withoutScratch hne s.newMode
      · obtain ⟨system', hok, -⟩ := htakes 0 hdisk
        rw [hset] at hok
        cases hok
    | ok u after =>
      have hcopied := haside after hset
      simp only [Shell.withSystem_system]
      rw [hcopied.openExisting .write]
      by_cases hw : mode.writable = true
      · rw [if_pos (by exact hw)]
        refine Or.inr ⟨by rw [hp, hr, hw]; rfl, file, aside, mode, _, rfl, by rw [hr, hw]; rfl, hne,
          hcopied.truncateFile hne, fun n hdisk => ?_⟩
        obtain ⟨system', hok, htake⟩ := htakes n hdisk
        rw [hset] at hok
        cases hok
        exact htake
      · rw [if_neg (by exact hw)]
        refine Or.inl ⟨_, _, rfl, ?_, by rw [hp]; simp [hw]⟩
        rw [Shell.removeScratch_eq, Shell.withFiles_files, Shell.withSystem_system, hp]
        exact hcopied.withoutScratch hne s.newMode
  · rw [if_neg hr]
    exact Or.inl ⟨_, s, rfl, h, by rw [hp]; simp [hr]⟩

/-! ## The program -/

/-- A program with its output in `file` has touched neither the target nor the scratch file's name,
nor the directories and links that lead to them, other than by what it wrote. -/
structure Spared (t t' : Tree) (target scratch : Bytes) (file : Ino) : Prop where
  toTarget : t.Unmoved t' target
  toScratch : t.Unmoved t' scratch
  kind : ∀ mode data, t.node? file = some (.file mode data) →
    ∃ written, t'.node? file = some (.file mode written)
  aside : ∀ trail, t.find false scratch = .ok trail → t'.node? trail.here = t.node? trail.here

/-- The same, and what it wrote is `w`. -/
structure Wrote (t t' : Tree) (target scratch : Bytes) (file : Ino) (w : Bytes) : Prop
    extends Spared t t' target scratch file where
  written : t'.contents file = w

theorem Wrote.node? {w : Bytes} (h : Wrote t t' target scratch file w)
    (hn : t.node? file = some (.file mode old)) : t'.node? file = some (.file mode w) := by
  obtain ⟨written, hw⟩ := h.kind mode old hn
  rw [hw, ← h.written, contents_file hw]

/-- The error message in the place of a program's output. -/
theorem wrote_message (hn : t.node? file = some (.file mode []))
    (ha : ∀ trail, t.find false scratch = .ok trail → trail.here ≠ file) (message : Bytes) :
    Wrote t (t.write file 0 message) target scratch file message := by
  have hw : (t.write file 0 message).node? file = some (.file mode message) := by
    rw [node?_write hn, splice_start_nil]
  refine ⟨⟨.of_skeleton (skeleton_write t file 0 message),
    .of_skeleton (skeleton_write t file 0 message), ?_, ?_⟩, contents_file hw⟩
  · intro m data hm
    rw [hn] at hm
    cases hm
    exact ⟨message, hw⟩
  · intro trail hf
    exact node?_write_ne 0 message (ha trail hf)

theorem Settled.wrote {w : Bytes} (h : t.Settled made target scratch permitted (some content))
    (hat : t.NumberAt target file) (hw : Wrote t t' target scratch file w) :
    t'.Settled made target scratch permitted (some w) := by
  obtain ⟨hz, trail, mode, hf, hn, hp⟩ := h.holds
  obtain ⟨trail', hl, rfl⟩ := hat
  obtain rfl : trail' = trail := by
    have hf' := (leadsTo_iff.1 hl).2
    rw [hf] at hf'
    cases hf'
    rfl
  exact ⟨h.free.unmoved hw.toScratch, hz, trail', mode,
    find_of_locate ((hw.toTarget.locate true).trans (locate_of_find hf)), hw.node? hn, hp⟩

theorem Poised.scratch_here (h : t.Poised target scratch file aside mode new old) {trail : Trail}
    (hf : t.find false scratch = .ok trail) : trail.here = aside := by
  obtain ⟨dir, name, hr⟩ := h.removable
  rw [find_of_locate hr.located] at hf
  cases hf
  rfl

theorem Poised.wrote {w : Bytes} (h : t.Poised target scratch file aside mode new old)
    (hw : Wrote t t' target scratch file w) :
    t'.Poised target scratch file aside mode w old := by
  obtain ⟨trail, hfound, hhere⟩ := h.found
  obtain ⟨dir, name, hr⟩ := h.removable
  refine ⟨h.noZero, ⟨trail, ?_, hhere⟩, hw.node? h.content, h.noZero_scratch, h.noSlash,
    ⟨dir, name, hr.unmoved hw.toScratch⟩, ?_⟩
  · exact find_of_locate ((hw.toTarget.locate true).trans (locate_of_find hfound))
  · obtain ⟨made, ha⟩ := h.kept
    exact ⟨made, (hw.aside _ (find_of_locate hr.located)).trans ha⟩

/-- The target grows. -/
theorem Poised.append (h : t.Poised target scratch file aside mode new old) (hne : file ≠ aside)
    (part : Bytes) :
    (t.append file part).Poised target scratch file aside mode (new ++ part) old := by
  obtain ⟨made, ha⟩ := h.kept
  exact h.change (skeleton_append _ file part) (contents_append part h.content)
    ⟨made, (node?_append_ne part hne.symm).trans ha⟩

/-- The old content comes behind the new, and the scratch file's name goes away, if the disk takes
the content. -/
theorem Poised.finish (h : s.system.files.Poised target scratch file aside mode new old)
    (hne : file ≠ aside) (hm : (mode.readable && mode.writable) = true) {n : Nat}
    (hdisk : s.system.disk.Takes (old.length + n)) :
    ∃ s', Shell.finish target scratch aside (.ok ()) s = .ok () s' ∧
      s'.system.files = Shell.withoutScratch scratch (s.system.files.append file old) ∧
      s'.system.disk.Takes n ∧ s'.env = s.env ∧ s'.transcript = s.transcript := by
  have hw : Access.write.permits mode = true := (Bool.and_eq_true _ _ ▸ hm).2
  have ho := h.openExisting .write
  rw [if_pos hw] at ho
  obtain ⟨made, ha⟩ := h.kept
  have hread : s.system.files.read aside = .ok old := by
    unfold Tree.read
    rw [ha, contents_file ha]
  obtain ⟨s₁, hback, hs₁⟩ := Shell.putBack_takes ho (fun e => absurd e.symm hne) hread hdisk
  obtain ⟨file', hfile', hfiles, -⟩ := Shell.putBack_ok hback
  rw [ho] at hfile'
  cases hfile'
  rw [contents_file ha] at hfiles
  obtain ⟨system, hsystem⟩ := Shell.putBack_system target aside s
  rw [hback] at hsystem
  obtain rfl : s₁ = s.withSystem system := hsystem
  refine ⟨Shell.removeScratch scratch (s.withSystem system), ?_, ?_, ?_, ?_, ?_⟩
  · rw [Shell.finish_eq, hback]
  · rw [Shell.removeScratch_eq, Shell.withFiles_files]
    exact congrArg (Shell.withoutScratch scratch) hfiles
  · rw [Shell.removeScratch_eq]
    exact hs₁
  · rw [Shell.removeScratch_eq]
    rfl
  · rw [Shell.removeScratch_eq]
    rfl

end Poised

end Tree

end LineShell
