import LineShell.Proofs.Redirections

/-!
# The guard against the scratch file as a target

A prepend copies the old content of its target to the scratch file. If both are one file, the copy
is lost when the target is emptied, so the command is refused beforehand. The guard compares
canonical paths.

* `samePlace_iff`: two paths pass for one place if both lead to the same entry of a directory, by
  whatever spelling and through whatever links.
* `scratchConflict_iff`: when target and scratch path lead to one file, the command is refused, with
  nothing done, if they lead to it under one name, and only then.
* `prepare_two_names`: under two names the old content is gone before the program starts, and
  `second_name_loses_content` is a run in which it never comes back.
-/
namespace LineShell

/-- The path leads to an existing file along a trail, behind all links. -/
def Tree.LeadsTo (t : Tree) (path : Bytes) (trail : Trail) : Prop :=
  onName path (t.find true path) = .ok trail

theorem onName_ok_iff {α : Type} {path : Bytes} {answer : Except OsError α} {a : α} :
    onName path answer = .ok a ↔ path.contains 0 = false ∧ answer = .ok a := by
  unfold onName
  cases path.contains 0 with
  | true => simp
  | false =>
    cases answer with
    | ok b =>
      change (.ok b : Except IoError α) = .ok a ↔ _
      simp
    | error e =>
      change (.error (.os e) : Except IoError α) = .ok a ↔ _
      simp

theorem Tree.leadsTo_iff {t : Tree} {path : Bytes} {trail : Trail} :
    t.LeadsTo path trail ↔ path.contains 0 = false ∧ t.find true path = .ok trail :=
  onName_ok_iff

theorem Tree.LeadsTo.unique {t : Tree} {path : Bytes} {a b : Trail} (ha : t.LeadsTo path a)
    (hb : t.LeadsTo path b) : a = b := by
  unfold Tree.LeadsTo at ha hb
  rw [ha] at hb
  cases hb
  rfl

theorem onName_canonical_ok_iff {t : Tree} {path text : Bytes} :
    onName path (t.canonical path) = .ok text ↔
      path.contains 0 = false ∧ t.Spellable path ∧ ∃ trail, t.WalksTo path trail ∧
        trail.path = text := by
  rw [onName_ok_iff]
  unfold Tree.canonical
  constructor
  · rintro ⟨hz, h⟩
    cases hf : t.spellOut path with
    | error e => rw [hf] at h; cases h
    | ok trail =>
      rw [hf] at h
      cases h
      obtain ⟨hwalks, hspells⟩ := Tree.spellOut_ok_iff.1 hf
      exact ⟨hz, hspells, trail, hwalks, rfl⟩
  · rintro ⟨hz, hspells, trail, hwalks, rfl⟩
    exact ⟨hz, by rw [Tree.spellOut_ok_iff.2 ⟨hwalks, hspells⟩]; rfl⟩

/-- What is opened by a path is what its names lead to. -/
theorem Tree.LeadsTo.walksTo {t : Tree} {path : Bytes} {trail : Trail} (h : t.LeadsTo path trail) :
    t.WalksTo path trail :=
  .of_find (Tree.leadsTo_iff.1 h).2

/-- A file holds what it held when a name has gone. -/
theorem Tree.contents_unbind (t : Tree) (dir i : Ino) (name : Bytes) :
    (t.unbind dir name).contents i = t.contents i := by
  by_cases h : ∃ mode data, t.node? i = some (.file mode data)
  · obtain ⟨mode, data, h⟩ := h
    rw [Tree.contents_file h, Tree.contents_file (Tree.node?_unbind_file.2 h)]
  · have hother : ∀ u : Tree, (∀ mode data, u.node? i ≠ some (.file mode data)) →
        u.contents i = [] := by
      intro u hu
      refine Classical.byContradiction fun hne => ?_
      obtain ⟨mode, data, hn⟩ := Tree.file_of_contents hne
      exact hu mode data hn
    rw [hother t fun mode data hn => h ⟨mode, data, hn⟩,
      hother _ fun mode data hn => h ⟨mode, data, Tree.node?_unbind_file.1 hn⟩]

namespace Shell

open LineShell.Action (stateAfter outcomeOf)

theorem contents_withoutScratch (t : Tree) (scratch : Bytes) (i : Ino) :
    (withoutScratch scratch t).contents i = t.contents i := by
  unfold withoutScratch
  split
  · rename_i hu
    obtain ⟨name, j, dir, -, -, rfl⟩ := Tree.unlink_cases hu
    exact Tree.contents_unbind t dir.here i name
  · rfl

theorem node?_withoutScratch {t : Tree} {scratch : Bytes} {i : Ino} {mode : Mode} {data : Bytes}
    (h : t.node? i = some (.file mode data)) :
    (withoutScratch scratch t).node? i = some (.file mode data) := by
  unfold withoutScratch
  split
  · rename_i hu
    obtain ⟨name, _, dir, -, -, rfl⟩ := Tree.unlink_cases hu
    exact Tree.node?_unbind_file.2 h
  · exact h

/-- Paths pass for one place if and only if their names lead along one trail and each of them can be
spelled out. -/
theorem samePlace_iff {t : Tree} {path path' : Bytes} :
    samePlace t path path' = true ↔
      path.contains 0 = false ∧ path'.contains 0 = false ∧ t.Spellable path ∧ t.Spellable path' ∧
        ∃ trail, t.WalksTo path trail ∧ t.WalksTo path' trail := by
  unfold samePlace
  constructor
  · intro h
    split at h
    · rename_i text text' h1 h2
      have he : text = text' := by simpa using h
      subst he
      obtain ⟨hz, hs, a, ha, hpa⟩ := onName_canonical_ok_iff.1 h1
      obtain ⟨hz', hs', b, hb, hpb⟩ := onName_canonical_ok_iff.1 h2
      have hab : a = b := Trail.path_inj
        (Tree.spellOut_valid (Tree.spellOut_ok_iff.2 ⟨ha, hs⟩))
        (Tree.spellOut_valid (Tree.spellOut_ok_iff.2 ⟨hb, hs'⟩)) (hpa.trans hpb.symm)
      subst hab
      exact ⟨hz, hz', hs, hs', a, ha, hb⟩
    · cases h
  · rintro ⟨hz, hz', hs, hs', trail, h, h'⟩
    rw [onName_canonical_ok_iff.2 ⟨hz, hs, trail, h, rfl⟩,
      onName_canonical_ok_iff.2 ⟨hz', hs', trail, h', rfl⟩]
    exact beq_self_eq_true trail.path

/-- Paths that lead to existing files pass for one place if they lead along one trail and can be
spelled out. -/
theorem samePlace_leadsTo_iff {t : Tree} {path path' : Bytes} {a b : Trail}
    (ha : t.LeadsTo path a) (hb : t.LeadsTo path' b) :
    samePlace t path path' = true ↔ a = b ∧ t.Spellable path ∧ t.Spellable path' := by
  rw [samePlace_iff]
  constructor
  · rintro ⟨-, -, hs, hs', trail, h, h'⟩
    exact ⟨(ha.walksTo.unique h).trans (h'.unique hb.walksTo), hs, hs'⟩
  · rintro ⟨rfl, hs, hs'⟩
    exact ⟨(Tree.leadsTo_iff.1 ha).1, (Tree.leadsTo_iff.1 hb).1, hs, hs', a, ha.walksTo,
      hb.walksTo⟩

/-- What the guard lets through is never refused as a conflict with the scratch file. -/
theorem prepare_passed {s after : Shell} {target scratch : Bytes}
    (h : samePlace s.system.files target scratch = false) :
    prepare s target scratch ≠ .refused (.scratchConflict target) after := by
  intro hp
  have hcases := prepare_cases s target scratch
  rw [hp] at hcases
  cases hcases with
  | refused hcause =>
    have hsame := hcause.1 rfl
    rw [h] at hsame
    cases hsame
  | givenUp _ _ _ _ _ _ hcause => exact hcause rfl

/-- What follows on the program fails for the target's sake alone. -/
theorem finish_fails {programs : Programs} {argv : List Bytes} {target scratch : Bytes}
    {file aside : Ino} {held : List Ino} {before s' : Shell} {cause : Failure}
    (h : finish target scratch aside
      (outcomeOf (runInto programs argv target file held before))
      (ranInto programs argv target file held before) = .error cause s') :
    ∃ e, cause = .resource target e := by
  rw [finish_eq, putBack_eq] at h
  cases ho : onName target
      ((ranInto programs argv target file held before).system.files.openExisting .write target) with
  | error e =>
    rw [ho] at h
    cases h
    exact ⟨e, rfl⟩
  | ok i =>
    rw [ho] at h
    simp only [inFile_run] at h
    cases hc : System.copy aside i (ranInto programs argv target file held before).system with
    | error e system =>
      rw [hc] at h
      cases h
      exact ⟨_, rfl⟩
    | ok u system =>
      rw [hc] at h
      cases hran : runInto programs argv target file held before with
      | ok u s₁ => rw [hran] at h; cases h
      | error e s₁ =>
        obtain ⟨e', he'⟩ := runInto_outcome fun s' hok => by rw [hran] at hok; cases hok
        rw [hran] at h he'
        cases h
        cases he'
        exact ⟨_, rfl⟩

theorem putInFront_scratchConflict (programs : Programs) (argv : List Bytes)
    (target scratch : Bytes) (s : Shell) :
    putInFront programs argv target scratch s = .error (.scratchConflict target) s ↔
      samePlace s.system.files target scratch = true := by
  rw [putInFront_eq]
  constructor
  · intro h
    by_cases hs : samePlace s.system.files target scratch = true
    · exact hs
    · have hs' : samePlace s.system.files target scratch = false := by simpa using hs
      cases hp : prepare s target scratch with
      | refused cause after =>
        rw [hp] at h
        simp only [EStateM.Result.error.injEq] at h
        exact absurd (h.1 ▸ hp) (prepare_passed hs')
      | ready file aside before =>
        rw [hp] at h
        obtain ⟨e, he⟩ := finish_fails h
        cases he
  · intro hs
    have hp : prepare s target scratch = .refused (.scratchConflict target) s := by
      unfold prepare; rw [if_pos hs]
    rw [hp]

/-! ## One file under two names -/

section TwoNames

variable {s : Shell} {target scratch : Bytes} {a b : Trail} {aside : Ino} {files : Tree}

/-- A file that passes the guard as another file is put aside as itself, so nothing of its content
is left when the program starts, or when the disk refuses to go on. -/
theorem prepare_two_names (ha : s.system.files.LeadsTo target a)
    (hb : s.system.files.LeadsTo scratch b) (hone : a.here = b.here)
    (hpassed : samePlace s.system.files target scratch = false)
    (ho : s.system.files.openCreating .both s.newMode scratch = .ok (aside, files)) :
    (∃ e after, ¬ s.system.disk.Takes 0 ∧
      prepare s target scratch = .refused (.resource scratch (.os e)) after ∧
      after.system.files.contents a.here = []) ∨
    ∃ before, prepare s target scratch = .ready a.here a.here before ∧
      before.system.files.contents a.here = [] := by
  obtain ⟨hza, hfa⟩ := Tree.leadsTo_iff.1 ha
  obtain ⟨hzb, hfb⟩ := Tree.leadsTo_iff.1 hb
  obtain ⟨rfl, haside, hopen⟩ := Tree.openCreating_found hfb ho
  obtain rfl : aside = a.here := haside.trans hone.symm
  have hexisting : ∀ access, s.system.files.openExisting access target = .ok a.here := by
    intro access
    unfold Tree.openExisting
    rw [hfa]
    exact Tree.openNode_both hopen access
  -- what is copied to its own end is empty by then
  have hempty := Tree.contents_truncate s.system.files a.here
  unfold prepare
  rw [if_neg (by simp [hpassed]), onName_ok_iff.2 ⟨hza, hexisting .read⟩,
    onName_ok_iff.2 ⟨hzb, ho⟩]
  simp only [inFile_run]
  obtain ⟨part, hgrew, hpart⟩ := System.setAside_grew a.here a.here
    (s.withFiles (s.system.files.truncate a.here)).system
  have hnothing : part = [] := by
    have hprefix := hpart fun _ => hempty
    rw [show (s.withFiles (s.system.files.truncate a.here)).system.files.contents a.here = []
      from hempty] at hprefix
    exact List.prefix_nil.1 hprefix
  have hfiles := hgrew.files
  rw [hnothing, Tree.append, Tree.write_nil] at hfiles
  cases hset : System.setAside a.here a.here
      (s.withFiles (s.system.files.truncate a.here)).system with
  | error e system =>
    rw [hset] at hfiles
    refine Or.inl ⟨e, _, fun htakes => ?_, rfl, ?_⟩
    · obtain ⟨s', hok, -⟩ := System.setAside_takes (n := 0) (fun _ => rfl)
        (show (s.withFiles (s.system.files.truncate a.here)).system.files.read a.here = .ok []
          from Tree.read_truncate hopen) htakes
      rw [hset] at hok
      cases hok
    · rw [removeScratch_eq, withFiles_files, contents_withoutScratch, withSystem_system]
      exact (congrArg (Tree.contents · a.here) hfiles).trans hempty
  | ok u system =>
    rw [hset] at hfiles
    have hwrite : system.files.openExisting .write target = .ok a.here := by
      rw [show system.files = s.system.files.truncate a.here from hfiles,
        Tree.openExisting_truncate]
      exact hexisting .write
    simp only [withSystem_system]
    rw [onName_ok_iff.2 ⟨hza, hwrite⟩]
    exact Or.inr ⟨_, rfl, Tree.contents_truncate system.files a.here⟩

end TwoNames

/-- **The reach of the guard.** Target and scratch path lead to one file. The command is refused,
and no program starts and nothing at all changes, if and only if they lead to it as one entry of a
directory and can both be spelled out.

If not, and if the file can be opened, its content is gone when the program starts, or when the disk
refuses to go on before that. What the program leaves in the file is put back behind itself. So the
command ends well only if that is nothing; otherwise the copy goes on until the disk is full. -/
theorem scratchConflict_iff (programs : Programs) (config : Config) (argv : List Bytes)
    (target : Bytes) (s : Shell) {a b : Trail}
    (he : s.system.files.leadsToFile (s.env.resolve target) = true)
    (ha : s.system.files.LeadsTo (s.env.resolve target) a)
    (hb : s.system.files.LeadsTo (s.env.resolve config.scratch) b) (hone : a.here = b.here) :
    (redirect programs config argv target .prepend s =
        .error (.scratchConflict (s.env.resolve target)) s ↔
      a = b ∧ s.system.files.Spellable (s.env.resolve target) ∧
        s.system.files.Spellable (s.env.resolve config.scratch)) ∧
    (¬ (a = b ∧ s.system.files.Spellable (s.env.resolve target) ∧
        s.system.files.Spellable (s.env.resolve config.scratch)) →
      ∀ aside files,
      s.system.files.openCreating .both s.newMode (s.env.resolve config.scratch) =
        .ok (aside, files) →
      (∃ e s', ¬ s.system.disk.Takes 0 ∧
        redirect programs config argv target .prepend s =
          .error (.resource (s.env.resolve config.scratch) (.os e)) s' ∧
        s'.system.files.contents a.here = []) ∨
      ∃ before ran,
        prepare s (s.env.resolve target) (s.env.resolve config.scratch) =
          .ready a.here a.here before ∧
        before.system.files.contents a.here = [] ∧
        ran = runInto programs argv (s.env.resolve target) a.here [a.here, a.here] before ∧
        redirect programs config argv target .prepend s =
          finish (s.env.resolve target) (s.env.resolve config.scratch) a.here (outcomeOf ran)
            (stateAfter ran) ∧
        ∀ s', redirect programs config argv target .prepend s = .ok () s' →
          onName (s.env.resolve target)
            ((stateAfter ran).system.files.openExisting .write (s.env.resolve target)) =
              .ok a.here →
          (stateAfter ran).system.files.contents a.here = []) := by
  have hr : redirect programs config argv target .prepend s =
      putInFront programs argv (s.env.resolve target) (s.env.resolve config.scratch) s := by
    rw [redirect_eq, he]
  rw [hr, ← samePlace_leadsTo_iff ha hb]
  refine ⟨putInFront_scratchConflict programs argv _ _ s, fun hpassed aside files ho => ?_⟩
  rw [putInFront_eq]
  rcases prepare_two_names ha hb hone (by simpa using hpassed) ho with
    ⟨e, after, hdisk, hp, hc⟩ | ⟨before, hp, hc⟩
  · rw [hp]
    exact Or.inl ⟨e, after, hdisk, rfl, hc⟩
  · rw [hp]
    refine Or.inr ⟨before, _, rfl, hc, rfl, rfl, fun s' hok hsame => ?_⟩
    obtain ⟨s₁, hback, -⟩ := finish_ok hok
    obtain ⟨file, hfile, -, hself⟩ := putBack_ok hback
    rw [ranInto] at hfile hself
    rw [hsame] at hfile
    cases hfile
    exact hself rfl

section Runs

open Bytes (ofString)

/-- The file `out` is a link to the scratch file. -/
def linkedOut : Tree :=
  ⟨[.directory 0o755 [(ofString "temp", 1), (ofString "out", 2)], .file 0o644 (ofString "old\n"),
    .link (ofString "temp")]⟩

/-- The file `out` has the scratch file's name as a second name. -/
def twiceNamed : Tree :=
  ⟨[.directory 0o755 [(ofString "out", 1), (ofString "temp", 1), (ofString "idle", 2)],
    .file 0o644 (ofString "old\n"), .file 0o755 []]⟩

/-- Through the link the command is refused. Under the second name it never ends well if its program
writes anything. -/
theorem guard_link_and_second_name :
    redirect idle {} [ofString "/idle"] (ofString "out") .prepend (atRoot linkedOut) =
      .error (.scratchConflict (ofString "/out")) (atRoot linkedOut) ∧
    ∀ s', redirect (printing fun _ => ofString "new\n") {} [ofString "/idle"] (ofString "out")
      .prepend (atRoot twiceNamed) ≠ .ok () s' := by
  have hlinked := scratchConflict_iff idle {} [ofString "/idle"] (ofString "out")
    (atRoot linkedOut) (a := [(ofString "temp", 1)]) (b := [(ofString "temp", 1)]) (by decide) rfl
    rfl rfl
  have htwice := scratchConflict_iff (printing fun _ => ofString "new\n") {} [ofString "/idle"]
    (ofString "out") (atRoot twiceNamed) (a := [(ofString "out", 1)])
    (b := [(ofString "temp", 1)]) (by decide) rfl rfl rfl
  refine ⟨hlinked.1.2 ⟨rfl, nofun, nofun⟩, fun s' hok => ?_⟩
  rcases htwice.2 (fun h => absurd h.1 (by decide)) 1 twiceNamed rfl with
    ⟨e, s₁, -, hfails, -⟩ | ⟨before, ran, hp, -, rfl, -, hempty⟩
  · rw [hok] at hfails
    cases hfails
  · cases hp
    have hnothing := hempty s' hok rfl
    exact absurd hnothing (by decide)

/-- **Counterexample**: a second name for the scratch file escapes the guard. The command is
carried out, a program runs, and the content of its target is lost. -/
theorem second_name_loses_content :
    (atRoot twiceNamed).system.files.LeadsTo (ofString "/out") [(ofString "out", 1)] ∧
    (atRoot twiceNamed).system.files.LeadsTo (ofString "/temp") [(ofString "temp", 1)] ∧
    (atRoot twiceNamed).system.files.contents 1 = ofString "old\n" ∧
    ∃ s', redirect idle {} [ofString "/idle"] (ofString "out") .prepend (atRoot twiceNamed) =
        .ok () s' ∧
      s'.transcript.events =
        [.launched ⟨ofString "/idle", [ofString "/idle"], [], [Bytes.slash]⟩ true] ∧
      s'.system.files.contents 1 = [] := by
  refine ⟨rfl, rfl, by decide, _, rfl, by decide, by decide⟩

end Runs

end Shell
end LineShell
