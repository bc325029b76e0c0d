import LineShell.Proofs.Copies
import LineShell.Shell.Redirection

/-!
# What a redirection does, step by step

The actions of a redirection, read as functions from one state to the next.

* `childOf`: how the program of a command ends, if one runs. `runInto_eq`: a program with its output
  in an open file, or the error message in its place. `ranInto`: the state after it.
* `prepare`: a prepend up to the moment at which its program is looked for. `prepare_cases`: what
  has happened by then.
* `finish`: what follows when the program has ended. `putInFront_eq` puts the three together.
* `intoNewFile_eq`, `redirect_eq`: the other redirections.
-/
namespace LineShell.Shell

open LineShell.Action (stateAfter outcomeOf)

variable (programs : Programs)

/-- The shell around another system. -/
def withSystem (s : Shell) (system : System) : Shell := { s with system }

@[simp] theorem withSystem_system (s : Shell) (system : System) :
    (s.withSystem system).system = system := rfl

@[simp] theorem withSystem_env (s : Shell) (system : System) :
    (s.withSystem system).env = s.env := rfl

@[simp] theorem withSystem_transcript (s : Shell) (system : System) :
    (s.withSystem system).transcript = s.transcript := rfl

@[simp] theorem withFiles_files (s : Shell) (t : Tree) : (s.withFiles t).system.files = t := rfl

@[simp] theorem withFiles_env (s : Shell) (t : Tree) : (s.withFiles t).env = s.env := rfl

@[simp] theorem withFiles_transcript (s : Shell) (t : Tree) :
    (s.withFiles t).transcript = s.transcript := rfl

@[simp] theorem withFiles_withFiles (s : Shell) (t t' : Tree) :
    (s.withFiles t).withFiles t' = s.withFiles t' := rfl

@[simp] theorem note_system (s : Shell) (e : Event) : (s.note e).system = s.system := rfl

@[simp] theorem note_transcript (s : Shell) (e : Event) :
    (s.note e).transcript = s.transcript.note e := rfl

@[simp] theorem note_env (s : Shell) (e : Event) : (s.note e).env = s.env := rfl

theorem inFile_run {α : Type} (path : Bytes) (x : Action System OsError α) (s : Shell) :
    inFile path x s = match x s.system with
      | .ok a system => .ok a (s.withSystem system)
      | .error e system => .error (.resource path (.os e)) (s.withSystem system) := rfl

/-- What is done with an open file is done in the system. -/
theorem stateAfter_inFile {α : Type} (path : Bytes) (x : Action System OsError α) (s : Shell) :
    stateAfter (inFile path x s) = s.withSystem (stateAfter (x s.system)) := by
  rw [inFile_run]
  cases x s.system <;> rfl

/-! ## The program -/

/-- The order that a command gives in a state, if its program is found there. -/
def orderOf (s : Shell) (argv : List Bytes) : Option Launch :=
  (s.env.findProgram s.system.files (argv.headD [])).map fun program =>
    ⟨program, argv, s.env.vars, s.env.dir⟩

/-- How the program ends that an order starts, if it can be started. -/
def endedInto (order : Launch) (file : Ino) (held : List Ino) (system : System) : Option Ended :=
  if order.holdsZero then none
  else match programs.run order (.file file) held system with
    | .ok ended => some ended
    | .error _ => none

/-- How the program of a command ends, if its output file can be handed on and the program is found
and can be started. -/
def childOf (argv : List Bytes) (file : Ino) (held : List Ino) (s : Shell) : Option Ended :=
  match s.system.refusal with
  | some _ => none
  | none => (s.orderOf argv).bind fun order =>
      endedInto programs order file held s.system.answered

/-- The shell when the program of an order has ended. -/
def whenEnded (order : Launch) (ended : Ended) (s : Shell) : Shell :=
  let s := { s.note (.launched order true) with system := ended.system }
  if ended.printed.isEmpty then s else s.note (.printed ended.printed)

@[simp] theorem whenEnded_system (order : Launch) (ended : Ended) (s : Shell) :
    (whenEnded order ended s).system = ended.system := by
  unfold whenEnded
  simp only
  split <;> rfl

@[simp] theorem whenEnded_env (order : Launch) (ended : Ended) (s : Shell) :
    (whenEnded order ended s).env = s.env := by
  unfold whenEnded
  simp only
  split <;> rfl

/-- The shell when the program of a command could not be found, or not be started, which is
noted. -/
def unstarted (argv : List Bytes) (s : Shell) : Shell :=
  match s.orderOf argv with
  | none => s
  | some order => s.note (.launched order false)

@[simp] theorem unstarted_system (argv : List Bytes) (s : Shell) :
    (unstarted argv s).system = s.system := by
  unfold unstarted
  split <;> rfl

@[simp] theorem unstarted_env (argv : List Bytes) (s : Shell) :
    (unstarted argv s).env = s.env := by
  unfold unstarted
  split <;> rfl

/-- An order is carried out to its end, or it is noted that it could not be. -/
theorem start_run (program name : Bytes) (arguments : List Bytes) (file : Ino) (held : List Ino)
    (s : Shell) : ∃ cause,
    start programs program (name :: arguments) (.file file) held s =
      match endedInto programs ⟨program, name :: arguments, s.env.vars, s.env.dir⟩ file held
          s.system with
      | some ended => .ok () (whenEnded ⟨program, name :: arguments, s.env.vars, s.env.dir⟩ ended s)
      | none => .error (.spawn name.decode cause)
          (s.note (.launched ⟨program, name :: arguments, s.env.vars, s.env.dir⟩ false)) := by
  unfold start endedInto
  simp only
  split
  · exact ⟨_, rfl⟩
  · cases programs.run ⟨program, name :: arguments, s.env.vars, s.env.dir⟩ (.file file) held
      s.system with
    | error e => exact ⟨_, rfl⟩
    | ok ended => exact ⟨.sinkFull, rfl⟩

/-- A program is found and started, or the error message is written in its place. -/
theorem runInto_eq (argv : List Bytes) (target : Bytes) (file : Ino) (held : List Ino)
    (s : Shell) :
    runInto programs argv target file held s =
      match s.system.refusal with
      | some e => .error (.resource target (.os e)) (s.withSystem s.system.answered)
      | none =>
        match (s.orderOf argv).bind fun order =>
            (endedInto programs order file held s.system.answered).map (order, ·) with
        | some (order, ended) => .ok () (whenEnded order ended s)
        | none =>
          inFile target (System.write file 0 errorMessage)
            (unstarted argv (s.withSystem s.system.answered)) := by
  unfold runInto
  rw [Action.bind_run, inFile_run, System.ask_eq]
  cases s.system.refusal with
  | some e => rfl
  | none =>
    have horder : (s.withSystem s.system.answered).orderOf argv = s.orderOf argv := rfl
    have hfind : (s.withSystem s.system.answered).env.findProgram
        (s.withSystem s.system.answered).system.files (argv.headD []) =
          s.env.findProgram s.system.files (argv.headD []) := rfl
    unfold unstarted
    rw [horder]
    unfold orderOf
    simp only [Action.bind_run, Action.attempt, Action.get_run, hfind]
    cases hf : s.env.findProgram s.system.files (argv.headD []) with
    | none => rfl
    | some program =>
      cases argv with
      | nil => simp [Environment.findProgram, findProgram] at hf
      | cons name arguments =>
        obtain ⟨cause, hstart⟩ := start_run programs program name arguments file held
          (s.withSystem s.system.answered)
        simp only [hstart, Option.map_some, Option.bind_some, withSystem_env, withSystem_system]
        cases endedInto programs ⟨program, name :: arguments, s.env.vars, s.env.dir⟩ file held
          s.system.answered <;> rfl

/-- How a command with its output in an open file goes: the file cannot be handed on, or the error
message is written in place of a program, or one runs to its end. -/
inductive Ran (argv : List Bytes) (target : Bytes) (file : Ino) (held : List Ino) (s : Shell) :
    EStateM.Result Failure Shell Unit → Prop
  | refused {e : OsError} (h : s.system.refusal = some e)
      (hc : childOf programs argv file held s = none) :
      Ran argv target file held s
        (.error (.resource target (.os e)) (s.withSystem s.system.answered))
  | unstarted (h : s.system.refusal = none) (hc : childOf programs argv file held s = none) :
      Ran argv target file held s
        (inFile target (System.write file 0 errorMessage)
          (unstarted argv (s.withSystem s.system.answered)))
  | ended {order : Launch} {ended : Ended} (h : s.system.refusal = none)
      (ho : s.orderOf argv = some order)
      (he : endedInto programs order file held s.system.answered = some ended)
      (hc : childOf programs argv file held s = some ended) :
      Ran argv target file held s (.ok () (whenEnded order ended s))

theorem runInto_ran (argv : List Bytes) (target : Bytes) (file : Ino) (held : List Ino)
    (s : Shell) :
    Ran programs argv target file held s (runInto programs argv target file held s) := by
  rw [runInto_eq]
  cases hr : s.system.refusal with
  | some e => exact .refused hr (by unfold childOf; rw [hr])
  | none =>
    cases ho : s.orderOf argv with
    | none => exact .unstarted hr (by unfold childOf; rw [hr, ho]; rfl)
    | some order =>
      simp only [Option.bind_some]
      cases he : endedInto programs order file held s.system.answered with
      | none => exact .unstarted hr (by unfold childOf; rw [hr, ho]; exact he)
      | some ended => exact .ended hr ho he (by unfold childOf; rw [hr, ho]; exact he)

/-- The state after a program has run with its output in an open file, however that went. -/
def ranInto (argv : List Bytes) (target : Bytes) (file : Ino) (held : List Ino) (s : Shell) :
    Shell :=
  stateAfter (runInto programs argv target file held s)

section RanInto

variable {programs} {argv : List Bytes} {target : Bytes} {file : Ino} {held : List Ino} {s : Shell}

/-- A program that runs decides what the tree is afterwards. -/
theorem runInto_child (target : Bytes) {ended : Ended}
    (hc : childOf programs argv file held s = some ended) :
    ∃ order, s.orderOf argv = some order ∧
      endedInto programs order file held s.system.answered = some ended ∧
      runInto programs argv target file held s = .ok () (whenEnded order ended s) := by
  have hran := runInto_ran programs argv target file held s
  generalize runInto programs argv target file held s = r at hran
  cases hran with
  | refused h hn => rw [hc] at hn; cases hn
  | unstarted h hn => rw [hc] at hn; cases hn
  | ended h ho he hn =>
    rw [hc] at hn
    cases hn
    exact ⟨_, ho, he, rfl⟩

theorem ranInto_child {ended : Ended} (hc : childOf programs argv file held s = some ended) :
    (ranInto programs argv target file held s).system = ended.system := by
  obtain ⟨order, -, -, hrun⟩ := runInto_child target hc
  unfold ranInto
  rw [hrun]
  exact whenEnded_system order ended s

theorem run_of_endedInto {order : Launch} {system : System} {ended : Ended}
    (h : endedInto programs order file held system = some ended) :
    programs.run order (.file file) held system = .ok ended := by
  unfold endedInto at h
  split at h
  · cases h
  · split at h
    · rename_i hr
      cases h
      exact hr
    · cases h

/-- Without one a beginning of the error message is written, and all of it if nothing fails. -/
theorem runInto_message (target : Bytes) (hc : childOf programs argv file held s = none) :
    ∃ part, part <+: errorMessage ∧
      (ranInto programs argv target file held s).system.files =
        s.system.files.write file 0 part ∧
      (∀ s', runInto programs argv target file held s = .ok () s' → part = errorMessage) := by
  unfold ranInto
  have hran := runInto_ran programs argv target file held s
  generalize runInto programs argv target file held s = r at hran
  cases hran with
  | refused h => exact ⟨[], List.nil_prefix, (Tree.write_nil _ file 0).symm, nofun⟩
  | unstarted h =>
    obtain ⟨part, hpart, hwrote, hall⟩ := System.write_wrote file 0 errorMessage s.system.answered
    refine ⟨part, hpart, ?_, fun s' hok => ?_⟩
    · rw [stateAfter_inFile, unstarted_system]
      exact hwrote.files
    · rw [inFile_run, unstarted_system, withSystem_system] at hok
      cases hw : System.write file 0 errorMessage s.system.answered with
      | error e s₁ => rw [hw] at hok; cases hok
      | ok u s₁ => exact hall s₁ hw
  | ended h ho he hn => rw [hc] at hn; cases hn

/-- If the disk takes the message, it is written. -/
theorem runInto_takes (target : Bytes) (hc : childOf programs argv file held s = none) {n : Nat}
    (hdisk : s.system.disk.Takes (errorMessage.length + n)) :
    ∃ s', runInto programs argv target file held s = .ok () s' ∧ s'.system.disk.Takes n ∧
      s'.system.files = s.system.files.write file 0 errorMessage := by
  obtain ⟨part, -, hfiles, hall⟩ := runInto_message target hc
  unfold ranInto at hfiles
  have hran := runInto_ran programs argv target file held s
  generalize runInto programs argv target file held s = r at hran hfiles hall
  cases hran with
  | refused h => rw [System.refusal_of_takes hdisk] at h; cases h
  | unstarted h =>
    obtain ⟨s₁, hw, hs₁⟩ := System.write_takes file 0 (System.takes_answered hdisk)
    have hrun : inFile target (System.write file 0 errorMessage)
        (unstarted argv (s.withSystem s.system.answered)) =
          .ok () ((unstarted argv (s.withSystem s.system.answered)).withSystem s₁) := by
      rw [inFile_run, unstarted_system, withSystem_system, hw]
    rw [hrun] at hfiles hall ⊢
    rw [hall _ rfl] at hfiles
    exact ⟨_, rfl, hs₁, hfiles⟩
  | ended h ho he hn => rw [hc] at hn; cases hn

/-- If the disk takes the message, nothing fails. -/
theorem runInto_well (programs : Programs) (argv : List Bytes) (target : Bytes) (file : Ino)
    (held : List Ino) {n : Nat} (hdisk : s.system.disk.Takes (errorMessage.length + n)) :
    runInto programs argv target file held s =
        .ok () (ranInto programs argv target file held s) ∧
      (childOf programs argv file held s = none →
        (ranInto programs argv target file held s).system.files =
          s.system.files.write file 0 errorMessage ∧
        (ranInto programs argv target file held s).system.disk.Takes n) := by
  unfold ranInto
  cases hc : childOf programs argv file held s with
  | none =>
    obtain ⟨s', hrun, hs', hfiles⟩ := runInto_takes target hc hdisk
    rw [hrun]
    exact ⟨rfl, fun _ => ⟨hfiles, hs'⟩⟩
  | some ended =>
    obtain ⟨order, -, -, hrun⟩ := runInto_child target hc
    rw [hrun]
    exact ⟨rfl, nofun⟩

/-- What the disk takes beyond the message, it takes afterwards, unless a program has used it up. -/
theorem ranInto_takes (target : Bytes) {n : Nat}
    (hdisk : s.system.disk.Takes (errorMessage.length + n))
    (hran : ∀ ended, childOf programs argv file held s = some ended →
      ended.system.disk.Takes n) :
    (ranInto programs argv target file held s).system.disk.Takes n := by
  cases hc : childOf programs argv file held s with
  | none => exact ((runInto_well programs argv target file held hdisk).2 hc).2
  | some ended =>
    rw [ranInto_child hc]
    exact hran ended hc

/-- What is true of the tree with a part of the error message, and of every tree that a program may
leave, is true of the tree afterwards. -/
theorem ranInto_files_of (P : Tree → Prop)
    (hmessage : ∀ part, P (s.system.files.write file 0 part))
    (hran : ∀ ended, childOf programs argv file held s = some ended → P ended.system.files) :
    P (ranInto programs argv target file held s).system.files := by
  cases hc : childOf programs argv file held s with
  | none =>
    obtain ⟨part, -, hfiles, -⟩ := runInto_message target hc
    rw [hfiles]
    exact hmessage part
  | some ended =>
    rw [ranInto_child hc]
    exact hran ended hc

/-- What fails is told of under the name of the file. -/
theorem runInto_outcome (hfails : ∀ s', runInto programs argv target file held s ≠ .ok () s') :
    ∃ e, runInto programs argv target file held s =
      .error (.resource target (.os e)) (ranInto programs argv target file held s) := by
  unfold ranInto
  have hran := runInto_ran programs argv target file held s
  generalize runInto programs argv target file held s = r at hran hfails
  cases hran with
  | refused h => exact ⟨_, rfl⟩
  | unstarted h =>
    rw [inFile_run] at hfails ⊢
    cases hw : System.write file 0 errorMessage
        (unstarted argv (s.withSystem s.system.answered)).system with
    | ok u s₁ => rw [hw] at hfails; exact absurd rfl (hfails _)
    | error e s₁ => exact ⟨e, rfl⟩
  | ended => exact absurd rfl (hfails _)

@[simp] theorem ranInto_env :
    (ranInto programs argv target file held s).env = s.env := by
  unfold ranInto
  have hran := runInto_ran programs argv target file held s
  generalize runInto programs argv target file held s = r at hran
  cases hran with
  | refused => rfl
  | unstarted => rw [stateAfter_inFile, withSystem_env, unstarted_env, withSystem_env]
  | ended => exact whenEnded_env _ _ s

end RanInto

/-! ## Into a new file -/

theorem onFile_run {α : Type} (path : Bytes) (answer : Tree → Except OsError α) (s : Shell) :
    onFile path answer s =
      match onName path (answer s.system.files) with
      | .ok a => .ok a s
      | .error e => .error (.resource path e) s := rfl

theorem openFile_run (access : Access) (path : Bytes) (s : Shell) :
    openFile access path s =
      match onName path (s.system.files.openCreating access s.newMode path) with
      | .ok (i, files) => .ok i (s.withFiles files)
      | .error e => .error (.resource path e) s := by
  unfold openFile
  simp only [Action.bind_run, Action.get_run, onFile_run]
  cases onName path (s.system.files.openCreating access s.newMode path) <;> rfl

theorem intoNewFile_eq (argv : List Bytes) (target : Bytes) (s : Shell) :
    intoNewFile programs argv target s =
      match onName target (s.system.files.openCreating .both s.newMode target) with
      | .error e => .error (.resource target e) s
      | .ok (file, files) => runInto programs argv target file [file] (s.withFiles files) := by
  unfold intoNewFile
  rw [Action.bind_run, openFile_run]
  cases onName target (s.system.files.openCreating .both s.newMode target) <;> rfl

/-! ## In front of a file -/

/-- How far a prepend gets before its program is looked for. -/
inductive Prepared
  /-- The command fails and leaves this state behind. -/
  | refused (cause : Failure) (after : Shell)
  /-- The program will write to `file`, and the old content is in `aside`. -/
  | ready (file aside : Ino) (before : Shell)

/-- The tree without the scratch file's name, if that can be taken away. -/
def withoutScratch (scratch : Bytes) (t : Tree) : Tree :=
  match t.unlink scratch with
  | .ok t' => t'
  | .error _ => t

theorem removeScratch_eq (scratch : Bytes) (s : Shell) :
    removeScratch scratch s = s.withFiles (withoutScratch scratch s.system.files) := by
  unfold removeScratch withoutScratch
  cases s.system.files.unlink scratch <;> rfl

/-- The old content is copied to the scratch file, and the target is emptied. -/
def prepare (s : Shell) (target scratch : Bytes) : Prepared :=
  if samePlace s.system.files target scratch then .refused (.scratchConflict target) s
  else match onName target (s.system.files.openExisting .read target) with
    | .error e => .refused (.resource target e) s
    | .ok old =>
      match onName scratch (s.system.files.openCreating .both s.newMode scratch) with
      | .error e => .refused (.resource scratch e) s
      | .ok (aside, files) =>
        match inFile scratch (System.setAside old aside) (s.withFiles (files.truncate aside)) with
        | .error e s => .refused e (removeScratch scratch s)
        | .ok _ s =>
          match onName target (s.system.files.openExisting .write target) with
          | .error e => .refused (.resource target e) (removeScratch scratch s)
          | .ok file => .ready file aside (s.withFiles (s.system.files.truncate file))

/-- When the program has ended, or could not be run, the scratch file's content is put back, and
its name goes away. -/
def finish (target scratch : Bytes) (aside : Ino) (ran : Except Failure Unit) :
    Action Shell Failure Unit :=
  Action.endingWith (removeScratch scratch) do
    putBack target aside
    Action.ofExcept ran

theorem putInFront_eq (argv : List Bytes) (target scratch : Bytes) (s : Shell) :
    putInFront programs argv target scratch s =
      match prepare s target scratch with
      | .refused cause after => .error cause after
      | .ready file aside before =>
        finish target scratch aside
          (outcomeOf (runInto programs argv target file [file, aside] before))
          (ranInto programs argv target file [file, aside] before) := by
  unfold putInFront prepare
  rw [Action.bind_run, Action.get_run]
  by_cases hs : samePlace s.system.files target scratch = true
  · simp only [if_pos hs]; rfl
  simp only [if_neg hs]
  rw [Action.bind_run, onFile_run]
  cases onName target (s.system.files.openExisting .read target) with
  | error e => rfl
  | ok old =>
    simp only
    rw [Action.bind_run, openFile_run]
    cases onName scratch (s.system.files.openCreating .both s.newMode scratch) with
    | error e => rfl
    | ok r =>
      obtain ⟨aside, files⟩ := r
      simp only [Action.bind_run, changeFiles, Action.modify_run, Action.endingWith,
        withFiles_files, withFiles_withFiles]
      cases inFile scratch (System.setAside old aside) (s.withFiles (files.truncate aside)) with
      | error e s₁ => rfl
      | ok u s₁ =>
        simp only [onFile_run]
        cases onName target (s₁.system.files.openExisting .write target) with
        | error e => rfl
        | ok file =>
          simp only [Action.attempt, ranInto, finish, Action.endingWith, Action.bind_run]
          cases runInto programs argv target file [file, aside]
            (s₁.withFiles (s₁.system.files.truncate file)) <;> rfl

/-- What a prepend has done when its program is looked for. Nothing yet, or the scratch file has
been opened and emptied and then filled with a part of what the target holds. -/
inductive Preparation (s : Shell) (target scratch : Bytes) : Prepared → Prop
  | refused {cause : Failure}
      (h : cause = .scratchConflict target ↔ samePlace s.system.files target scratch = true) :
      Preparation s target scratch (.refused cause s)
  | givenUp {old aside : Ino} {files : Tree} {part : Bytes} {system : System} {cause : Failure}
      (hsame : samePlace s.system.files target scratch = false)
      (hread : onName target (s.system.files.openExisting .read target) = .ok old)
      (hopen : onName scratch (s.system.files.openCreating .both s.newMode scratch) =
        .ok (aside, files))
      (hpart : part <+: (files.truncate aside).contents old)
      (hfiles : system.files = (files.truncate aside).append aside part)
      (hinput : system.input = s.system.input)
      (hcause : cause ≠ .scratchConflict target) :
      Preparation s target scratch (.refused cause (removeScratch scratch (s.withSystem system)))
  | ready {old aside file : Ino} {files : Tree} {system : System}
      (hsame : samePlace s.system.files target scratch = false)
      (hread : onName target (s.system.files.openExisting .read target) = .ok old)
      (hopen : onName scratch (s.system.files.openCreating .both s.newMode scratch) =
        .ok (aside, files))
      (hfiles : system.files =
        (files.truncate aside).append aside ((files.truncate aside).contents old))
      (hinput : system.input = s.system.input)
      (hwrite : onName target (system.files.openExisting .write target) = .ok file) :
      Preparation s target scratch
        (.ready file aside ((s.withSystem system).withFiles (system.files.truncate file)))

theorem prepare_cases (s : Shell) (target scratch : Bytes) :
    Preparation s target scratch (prepare s target scratch) := by
  unfold prepare
  by_cases hs : samePlace s.system.files target scratch = true
  · rw [if_pos hs]
    exact .refused (by simp [hs])
  rw [if_neg hs]
  have hsame : samePlace s.system.files target scratch = false := by simpa using hs
  cases hread : onName target (s.system.files.openExisting .read target) with
  | error e => exact .refused (by simp [hs])
  | ok old =>
    simp only
    cases hopen : onName scratch (s.system.files.openCreating .both s.newMode scratch) with
    | error e => exact .refused (by simp [hs])
    | ok r =>
      obtain ⟨aside, files⟩ := r
      simp only [inFile_run]
      obtain ⟨part, hgrew, hpart⟩ :=
        System.setAside_grew old aside (s.withFiles (files.truncate aside)).system
      have hpart := hpart fun e => e ▸ Tree.contents_truncate files aside
      cases hset : System.setAside old aside (s.withFiles (files.truncate aside)).system with
      | error e system =>
        rw [hset] at hgrew
        exact .givenUp hsame hread hopen hpart hgrew.files hgrew.input nofun
      | ok u system =>
        have hgrew := System.setAside_ok hset
        simp only [withSystem_system]
        cases hwrite : onName target (system.files.openExisting .write target) with
        | error e =>
          exact .givenUp hsame hread hopen List.prefix_rfl hgrew.files hgrew.input nofun
        | ok file => exact .ready hsame hread hopen hgrew.files hgrew.input hwrite

/-- Nothing but the system is different by then. -/
theorem prepare_system {s before : Shell} {target scratch : Bytes} {file aside : Ino}
    (h : prepare s target scratch = .ready file aside before) :
    before = s.withSystem before.system := by
  have hcases := prepare_cases s target scratch
  rw [h] at hcases
  cases hcases
  rfl

theorem refused_system {s after : Shell} {target scratch : Bytes} {cause : Failure}
    (h : prepare s target scratch = .refused cause after) :
    after = s.withSystem after.system := by
  have hcases := prepare_cases s target scratch
  rw [h] at hcases
  cases hcases with
  | refused => rfl
  | givenUp => rw [removeScratch_eq]; rfl

/-! ## After the program -/

theorem putBack_eq (target : Bytes) (aside : Ino) (s : Shell) :
    putBack target aside s =
      match onName target (s.system.files.openExisting .write target) with
      | .error e => .error (.resource target e) s
      | .ok file => inFile target (System.copy aside file) s := by
  unfold putBack
  rw [Action.bind_run, onFile_run]
  cases onName target (s.system.files.openExisting .write target) <;> rfl

theorem finish_eq (target scratch : Bytes) (aside : Ino) (ran : Except Failure Unit) (s : Shell) :
    finish target scratch aside ran s =
      match putBack target aside s, ran with
      | .ok _ s', .ok () => .ok () (removeScratch scratch s')
      | .ok _ s', .error e => .error e (removeScratch scratch s')
      | .error e s', _ => .error e (removeScratch scratch s') := by
  unfold finish Action.endingWith
  rw [Action.bind_run]
  cases putBack target aside s with
  | error e s' => rfl
  | ok u s' => cases ran <;> rfl

/-- The scratch file's name goes away in any case. -/
theorem stateAfter_finish (target scratch : Bytes) (aside : Ino) (ran : Except Failure Unit)
    (s : Shell) :
    stateAfter (finish target scratch aside ran s) =
      removeScratch scratch (stateAfter (putBack target aside s)) := by
  rw [finish_eq]
  cases putBack target aside s with
  | error e s' => rfl
  | ok u s' => cases ran <;> rfl

/-- It ends well if the content has been put back and nothing has failed before. -/
theorem finish_ok {target scratch : Bytes} {aside : Ino} {ran : Except Failure Unit} {s s' : Shell}
    (h : finish target scratch aside ran s = .ok () s') :
    ∃ s₁, putBack target aside s = .ok () s₁ ∧ ran = .ok () ∧ s' = removeScratch scratch s₁ := by
  rw [finish_eq] at h
  cases hback : putBack target aside s with
  | error e s₁ => rw [hback] at h; cases h
  | ok u s₁ =>
    rw [hback] at h
    cases ran with
    | error e => cases h
    | ok u' =>
      cases h
      exact ⟨s₁, rfl, rfl, rfl⟩

/-- The target cannot be opened and nothing happens, or it grows by a part of what the scratch file
holds. -/
theorem putBack_cases (target : Bytes) (aside : Ino) (s : Shell) :
    (∃ e, onName target (s.system.files.openExisting .write target) = .error e ∧
      putBack target aside s = .error (.resource target e) s) ∨
    ∃ file part, onName target (s.system.files.openExisting .write target) = .ok file ∧
      (stateAfter (putBack target aside s)).system.files = s.system.files.append file part ∧
      ((aside = file → s.system.files.contents aside = []) →
        part <+: s.system.files.contents aside) := by
  rw [putBack_eq]
  cases ho : onName target (s.system.files.openExisting .write target) with
  | error e => exact Or.inl ⟨e, rfl, rfl⟩
  | ok file =>
    obtain ⟨part, hgrew, hpart⟩ := System.copy_grew aside file s.system
    refine Or.inr ⟨file, part, rfl, ?_, hpart⟩
    simp only [stateAfter_inFile]
    exact hgrew.files

/-- Some file may grow while the content is put back, and nothing else happens. -/
theorem putBack_appends (target : Bytes) (aside : Ino) (s : Shell) : ∃ file part,
    (stateAfter (putBack target aside s)).system.files = s.system.files.append file part := by
  rcases putBack_cases target aside s with ⟨e, -, hback⟩ | ⟨file, part, -, hback, -⟩
  · rw [hback]
    exact ⟨aside, [], (Tree.write_nil s.system.files aside _).symm⟩
  · exact ⟨file, part, hback⟩

/-- What is put back without a failure is there as a whole, and the scratch file is not the target,
unless it is empty. -/
theorem putBack_ok {target : Bytes} {aside : Ino} {s s' : Shell}
    (h : putBack target aside s = .ok () s') :
    ∃ file, onName target (s.system.files.openExisting .write target) = .ok file ∧
      s'.system.files = s.system.files.append file (s.system.files.contents aside) ∧
      (aside = file → s.system.files.contents aside = []) := by
  rw [putBack_eq] at h
  cases ho : onName target (s.system.files.openExisting .write target) with
  | error e => rw [ho] at h; cases h
  | ok file =>
    rw [ho] at h
    simp only [inFile_run] at h
    cases hc : System.copy aside file s.system with
    | error e system => rw [hc] at h; cases h
    | ok u system =>
      rw [hc] at h
      cases h
      exact ⟨file, rfl, (System.copy_ok hc).1.files, (System.copy_ok hc).2⟩

/-- If the disk takes what the scratch file holds, it is put back. -/
theorem putBack_takes {target content : Bytes} {file aside : Ino} {s : Shell} {n : Nat}
    (ho : onName target (s.system.files.openExisting .write target) = .ok file)
    (hself : aside = file → content = []) (hread : s.system.files.read aside = .ok content)
    (hdisk : s.system.disk.Takes (content.length + n)) :
    ∃ s', putBack target aside s = .ok () s' ∧ s'.system.disk.Takes n := by
  obtain ⟨system, hcopy, hsystem⟩ := System.copy_takes hself hread hdisk
  refine ⟨s.withSystem system, ?_, hsystem⟩
  rw [putBack_eq, ho]
  simp only [inFile_run, hcopy]

/-- Putting back is told of in the transcript of no shell, and leaves its environment alone. -/
theorem putBack_system (target : Bytes) (aside : Ino) (s : Shell) :
    ∃ system, stateAfter (putBack target aside s) = s.withSystem system := by
  rw [putBack_eq]
  cases onName target (s.system.files.openExisting .write target) with
  | error e => exact ⟨s.system, rfl⟩
  | ok file => exact ⟨_, stateAfter_inFile target _ s⟩

theorem redirect_eq (config : Config) (argv : List Bytes) (target : Bytes) (op : Operator)
    (s : Shell) :
    redirect programs config argv target op s =
      match s.system.files.leadsToFile (s.env.resolve target), op with
      | true, .overwrite => .error (.targetExists (s.env.resolve target)) s
      | true, .prepend =>
        putInFront programs argv (s.env.resolve target) (s.env.resolve config.scratch) s
      | false, _ => intoNewFile programs argv (s.env.resolve target) s := by
  unfold redirect
  simp only [Action.bind_run, Action.get_run]
  cases s.system.files.leadsToFile (s.env.resolve target) <;> cases op <;> rfl

/-! ## Shells to try things in -/

/-- Programs that end at once and leave everything as it is. -/
def idle : Programs := ⟨fun _ _ _ system => .ok ⟨system, []⟩⟩

theorem idle_child {argv : List Bytes} {file : Ino} {held : List Ino} {before : Shell}
    {ended : Ended} (h : childOf idle argv file held before = some ended) :
    ended.system.files = before.system.files := by
  unfold childOf at h
  split at h
  · cases h
  · obtain ⟨order, -, h⟩ := Option.bind_eq_some_iff.1 h
    unfold endedInto at h
    split at h
    · cases h
    · cases h
      rfl

/-- Programs that print a text, each its own, and do nothing else. -/
def printing (text : Launch → Bytes) : Programs where
  run order output _ system :=
    match output with
    | .terminal => .ok ⟨system, text order⟩
    | .file i => .ok ⟨{ system with files := system.files.write i 0 (text order) }, []⟩

/-- A shell in the root directory of a tree. -/
def atRoot (files : Tree) : Shell := { env := .empty [Bytes.slash], system := { files } }

end LineShell.Shell
