import LineShell.Proofs.ProgramLookup

/-!
# What the shell answers

A user hears little of a shell whose output takes everything: one message for each command that
fails, and the working directory for each `pwd`. A redirection whose program does not run has
nothing to say either, since its message is in the target.

* `Answers`: what an action writes if it succeeds, when it writes nothing before it fails.
  `runCommand_answers`: so it is with every command.
* `answerTo`: what is written about a command, with the report of its failure.
* `runCommands_answers`: commands are answered one by one.
* `stagesOf_complete`: which commands are tried. No failure keeps one from it.
* `line_answers`: the answer to a line.
-/
namespace LineShell.Shell

open Bytes (newline)
open LineShell.Action (stateAfter Across)

/-! ## Nothing is written before a failure -/

/-- The shell itself has written nothing. -/
def Silent (s t : Shell) : Prop := t.transcript.said = s.transcript.said

theorem silent_note {e : Event} (he : Transcript.saidIn [e] = []) (s : Shell) :
    Silent s (s.note e) := by
  show (s.transcript.note e).said = _
  rw [(grew_note s.transcript e).said, he, List.append_nil]

theorem silent_alongPrograms : AlongPrograms Silent where
  refl _ := rfl
  trans h h' := h'.trans h
  system _ _ := rfl
  launched s order started := silent_note (e := .launched order started) rfl s
  printed s bytes := silent_note (e := .printed bytes) rfl s

/-- The action writes `bytes` if it succeeds, and nothing if it fails. -/
def Answers (bytes : Bytes) (x : Action Shell Failure Unit) (s : Shell) : Prop :=
  match x s with
  | .ok () s' => s'.transcript.said = s.transcript.said ++ bytes
  | .error _ s' => Silent s s'

theorem answers_of_silent {x : Action Shell Failure Unit} {s : Shell}
    (h : Silent s (stateAfter (x s))) : Answers [] x s := by
  unfold Answers
  cases hr : x s with
  | ok u s' =>
    rw [hr] at h
    exact h.trans (List.append_nil _).symm
  | error e s' =>
    rw [hr] at h
    exact h

/-- What a built-in command has to tell in a state. -/
def answerIn (s : Shell) : Option Builtin → Bytes
  | some .pwd => s.env.dir ++ [newline]
  | _ => []

theorem silent_goTo (target : Bytes) (s : Shell) : Silent s (stateAfter (goTo target s)) := by
  unfold goTo
  split <;> rfl

/-- Only the working directory is told, in two writes that an output without limit takes. -/
theorem answers_obey (order : Order) {s : Shell} (hroom : s.transcript.room = none) :
    Answers (if order = .tellDirectory then s.env.dir ++ [newline] else []) (obey order) s := by
  cases order with
  | leave => exact answers_of_silent rfl
  | goTo target =>
    rw [if_neg nofun]
    cases target with
    | some target => exact answers_of_silent (silent_goTo target s)
    | none =>
      apply answers_of_silent
      simp only [obey]
      cases s.home? with
      | none => exact rfl
      | some home => exact silent_goTo home s
  | tellDirectory =>
    have hsay : obey .tellDirectory s =
        .ok () ((s.noteAll [.said s.env.dir]).noteAll [.said [newline]]) := by
      simp only [obey, Action.orFail, Action.bind_run, say_run hroom,
        say_run (s := s.noteAll [.said s.env.dir]) hroom]
    rw [if_pos rfl, Answers, hsay]
    simp [noteAll, Transcript.said, Transcript.saidIn]

theorem answers_builtin (b : Builtin) (words : List Bytes) {s : Shell}
    (hroom : s.transcript.room = none) : Answers (answerIn s (some b)) (b.run words) s := by
  unfold Builtin.run
  cases ho : b.order? words with
  | none => exact (rfl : Silent s s)
  | some order =>
    have hanswer : answerIn s (some b) =
        if order = .tellDirectory then s.env.dir ++ [newline] else [] := by
      cases b with
      | exit =>
        obtain ⟨-, -, rfl⟩ := Option.map_eq_some_iff.1 ho
        rfl
      | cd =>
        obtain ⟨-, -, rfl⟩ := Option.map_eq_some_iff.1 ho
        rfl
      | pwd =>
        obtain ⟨-, -, rfl⟩ := Option.map_eq_some_iff.1 ho
        rfl
    rw [hanswer]
    exact answers_obey order hroom

/-! ## Commands -/

/-- The built-in command to which a command falls. There is none for a redirection, and none if a
program takes the name before. -/
def builtinFor (config : Config) (s : Shell) (raw : Bytes) : Option Builtin :=
  match Command.parse raw with
  | .ok (.simple (name :: _)) =>
    match config.handlers.find? (Handler.takes s name) with
    | some (.builtin b) => some b
    | _ => none
  | _ => none

/-- A failure is reported; otherwise only the built-in command has something to tell. -/
def answerTo (programs : Programs) (config : Config) (raw : Bytes) (s : Shell) : Bytes :=
  match runCommand programs config raw s with
  | .ok () _ => answerIn s (builtinFor config s raw)
  | .error _ _ => errorMessage

section Commands

variable (programs : Programs) (config : Config)

theorem Answers.noting {bytes raw : Bytes} {x : Action Shell Failure Unit} {s : Shell}
    (h : Answers bytes x s) : Answers bytes (noting raw x) s := by
  unfold Answers at h ⊢
  unfold Shell.noting
  cases hr : x s with
  | ok u s' =>
    rw [hr] at h
    exact (silent_note (e := .carriedOut raw none) rfl s').trans h
  | error e s' =>
    rw [hr] at h
    exact (silent_note (e := .carriedOut raw (some e)) rfl s').trans h

/-- A command that fails has written nothing. One that succeeds has told what its built-in command
has to tell. -/
theorem runCommand_answers (raw : Bytes) {s : Shell} (hroom : s.transcript.room = none) :
    Answers (answerIn s (builtinFor config s raw)) (runCommand programs config raw) s := by
  unfold runCommand builtinFor
  cases Command.parse raw with
  | error e => exact Answers.noting (answers_of_silent (x := throw e) rfl)
  | ok command =>
    cases command with
    | empty => exact answers_of_silent rfl
    | redirect argv target op =>
      exact .noting (answers_of_silent
        (silent_alongPrograms.redirect programs config argv target op s))
    | simple argv =>
      cases argv with
      | nil => exact .noting (answers_of_silent rfl)
      | cons name arguments =>
        refine .noting ?_
        simp only [perform, run, Answers, handle_eq]
        cases config.handlers.find? (Handler.takes s name) with
        | none => exact (rfl : Silent s s)
        | some handler =>
          cases handler with
          | builtin b => exact answers_builtin b arguments hroom
          | program => exact answers_of_silent (silent_alongPrograms.start programs _ _ _ _ s)

/-- One command is answered, and its failure is reported once. -/
theorem tryCommand_answers (raw : Bytes) {s : Shell} (hroom : s.transcript.room = none) :
    (stateAfter (tryCommand programs config raw s)).transcript.said =
      s.transcript.said ++ answerTo programs config raw s := by
  have hanswers := runCommand_answers programs config raw hroom
  have hkept := (keeps_runCommand programs config raw s).room hroom
  unfold Answers at hanswers
  unfold tryCommand answerTo
  cases hr : runCommand programs config raw s with
  | ok u s' =>
    rw [hr] at hanswers
    exact hanswers
  | error e s' =>
    rw [hr] at hanswers hkept
    have hreport : report s' = .ok () (s'.noteAll [.said errorMessage]) := say_run hkept errorMessage
    simp only [hreport]
    show (s'.transcript.note (.said errorMessage)).said = s.transcript.said ++ errorMessage
    rw [(grew_note s'.transcript _).said, hanswers, Transcript.saidIn, List.flatMap_singleton]

/-! ## Lines -/

/-- What is written about commands is what is written about each of them, in order. -/
theorem runCommands_answers (commands : List Bytes) : ∀ {s : Shell}, s.transcript.room = none →
    ∃ s', runCommands programs config commands s = .ok () s' ∧
      s'.transcript.said = s.transcript.said ++
        (stagesOf programs config commands s).flatMap
          fun stage => answerTo programs config stage.raw stage.before := by
  induction commands with
  | nil => exact fun {s} _ => ⟨s, rfl, (List.append_nil _).symm⟩
  | cons raw rest ih =>
    intro s hroom
    have hone := tryCommand_answers programs config raw hroom
    obtain ⟨t, hr, hroom'⟩ := tryCommand_unlimited programs config raw hroom
    rw [runCommands_cons_run, stagesOf, hr]
    rw [hr] at hone
    simp only
    by_cases hl : t.env.leaving = true
    · rw [if_pos hl, if_pos hl]
      refine ⟨t, rfl, ?_⟩
      rw [List.flatMap_singleton]
      exact hone
    · obtain ⟨s', hrest, hsaid⟩ := ih hroom'
      rw [if_neg hl, if_neg hl]
      refine ⟨s', hrest, ?_⟩
      rw [hsaid, show t.transcript.said = _ from hone, List.flatMap_cons, List.append_assoc]

/-- All commands are tried, or all up to one that makes the shell leave. -/
theorem stagesOf_complete (commands : List Bytes) : ∀ {s : Shell}, s.transcript.room = none →
    s.env.leaving = false →
    (stagesOf programs config commands s).map Stage.raw = commands ∨
      ∃ last ∈ (stagesOf programs config commands s).getLast?,
        Exits config last.before last.raw := by
  induction commands with
  | nil => exact fun _ _ => Or.inl rfl
  | cons raw rest ih =>
    intro s hroom hstay
    by_cases hexits : Exits config s raw
    · right
      have hr : tryCommand programs config raw s = .ok () (s.exited raw) := by
        rw [tryCommand, exits_run programs config hexits]
      rw [stagesOf, hr]
      exact ⟨_, rfl, hexits⟩
    · obtain ⟨t, hr, hroom', hstay', -⟩ := tryCommand_stays programs config hroom hstay hexits
      rw [stagesOf, hr]
      simp only [hstay', Bool.false_eq_true, if_false, List.map_cons, List.cons.injEq, true_and]
      refine (ih hroom' hstay').imp_right ?_
      rintro ⟨last, hlast, hexits⟩
      refine ⟨last, ?_, hexits⟩
      rw [List.getLast?_cons, Option.mem_def.1 hlast]
      rfl

/-- A command that fails does not make the shell leave. -/
theorem stays_of_error {raw : Bytes} {s t : Shell} {e : Failure}
    (he : runCommand programs config raw s = .error e t) : t.env.leaving = s.env.leaving := by
  have hnot : ¬ Exits config s raw := by
    intro hexits
    rw [exits_run programs config hexits] at he
    cases he
  have hstays := stays_of_not_exits programs config hnot
  rw [he] at hstays
  exact hstays

/-- A command is tried by a shell that stays and whose output takes everything. -/
theorem stagesOf_before (commands : List Bytes) : ∀ {s : Shell} {stage : Stage},
    stage ∈ stagesOf programs config commands s → s.transcript.room = none →
    s.env.leaving = false →
    stage.before.transcript.room = none ∧ stage.before.env.leaving = false := by
  induction commands with
  | nil => exact fun hm => by cases hm
  | cons raw rest ih =>
    intro s stage hm hroom hstay
    obtain ⟨t, hr, hroom'⟩ := tryCommand_unlimited programs config raw hroom
    rw [stagesOf, hr] at hm
    rcases List.mem_cons.1 hm with rfl | hm
    · exact ⟨hroom, hstay⟩
    · split at hm
      · cases hm
      · rename_i hl
        exact ih hm hroom' (Bool.eq_false_iff.2 hl)

variable {programs config} {raw : Bytes} {s : Shell}

/-- A command that fails has written nothing. It is reported, and the shell stays. -/
theorem failed_reported {t : Shell} {e : Failure} (hroom : s.transcript.room = none)
    (hstay : s.env.leaving = false) (he : runCommand programs config raw s = .error e t) :
    let after := stateAfter (tryCommand programs config raw s)
    Silent s t ∧ report t = .ok () after ∧ after.env.leaving = false := by
  have hanswers := runCommand_answers programs config raw hroom
  have hkept := (keeps_runCommand programs config raw s).room hroom
  rw [Answers, he] at hanswers
  rw [he] at hkept
  have hreport : report t = .ok () (t.noteAll [.said errorMessage]) := say_run hkept errorMessage
  rw [tryCommand, he]
  simp only [hreport]
  exact ⟨hanswers, rfl, (stays_of_error programs config he).trans hstay⟩

/-- A redirection whose program does not run tells of that in the file that stands in for the
program's output, and without a word on the terminal if it succeeds. -/
theorem redirected_unstarted {argv : List Bytes} {target : Bytes} {op : Operator} {file : Ino}
    {held : List Ino} {before : Shell} (hp : Command.parse raw = .ok (.redirect argv target op))
    (hstart : s.startOf (s.env.resolve target) (s.env.resolve config.scratch) op =
      some (file, held, before))
    (hchild : childOf programs argv file held before = none) :
    Silent s (stateAfter (runCommand programs config raw s)) ∧
      Told programs argv (s.env.resolve target) file held before
        (runCommand programs config raw s) := by
  have htold := redirect_told programs config argv hstart hchild
  have hsilent : Silent s (stateAfter (redirect programs config argv target op s)) := by
    have hran : Silent before (ranInto programs argv (s.env.resolve target) file held before) :=
      silent_alongPrograms.ranInto programs argv _ file held before
    unfold Silent at hran ⊢
    rw [redirect_transcript programs config argv hstart, hran, startOf_system hstart]
    rfl
  rw [runCommand, hp]
  simp only [noting, perform]
  cases hr : redirect programs config argv target op s with
  | ok u t =>
    rw [hr] at htold hsilent
    refine ⟨(silent_note (e := .carriedOut raw none) rfl t).trans hsilent, ?_⟩
    cases htold with
    | told hmessage => exact .told hmessage
  | error e t =>
    rw [hr] at htold hsilent
    refine ⟨(silent_note (e := .carriedOut raw (some e)) rfl t).trans hsilent, ?_⟩
    cases htold with
    | behind hheld hback hmessage => exact .behind hheld hback hmessage
    | unwritten hfull => exact .unwritten hfull

end Commands

/-- **The answer to a line.** What the shell itself writes on a line is what it writes on each of
its commands, in order: one message for each failure, the working directory and a newline for each
`pwd` that succeeds, and nothing for any other command. The commands are all those of the line, or
all up to an `exit`. One that fails has written nothing before it is reported, and the shell stays.
A redirection that has opened its target and whose program does not run is no failure in itself:
nothing is written on it, and the message is in the target, if that takes it. -/
theorem line_answers (programs : Programs) (config : Config) (line : Bytes) {s : Shell}
    (hroom : s.transcript.room = none) (hstay : s.env.leaving = false) :
    let stages := stagesOf programs config (commandsOf line) s
    (∃ s', runLine programs config line s = .ok () s' ∧ s'.transcript.said =
      s.transcript.said ++
        stages.flatMap fun stage => answerTo programs config stage.raw stage.before) ∧
    (stages.map Stage.raw = commandsOf line ∨
      stages.map Stage.raw <+: commandsOf line ∧
        ∃ last ∈ stages.getLast?, Exits config last.before last.raw) ∧
    stages.map Stage.before <+: s :: stages.map Stage.after ∧
    ∀ stage ∈ stages,
      (∀ e t, runCommand programs config stage.raw stage.before = .error e t →
        Silent stage.before t ∧ report t = .ok () stage.after ∧
          stage.after.env.leaving = false) ∧
      ∀ argv target op file held before,
        Command.parse stage.raw = .ok (.redirect argv target op) →
        stage.before.startOf (stage.before.env.resolve target)
          (stage.before.env.resolve config.scratch) op = some (file, held, before) →
        childOf programs argv file held before = none →
        Told programs argv (stage.before.env.resolve target) file held before
            (runCommand programs config stage.raw stage.before) ∧
          ∀ t, runCommand programs config stage.raw stage.before = .ok () t →
            stage.after = t ∧ Silent stage.before t := by
  intro stages
  obtain ⟨hraw, hbefore, -⟩ := runCommands_course programs config (commandsOf line) s
  refine ⟨runCommands_answers programs config (commandsOf line) hroom,
    (stagesOf_complete programs config (commandsOf line) hroom hstay).imp_right fun h => ⟨hraw, h⟩,
    hbefore, fun stage hm => ?_⟩
  have hafter := stagesOf_try programs config (commandsOf line) hm
  obtain ⟨hroom', hstay'⟩ := stagesOf_before programs config (commandsOf line) hm hroom hstay
  constructor
  · intro e t he
    rw [hafter]
    exact failed_reported hroom' hstay' he
  · intro argv target op file held before hp hstart hchild
    obtain ⟨hsilent, htold⟩ := redirected_unstarted hp hstart hchild
    refine ⟨htold, fun t hr => ?_⟩
    rw [tryCommand, hr] at hafter
    rw [hr] at hsilent
    exact ⟨hafter, hsilent⟩

section Runs

open Bytes (ofString)

/-- Of eight commands four fail, one tells the directory, and one puts the message into a file. -/
theorem eight_commands_answered :
    let s := atRoot .empty
    let line := ofString "nosuch >f;exit now;nosuch;;cd /f;pwd;pwd >g;exit;pwd"
    s.transcript.room = none ∧ s.env.leaving = false ∧
    ∃ s', runLine idle {} line s = .ok () s' ∧
      s'.transcript.said = errorMessage ++ errorMessage ++ errorMessage ++ ofString "/\n" ++
        errorMessage := by
  intro s line
  have hroom : s.transcript.room = none := rfl
  have hstay : s.env.leaving = false := rfl
  obtain ⟨⟨s', hr, hsaid⟩, -⟩ := line_answers idle {} line hroom hstay
  exact ⟨hroom, hstay, s', hr, hsaid.trans (by decide)⟩

end Runs

end LineShell.Shell
