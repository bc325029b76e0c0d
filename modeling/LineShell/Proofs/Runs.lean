import LineShell.Proofs.Redirections
import LineShell.Session

/-!
# What holds across a run

Two ways to prove something of everything that the shell does.

A relation between states that is reflexive and transitive holds across a run if it holds across
the steps of which the run consists.

* `AlongPrograms`: the steps of starting a program, with or without its output in a file.
* `AlongCommands`: and those of a built-in command. `AlongCommands.perform`: so the relation holds
  across each command.
* `AlongRuns`: the steps of a session are writes, whole commands and reads. The commands of a line
  are tried one by one (`tryCommand`, `runCommands_cons_run`).
  `AlongRuns.session`: so the relation holds across each session.

A property of actions holds of a session if it holds of the actions of which the session is put
together, and survives putting them together (`Pervasive`, `Pervasive.run`).

No action is assumed to succeed, and the input may be of any kind.
-/
namespace LineShell

open LineShell.Action (stateAfter)

namespace Action

variable {σ ε δ α β : Type} {Q : σ → σ → Prop}

/-- The relation holds between the states before and after the action, whether it failed or not. -/
def Across (Q : σ → σ → Prop) (x : Action σ ε α) : Prop := ∀ s, Q s (stateAfter (x s))

theorem Across.bind {x : Action σ ε α} {f : α → Action σ ε β} (hx : Across Q x)
    (htrans : ∀ {s t u}, Q s t → Q t u → Q s u) (hf : ∀ a, Across Q (f a)) :
    Across Q (x >>= f) := by
  intro s
  have hxs := hx s
  rw [bind_run]
  cases hr : x s with
  | ok a t => rw [hr] at hxs; exact htrans hxs (hf a t)
  | error e t => rw [hr] at hxs; exact hxs

theorem Across.orFail {x : Action σ ε α} (hx : Across Q x) (f : ε → δ) : Across Q (x.orFail f) := by
  intro s
  have hxs := hx s
  unfold Action.orFail
  cases hr : x s with
  | ok a t => rw [hr] at hxs; exact hxs
  | error e t => rw [hr] at hxs; exact hxs

theorem Across.attempt {x : Action σ ε α} (hx : Across Q x) :
    Across Q (x.attempt : Action σ δ (Except ε α)) := by
  intro s
  have hxs := hx s
  unfold Action.attempt
  cases hr : x s with
  | ok a t => rw [hr] at hxs; exact hxs
  | error e t => rw [hr] at hxs; exact hxs

end Action

open LineShell.Action (Across)

/-! ## Across a command -/

namespace Shell

/-- The relation can be followed along the steps of starting a program. -/
structure AlongPrograms (Q : Shell → Shell → Prop) : Prop where
  refl : ∀ s, Q s s
  trans : ∀ {s t u}, Q s t → Q t u → Q s u
  system : ∀ s system, Q s { s with system }
  launched : ∀ s order started, Q s (s.note (.launched order started))
  printed : ∀ s bytes, Q s (s.note (.printed bytes))

namespace AlongPrograms

variable {Q : Shell → Shell → Prop} (h : AlongPrograms Q) (programs : Programs)
include h

/-- A program was started and has ended. -/
theorem whenEnded (order : Launch) (ended : Ended) (s : Shell) :
    Q s (whenEnded order ended s) := by
  have hran := h.trans (h.launched s order true) (h.system _ ended.system)
  unfold Shell.whenEnded
  simp only
  split
  · exact hran
  · exact h.trans hran (h.printed _ _)

theorem unstarted (argv : List Bytes) (s : Shell) : Q s (unstarted argv s) := by
  unfold Shell.unstarted
  split
  · exact h.refl s
  · exact h.launched s _ _

theorem start (program : Bytes) (argv : List Bytes) (output : Destination) (held : List Ino) :
    Across Q (start programs program argv output held) := by
  intro s
  unfold Shell.start
  split
  · exact h.refl s
  · simp only
    split
    · exact h.launched s _ _
    · split
      · exact h.launched s _ _
      · exact h.whenEnded _ _ s

theorem ranInto (argv : List Bytes) (target : Bytes) (file : Ino) (held : List Ino) (s : Shell) :
    Q s (ranInto programs argv target file held s) := by
  unfold Shell.ranInto
  have hran := runInto_ran programs argv target file held s
  generalize runInto programs argv target file held s = r at hran
  cases hran with
  | refused => exact h.system s _
  | unstarted =>
    rw [stateAfter_inFile]
    exact h.trans (h.trans (h.system s _) (h.unstarted argv _)) (h.system _ _)
  | ended => exact h.whenEnded _ _ s

theorem redirect (config : Config) (argv : List Bytes) (target : Bytes) (op : Operator) :
    Across Q (redirect programs config argv target op) := by
  intro s
  rw [redirect_eq]
  split
  · exact h.refl s
  · rw [putInFront_eq]
    split
    · rename_i hp
      exact refused_system hp ▸ h.system s _
    · rename_i file aside before hp
      have hprepared : Q s before := prepare_system hp ▸ h.system s _
      have hran := h.trans hprepared
        (h.ranInto programs argv (s.env.resolve target) file [file, aside] before)
      refine h.trans hran ?_
      obtain ⟨system, hback⟩ := putBack_system (s.env.resolve target) aside
        (Shell.ranInto programs argv (s.env.resolve target) file [file, aside] before)
      rw [stateAfter_finish, hback, removeScratch_eq]
      exact h.system _ _
  · rw [intoNewFile_eq]
    split
    · exact h.refl s
    · exact h.trans (h.system s _) (h.ranInto programs argv _ _ _ _)

end AlongPrograms

/-- The relation can be followed along the steps of a command. -/
structure AlongCommands (Q : Shell → Shell → Prop) : Prop extends AlongPrograms Q where
  say : ∀ bytes, Across Q (Shell.say bytes)
  goTo : ∀ s dir, Q s { s with env := { s.env with dir } }
  leave : ∀ s, Q s { s with env := { s.env with leaving := true } }

namespace AlongCommands

variable {Q : Shell → Shell → Prop} (h : AlongCommands Q) (programs : Programs)
include h

theorem obey (order : Order) : Across Q (obey order) := by
  have hgoTo : ∀ target, Across Q (Shell.goTo target) := by
    intro target s
    unfold Shell.goTo
    split
    · exact h.refl s
    · exact h.goTo s _
  intro s
  unfold Shell.obey
  split
  · exact h.leave s
  · exact hgoTo _ s
  · split
    · exact h.refl s
    · exact hgoTo _ s
  · exact ((h.say _).bind h.trans fun _ => h.say _).orFail _ s

theorem builtin (b : Builtin) (words : List Bytes) : Across Q (b.run words) := by
  unfold Builtin.run
  split
  · exact h.refl
  · exact h.obey _

theorem handle (name : Bytes) (arguments : List Bytes) (handlers : List Handler) :
    Across Q (handle programs name arguments handlers) := by
  induction handlers with
  | nil => exact h.refl
  | cons handler handlers ih =>
    unfold Shell.handle
    cases handler with
    | builtin b =>
      simp only
      split
      · exact h.builtin b arguments
      · exact ih
    | program =>
      intro s
      simp only [Action.bind_run, Action.get_run]
      cases s.env.findProgram s.system.files name with
      | some program => exact h.start programs _ _ _ _ s
      | none => exact ih s

theorem perform (config : Config) (command : Command) :
    Across Q (perform programs config command) := by
  unfold Shell.perform
  split
  · exact h.refl
  · exact h.refl
  · exact h.handle programs _ _ _
  · exact h.redirect programs config _ _ _

end AlongCommands

/-! ## Across the commands of a line -/

/-- What follows on a command with some outcome: its failure is reported, and the commands behind it
are carried out unless the shell is to leave. -/
def proceed (programs : Programs) (config : Config) (rest : List Bytes)
    (outcome : Except Failure Unit) : Action Shell IoError Unit := do
  match outcome with
  | .ok () => pure ()
  | .error _ => report
  unless (← get).env.leaving do runCommands programs config rest

theorem runCommands_cons (programs : Programs) (config : Config) (raw : Bytes)
    (rest : List Bytes) :
    runCommands programs config (raw :: rest) =
      Action.attempt (runCommand programs config raw) >>= proceed programs config rest := rfl

/-- Carries out one command and reports its failure. -/
def tryCommand (programs : Programs) (config : Config) (raw : Bytes) :
    Action Shell IoError Unit := fun s =>
  match runCommand programs config raw s with
  | .ok () s' => .ok () s'
  | .error _ s' => report s'

/-- Reporting has nothing to do with the environment. -/
theorem tryCommand_env (programs : Programs) (config : Config) (raw : Bytes) (s : Shell) :
    (stateAfter (tryCommand programs config raw s)).env =
      (stateAfter (runCommand programs config raw s)).env := by
  unfold tryCommand
  cases runCommand programs config raw s with
  | ok u s' => rfl
  | error e s' =>
    simp only [stateAfter, report, say]
    rcases s'.transcript.say errorMessage with ⟨_ | _, t⟩ <;> rfl

/-- The commands behind the first are tried unless the shell is to leave by then or a failure could
not be reported. -/
theorem runCommands_cons_run (programs : Programs) (config : Config) (raw : Bytes)
    (rest : List Bytes) (s : Shell) :
    runCommands programs config (raw :: rest) s =
      match tryCommand programs config raw s with
      | .ok () s' => if s'.env.leaving then .ok () s' else runCommands programs config rest s'
      | .error e s' => .error e s' := by
  have hrest : ∀ t : Shell, (do unless (← get).env.leaving do runCommands programs config rest :
      Action Shell IoError Unit) t =
        if t.env.leaving then .ok () t else runCommands programs config rest t := by
    intro t
    simp only [Action.bind_run, Action.get_run]
    cases t.env.leaving <;> rfl
  rw [runCommands_cons, Action.bind_run, Action.attempt, tryCommand]
  cases runCommand programs config raw s with
  | ok u s' => exact hrest s'
  | error e s' =>
    simp only
    rw [proceed, Action.bind_run]
    cases report s' with
    | ok u t => exact hrest t
    | error e t => rfl

/-- The relation can be followed along writes and commands. -/
structure AlongRuns (programs : Programs) (config : Config) (Q : Shell → Shell → Prop) :
    Prop where
  refl : ∀ s, Q s s
  trans : ∀ {s t u}, Q s t → Q t u → Q s u
  say : ∀ bytes, Across Q (Shell.say bytes)
  command : ∀ raw, Across Q (Shell.runCommand programs config raw)

namespace AlongRuns

variable {programs : Programs} {config : Config} {Q : Shell → Shell → Prop}
  (h : AlongRuns programs config Q)
include h

theorem tryCommand (raw : Bytes) : Across Q (tryCommand programs config raw) := by
  intro s
  have hs := h.command raw s
  unfold Shell.tryCommand
  cases hr : runCommand programs config raw s with
  | ok u s' => rw [hr] at hs; exact hs
  | error e s' => rw [hr] at hs; exact h.trans hs (h.say errorMessage s')

theorem proceed {rest : List Bytes} (ih : Across Q (runCommands programs config rest))
    (outcome : Except Failure Unit) : Across Q (proceed programs config rest outcome) := by
  have hrest : Across Q (do unless (← get).env.leaving do runCommands programs config rest) := by
    intro s
    simp only [Action.bind_run, Action.get_run]
    split
    · exact h.refl s
    · exact ih s
  unfold Shell.proceed
  cases outcome with
  | ok u => exact hrest
  | error e => exact (h.say _).bind h.trans fun _ => hrest

theorem runCommands (commands : List Bytes) : Across Q (runCommands programs config commands) := by
  induction commands with
  | nil => exact h.refl
  | cons raw rest ih =>
    rw [runCommands_cons]
    exact (h.command raw).attempt.bind h.trans (h.proceed ih)

theorem runLine (line : Bytes) : Across Q (runLine programs config line) :=
  h.runCommands (commandsOf line)

end AlongRuns

end Shell

/-! ## Across a session -/

namespace Session

open Shell (AlongRuns)

variable {σ : Type} [Supply (σ × System)]

/-- The property holds of the actions of which sessions are put together, and survives putting them
together. -/
structure Pervasive (programs : Programs) (config : Config)
    (P : ∀ {ε α : Type}, Action (Shell × σ) ε α → Prop) : Prop where
  pure : ∀ {ε α : Type} (a : α), P (pure a : Action (Shell × σ) ε α)
  bind : ∀ {ε α β : Type} {x : Action (Shell × σ) ε α} {f : α → Action (Shell × σ) ε β},
    P x → (∀ a, P (f a)) → P (x >>= f)
  orFail : ∀ {ε δ α : Type} {x : Action (Shell × σ) ε α}, P x → ∀ f : ε → δ, P (x.orFail f)
  say : ∀ bytes, P (onShell (Shell.say bytes))
  line : ∀ line, P (onShell (Shell.runLine programs config line))
  read : P (read config)
  /-- What becomes of the session after a line depends on the environment. -/
  staying : P (do return !(← get).1.env.leaving : Action (Shell × σ) SessionFailure Bool)
  /-- How often an action is repeated at most depends on what is left of the input. -/
  enough : ∀ {ε α : Type} {x : Nat → Action (Shell × σ) ε α}, (∀ n, P (x n)) →
    P fun s => x (remaining s + 1) s

namespace Pervasive

variable {programs : Programs} {config : Config}
  {P : ∀ {ε α : Type}, Action (Shell × σ) ε α → Prop} (h : Pervasive programs config P)
include h

theorem passOver : P (passOver config : Action (Shell × σ) IoError Unit) := by
  refine h.enough fun n => ?_
  induction n with
  | zero => exact h.pure ()
  | succ n ih =>
    unfold echoRest
    refine h.bind h.read fun chunk => ?_
    cases chunk with
    | none => exact h.pure ()
    | some chunk =>
      refine h.bind (h.say _) fun _ => ?_
      split
      · exact h.pure ()
      · exact ih

theorem turn (mode : SessionMode) :
    P (turn programs config mode : Action (Shell × σ) SessionFailure Bool) := by
  have hsay : ∀ bytes, P ((onShell (Shell.say bytes) : Action (Shell × σ) IoError Unit).orFail
      SessionFailure.output) := fun bytes => h.orFail (h.say bytes) _
  -- What follows on a chunk that is not skipped is the same in both modes.
  have hchunk : ∀ chunk : Chunk, P (do
      (onShell (Shell.say chunk.bytes)).orFail .output
      if chunk.isOverlong then
        (Session.passOver config).orFail .input
        (onShell Shell.report).orFail .output
        return true
      (onShell (Shell.runLine programs config chunk.text)).orFail .output
      return !(← get).1.env.leaving : Action (Shell × σ) SessionFailure Bool) := by
    intro chunk
    refine h.bind (hsay _) fun _ => ?_
    split
    · exact h.bind (h.orFail h.passOver _) fun _ => h.bind (hsay _) fun _ => h.pure true
    · exact h.bind (h.orFail (h.line _) _) fun _ => h.staying
  unfold Session.turn
  cases mode with
  | interactive =>
    refine h.bind (hsay _) fun _ => h.bind (h.orFail h.read _) fun chunk => ?_
    cases chunk with
    | none => exact h.bind (hsay _) fun _ => h.pure false
    | some chunk => exact hchunk chunk
  | batch =>
    refine h.bind (h.orFail h.read _) fun chunk => ?_
    cases chunk with
    | none => exact h.pure false
    | some chunk =>
      by_cases hb : chunk.isBlank = true
      · simp only [hb]
        exact h.pure true
      · simp only [hb]
        exact hchunk chunk

/-- The property holds of sessions. -/
theorem run (mode : SessionMode) :
    P (run programs config mode : Action (Shell × σ) SessionFailure Unit) := by
  refine h.enough fun n => ?_
  induction n with
  | zero => exact h.pure ()
  | succ n ih =>
    unfold turns
    refine h.bind (h.turn mode) fun goOn => ?_
    split
    · exact ih
    · exact h.pure ()

end Pervasive

variable {programs : Programs} {config : Config} {Q : Shell → Shell → Prop}

/-- Between the shells before and after the action the relation holds. -/
abbrev OnShells (Q : Shell → Shell → Prop) : Shell × σ → Shell × σ → Prop := fun s t => Q s.1 t.1

omit [Supply (σ × System)] in
theorem across_onShell {ε α : Type} {x : Action Shell ε α} (hx : Across Q x) :
    Across (OnShells Q) (onShell x : Action (Shell × σ) ε α) := by
  intro s
  have hxs := hx s.1
  unfold onShell
  cases hr : x s.1 with
  | ok a t => rw [hr] at hxs; exact hxs
  | error e t => rw [hr] at hxs; exact hxs

theorem across_pervasive (h : AlongRuns programs config Q)
    (hread : Across (OnShells Q) (read config : Action (Shell × σ) IoError _)) :
    Pervasive programs config fun {ε α} (x : Action (Shell × σ) ε α) => Across (OnShells Q) x where
  pure _ s := h.refl s.1
  bind hx hf := hx.bind h.trans hf
  orFail hx f := hx.orFail f
  say bytes := across_onShell (h.say bytes)
  line line := across_onShell (h.runLine line)
  read := hread
  staying s := h.refl s.1
  enough hx s := hx _ s

end Session

/-- The relation holds between the beginning and the end of a session. -/
theorem Shell.AlongRuns.session {programs : Programs} {config : Config} {Q : Shell → Shell → Prop}
    (h : AlongRuns programs config Q) {σ : Type} [Supply (σ × System)]
    (hread : Across (Session.OnShells Q) (Session.read config : Action (Shell × σ) IoError _))
    (mode : SessionMode) :
    Across (Session.OnShells Q)
      (Session.run programs config mode : Action (Shell × σ) SessionFailure Unit) :=
  (Session.across_pervasive h hread).run mode

end LineShell
