import LineShell.Proofs.Runs
import LineShell.Proofs.ScratchGuard

/-!
# What becomes of the environment

A shell is called again and again, for a command, a line or a whole session, and between the calls
anything may happen to the system. Of its environment the variables never change, `exit` sets the
flag to leave and nothing takes it back, and the working directory is where the last `cd` went.

* `PhysicalDirectory`: a path to a directory without links, `.` and `..`. `cd` goes to such paths
  (`directoryAt_physical`).
* `Task`: a command as it is typed, or by its name and arguments. `carryOut_settles`: what a task
  does to the environment, and that a task that fails does nothing to it.
* `Step`: a write, a read or a task. `step_lawful`: what a step may do to the environment.
* `exists_course`: every call is a course of steps. `environment_history`: what this means for a
  history of calls.
-/
namespace LineShell

open LineShell.Action (stateAfter Across)

/-! ## Physical directories -/

namespace Tree

/-- The names lead from file to file, each an entry of the directory before it. -/
def Descends (t : Tree) : Ino → List Bytes → Ino → Prop
  | i, [], j => i = j
  | i, name :: names, j => ∃ mode entries k,
      t.node? i = some (.directory mode entries) ∧ entries.lookup name = some k ∧
        Descends t k names j

/-- The path is absolute and spells out names, none of them `.` or `..`, that lead down from the
root directory to a directory. Each is an entry of the directory before it, so none is a link. -/
structure PhysicalDirectory (t : Tree) (path : Bytes) : Prop where
  absolute : Path.isAbsolute path = true
  spelled : ∃ names i mode entries, path = Path.ofNames names ∧ (∀ name ∈ names, Proper name) ∧
    t.Descends root names i ∧ t.node? i = some (.directory mode entries)

theorem descends_snoc {t : Tree} {mode : Mode} {entries : Entries} {name : Bytes} {j k : Ino}
    (hn : t.node? j = some (.directory mode entries)) (hl : entries.lookup name = some k)
    (names : List Bytes) :
    ∀ {i : Ino}, t.Descends i names j → t.Descends i (names ++ [name]) k := by
  induction names with
  | nil =>
    intro i h
    obtain rfl : i = j := h
    exact ⟨mode, entries, k, hn, hl, rfl⟩
  | cons first names ih =>
    rintro i ⟨mode', entries', i', hn', hl', h⟩
    exact ⟨mode', entries', i', hn', hl', ih h⟩

end Tree

theorem Trail.Valid.descends {t : Tree} {trail : Trail} (h : trail.Valid t) :
    t.Descends Tree.root (trail.reverse.map Prod.fst) trail.here := by
  -- A trail has its innermost name first, which is the last one on the way down.
  induction trail with
  | nil => rfl
  | cons e dir ih =>
    obtain ⟨hdir, -, mode, entries, hn, hl⟩ := h
    rw [List.reverse_cons, List.map_append]
    exact Tree.descends_snoc hn hl _ (ih hdir)

theorem Path.isAbsolute_ofNames (names : List Bytes) :
    Path.isAbsolute (Path.ofNames names) = true := by
  cases names <;> rfl

/-- A directory that `cd` goes to is known by its physical path. -/
theorem Shell.directoryAt_physical {t : Tree} {path dir : Bytes}
    (h : directoryAt t path = .ok dir) : t.PhysicalDirectory dir := by
  unfold directoryAt at h
  cases ho : onName path (t.spellOut path) with
  | error e =>
    rw [ho] at h
    cases h
  | ok trail =>
    rw [ho] at h
    simp only at h
    split at h
    · rename_i hd
      cases h
      have hv := Tree.spellOut_valid (onName_ok_iff.1 ho).2
      cases hn : t.node? trail.here with
      | none => simp [hn] at hd
      | some n =>
        cases n with
        | directory mode entries =>
          exact ⟨Path.isAbsolute_ofNames _, _, _, mode, entries, rfl,
            fun name hm => hv.proper name (by simpa using hm), hv.descends, hn⟩
        | file mode data => simp [hn, Node.isDirectory] at hd
        | link target => simp [hn, Node.isDirectory] at hd
        | null => simp [hn, Node.isDirectory] at hd
    · cases h

/-! ## Tasks -/

/-- Something that a shell is asked to carry out. -/
inductive Task
  /-- A command as it stands in a line. -/
  | command (raw : Bytes)
  /-- A command by its name and arguments. -/
  | call (name : Bytes) (arguments : List Bytes)
  deriving DecidableEq, Repr

namespace Task

def carryOut (programs : Programs) (config : Config) : Task → Action Shell Failure Unit
  | .command raw => Shell.runCommand programs config raw
  | .call name arguments => Shell.run programs config name arguments

/-- The words of the task. There are none if it has to do with a file or cannot be read. -/
def words : Task → List Bytes
  | .command raw =>
    match Command.parse raw with
    | .ok (.simple argv) => argv
    | _ => []
  | .call name arguments => name :: arguments

/-- The task asks for a built-in command. -/
def Names (b : Builtin) (task : Task) : Prop := ∃ arguments, task.words = b.name :: arguments

end Task

namespace Shell

/-- What a task of these words does to the environment if it succeeds: nothing, or the shell has
been told to leave by `exit`, or it has gone to a directory by `cd`. -/
inductive Settles (words : List Bytes) (s s' : Shell) : Prop
  | same (henv : s'.env = s.env)
  | left (arguments : List Bytes) (hwords : words = Builtin.exit.name :: arguments)
    (henv : s'.env = { s.env with leaving := true })
  | moved (arguments : List Bytes) (hwords : words = Builtin.cd.name :: arguments) (dir : Bytes)
    (henv : s'.env = { s.env with dir }) (hsystem : s'.system = s.system)
    (hdir : s.system.files.PhysicalDirectory dir)

/-- What the action does to the environment is what a task of these words may do. If it fails, it
does nothing to it. -/
def Settling (words : List Bytes) (x : Action Shell Failure Unit) : Prop := ∀ s,
  match x s with
  | .ok () s' => Settles words s s'
  | .error _ s' => s'.env = s.env

/-- Programs have environments of their own. -/
theorem env_alongPrograms : AlongPrograms fun s t => t.env = s.env where
  refl _ := rfl
  trans h h' := h'.trans h
  system _ _ := rfl
  launched _ _ _ := rfl
  printed _ _ := rfl

theorem settling_of_across {words : List Bytes} {x : Action Shell Failure Unit}
    (h : Across (fun s t => t.env = s.env) x) : Settling words x := by
  intro s
  have hs := h s
  cases hr : x s with
  | ok u s' => rw [hr] at hs; exact .same hs
  | error e s' => rw [hr] at hs; exact hs

theorem settling_goTo {words arguments : List Bytes}
    (hwords : words = Builtin.cd.name :: arguments) (target : Bytes) :
    Settling words (goTo target) := by
  intro s
  unfold goTo
  cases hd : directoryAt s.system.files (s.env.resolve target) with
  | error e => rfl
  | ok dir => exact .moved arguments hwords dir rfl rfl (directoryAt_physical hd)

/-- The shell writes, and its environment stays. -/
theorem say_env (bytes : Bytes) : Across (fun s t => t.env = s.env) (say bytes) := by
  intro s
  unfold say
  rcases s.transcript.say bytes with ⟨_ | _, t⟩
  · rfl
  · rfl

theorem settling_builtin (b : Builtin) (words : List Bytes) :
    Settling (b.name :: words) (b.run words) := by
  intro s
  unfold Builtin.run
  cases ho : b.order? words with
  | none => rfl
  | some order =>
    cases b with
    | exit =>
      obtain ⟨-, -, rfl⟩ := Option.map_eq_some_iff.1 ho
      exact .left words rfl rfl
    | cd =>
      obtain ⟨target, -, rfl⟩ := Option.map_eq_some_iff.1 ho
      cases target with
      | some target => exact settling_goTo rfl target s
      | none =>
        simp only [obey]
        cases s.home? with
        | none => rfl
        | some home => exact settling_goTo rfl home s
    | pwd =>
      obtain ⟨-, -, rfl⟩ := Option.map_eq_some_iff.1 ho
      have htell : Across (fun s t => t.env = s.env) (obey .tellDirectory) := fun s =>
        ((say_env s.env.dir).bind (fun h h' => h'.trans h) fun _ => say_env [Bytes.newline]).orFail
          Failure.output s
      exact settling_of_across htell s

variable (programs : Programs) (config : Config)

theorem settling_handle (name : Bytes) (arguments : List Bytes) (handlers : List Handler) :
    Settling (name :: arguments) (handle programs name arguments handlers) := by
  induction handlers with
  | nil => exact fun s => rfl
  | cons handler handlers ih =>
    unfold handle
    cases handler with
    | builtin b =>
      simp only
      split
      · rename_i hb
        rw [← hb]
        exact settling_builtin b arguments
      · exact ih
    | program =>
      intro s
      simp only [Action.bind_run, Action.get_run]
      cases s.env.findProgram s.system.files name with
      | some program =>
        exact settling_of_across (env_alongPrograms.start programs program _ _ _) s
      | none => exact ih s

theorem settling_noting {words : List Bytes} {x : Action Shell Failure Unit} (raw : Bytes)
    (h : Settling words x) : Settling words (noting raw x) := by
  intro s
  have hs := h s
  unfold noting
  cases hr : x s with
  | error e s' => rw [hr] at hs; exact hs
  | ok u s' =>
    rw [hr] at hs
    cases hs with
    | same henv => exact .same henv
    | left arguments hwords henv => exact .left arguments hwords henv
    | moved arguments hwords dir henv hsystem hdir =>
      exact .moved arguments hwords dir henv hsystem hdir

/-- What a task does to the environment. -/
theorem carryOut_settles (task : Task) : Settling task.words (task.carryOut programs config) := by
  cases task with
  | call name arguments => exact settling_handle programs name arguments config.handlers
  | command raw =>
    simp only [Task.carryOut, Task.words, runCommand]
    cases Command.parse raw with
    | error e => exact settling_noting raw fun s => rfl
    | ok command =>
      cases command with
      | empty => exact fun s => .same rfl
      | redirect argv target op =>
        exact settling_noting raw
          (settling_of_across (env_alongPrograms.redirect programs config argv target op))
      | simple argv =>
        refine settling_noting raw ?_
        cases argv with
        | nil => exact fun s => .same rfl
        | cons name arguments => exact settling_handle programs name arguments config.handlers

end Shell

/-! ## Steps -/

/-- What happens to a shell while it does what it was called for. -/
inductive Step
  /-- The shell writes. -/
  | said (bytes : Bytes)
  /-- A read takes from standard input. -/
  | took (input : Option (Ino × Nat))
  | did (config : Config) (task : Task)

/-- The shell after the step. -/
def Step.after (programs : Programs) : Step → Shell → Shell
  | .said bytes, s => stateAfter (Shell.say bytes s)
  | .took input, s => { s with system := { s.system with input } }
  | .did config task, s => stateAfter (task.carryOut programs config s)

/-- The shell after a course of steps. -/
def follow (programs : Programs) (steps : List Step) (s : Shell) : Shell :=
  steps.foldl (fun s step => step.after programs s) s

theorem follow_append (programs : Programs) (steps steps' : List Step) (s : Shell) :
    follow programs (steps ++ steps') s = follow programs steps' (follow programs steps s) :=
  List.foldl_append

/-- In this state the step is a task that asks for the built-in command, and it succeeds. -/
def DoneBy (programs : Programs) (b : Builtin) (s : Shell) (step : Step) : Prop :=
  ∃ config task, step = .did config task ∧ task.Names b ∧
    task.carryOut programs config s = .ok () (step.after programs s)

/-- What a step may do to the environment: nothing to the variables; the flag to leave is set by
`exit` alone and stays set; the working directory is changed by `cd` alone, and becomes the physical
path of a directory that is there. -/
structure Lawful (programs : Programs) (s : Shell) (step : Step) : Prop where
  vars : (step.after programs s).env.vars = s.env.vars
  leaving : s.env.leaving = true → (step.after programs s).env.leaving = true
  exit : (step.after programs s).env.leaving ≠ s.env.leaving → DoneBy programs .exit s step
  cd : (step.after programs s).env.dir ≠ s.env.dir → DoneBy programs .cd s step ∧
    (step.after programs s).system = s.system ∧
    s.system.files.PhysicalDirectory (step.after programs s).env.dir

variable (programs : Programs)

theorem lawful_of_env {s : Shell} {step : Step} (h : (step.after programs s).env = s.env) :
    Lawful programs s step where
  vars := congrArg Environment.vars h
  leaving hl := by rw [h]; exact hl
  exit hne := absurd (congrArg Environment.leaving h) hne
  cd hne := absurd (congrArg Environment.dir h) hne

/-- A task that succeeds keeps the rules. -/
theorem lawful_of_settles {config : Config} {task : Task} {s s' : Shell}
    (hr : task.carryOut programs config s = .ok () s') (h : Shell.Settles task.words s s') :
    Lawful programs s (.did config task) := by
  have hafter : (Step.did config task).after programs s = s' := congrArg stateAfter hr
  have hdone : ∀ b arguments, task.words = b.name :: arguments →
      DoneBy programs b s (.did config task) := fun b arguments hwords =>
    ⟨config, task, rfl, ⟨arguments, hwords⟩, by rw [hafter]; exact hr⟩
  cases h with
  | same henv => exact lawful_of_env programs (by rw [hafter]; exact henv)
  | left arguments hwords henv =>
    rw [← hafter] at henv
    constructor
    · rw [henv]
    · intro _
      rw [henv]
    · exact fun _ => hdone .exit arguments hwords
    · intro hne
      rw [henv] at hne
      exact absurd rfl hne
  | moved arguments hwords dir henv hsystem hdir =>
    rw [← hafter] at henv hsystem
    constructor
    · rw [henv]
    · intro hl
      rw [henv]
      exact hl
    · intro hne
      rw [henv] at hne
      exact absurd rfl hne
    · intro _
      rw [henv]
      exact ⟨hdone .cd arguments hwords, hsystem, hdir⟩

/-- Every step keeps the rules, in any state. -/
theorem step_lawful (s : Shell) (step : Step) : Lawful programs s step := by
  cases step with
  | said bytes => exact lawful_of_env programs (Shell.say_env bytes s)
  | took input => exact lawful_of_env programs rfl
  | did config task =>
    have hsettles := Shell.carryOut_settles programs config task s
    cases hr : task.carryOut programs config s with
    | ok u s' =>
      rw [hr] at hsettles
      exact lawful_of_settles programs hr hsettles
    | error e s' =>
      rw [hr] at hsettles
      have hafter : (Step.did config task).after programs s = s' := congrArg stateAfter hr
      exact lawful_of_env programs (by rw [hafter]; exact hsettles)

/-- The rules in the long run. -/
theorem follow_kept (steps : List Step) : ∀ s : Shell,
    (follow programs steps s).env.vars = s.env.vars ∧
      (s.env.leaving = true → (follow programs steps s).env.leaving = true) := by
  induction steps with
  | nil => exact fun s => ⟨rfl, id⟩
  | cons step steps ih =>
    intro s
    have hstep := step_lawful programs s step
    obtain ⟨hvars, hleaving⟩ := ih (step.after programs s)
    exact ⟨hvars.trans hstep.vars, fun hl => hleaving (hstep.leaving hl)⟩

/-! ## Calls -/

/-- What a shell may be called for. -/
inductive Request
  | command (raw : Bytes)
  | run (name : Bytes) (arguments : List Bytes)
  | line (bytes : Bytes)
  /-- A session on an input that is known beforehand. -/
  | session (mode : SessionMode) (pieces : List Piece)
  /-- A session on an open file. -/
  | sessionOn (mode : SessionMode) (reader : Reader)

/-- The shell after it has done what it was called for. -/
def Request.after (programs : Programs) (config : Config) : Request → Shell → Shell
  | .command raw, s => stateAfter (Shell.runCommand programs config raw s)
  | .run name arguments, s => stateAfter (Shell.run programs config name arguments s)
  | .line bytes, s => stateAfter (Shell.runLine programs config bytes s)
  | .session mode pieces, s => (stateAfter (Session.run programs config mode (s, pieces))).1
  | .sessionOn mode reader, s => (stateAfter (Session.run programs config mode (s, reader))).1

/-- A call, with the system and the room for output that the shell finds. -/
structure Call where
  system : System
  room : Option Nat
  config : Config
  request : Request

namespace Call

/-- The shell when the call begins. -/
def found (call : Call) (s : Shell) : Shell :=
  { s with system := call.system, transcript := { s.transcript with room := call.room } }

/-- The shell after the call. -/
def after (programs : Programs) (call : Call) (s : Shell) : Shell :=
  call.request.after programs call.config (call.found s)

end Call

/-- The shell after a history of calls. -/
def afterCalls (programs : Programs) (history : List Call) (s : Shell) : Shell :=
  history.foldl (fun s call => call.after programs s) s

/-- The task is a command, carried out as the configuration says. -/
def Step.Under (config : Config) (step : Step) : Prop :=
  ∀ config' task, step = .did config' task → config' = config ∧ ∃ raw, task = .command raw

/-- The steps of what a shell is called for. A command is a single one; in a line or a session
commands stand among writes and reads. -/
def Request.Takes (config : Config) : Request → List Step → Prop
  | .command raw, steps => steps = [.did config (.command raw)]
  | .run name arguments, steps => steps = [.did config (.call name arguments)]
  | _, steps => ∀ step ∈ steps, step.Under config

/-- The call consists of the steps, and each of them keeps the rules in its state. -/
structure Course (programs : Programs) (call : Call) (s : Shell) (steps : List Step) : Prop where
  takes : call.request.Takes call.config steps
  ends : follow programs steps (call.found s) = call.after programs s
  lawful : ∀ before step later, steps = before ++ step :: later →
    Lawful programs (follow programs before (call.found s)) step

/-- Steps under the configuration lead from one state to the other. -/
def Leads (config : Config) (s t : Shell) : Prop :=
  ∃ steps, follow programs steps s = t ∧ ∀ step ∈ steps, Step.Under config step

theorem leads_step {config : Config} (s : Shell) (step : Step) (h : step.Under config) :
    Leads programs config s (step.after programs s) :=
  ⟨[step], rfl, fun _ hm => by rw [List.mem_singleton.1 hm]; exact h⟩

theorem leads_alongRuns (config : Config) :
    Shell.AlongRuns programs config (Leads programs config) where
  refl s := ⟨[], rfl, by simp⟩
  trans := by
    rintro s t u ⟨steps, rfl, hu⟩ ⟨steps', rfl, hu'⟩
    refine ⟨steps ++ steps', follow_append programs _ _ _, fun step hm => ?_⟩
    exact (List.mem_append.1 hm).elim (hu step) (hu' step)
  say bytes s := leads_step programs s (.said bytes) (by rintro _ _ ⟨⟩)
  command raw s := leads_step programs s (.did config (.command raw))
    (by rintro _ _ ⟨⟩; exact ⟨rfl, raw, rfl⟩)

/-! ## Reads -/

/-- The supply behind a look. -/
def Look.rest {σ : Type} : Look σ → σ
  | .bytes _ rest => rest
  | .again rest => rest
  | .fault _ rest => rest

/-- Nothing in the system is different but the position in standard input. -/
structure System.OnlyRead (s s' : System) : Prop where
  files : s'.files = s.files
  disk : s'.disk = s.disk

theorem System.OnlyRead.refl (s : System) : s.OnlyRead s := ⟨rfl, rfl⟩

theorem System.OnlyRead.trans {s s' s'' : System} (h : s.OnlyRead s') (h' : s'.OnlyRead s'') :
    s.OnlyRead s'' :=
  ⟨h'.files.trans h.files, h'.disk.trans h.disk⟩

/-- Looking at the supply and taking bytes from it does no more to the system than to read standard
input. -/
structure OnlyReads (σ : Type) [Supply (σ × System)] : Prop where
  look : ∀ s : σ × System, s.2.OnlyRead (Supply.look s).rest.2
  consume : ∀ (n : Nat) (s : σ × System), s.2.OnlyRead (Supply.consume n s).2

section Reads

variable {σ : Type} [Supply (σ × System)]

theorem readWindows_onlyRead (h : OnlyReads σ) (limit looks : Nat) (taken : Bytes) :
    ∀ s : σ × System, s.2.OnlyRead (readWindows limit looks taken s).2.2 := by
  induction looks generalizing taken with
  | zero => exact fun s => .refl s.2
  | succ looks ih =>
    intro s
    have hs := h.look s
    rw [readWindows]
    split
    · exact .refl s.2
    · split
      · rename_i rest hl
        rw [hl] at hs
        exact hs.trans (ih taken rest)
      · rename_i cause rest hl
        rw [hl] at hs
        exact hs
      · rename_i available rest hl
        rw [hl] at hs
        split
        · exact hs
        · simp only
          split
          · exact hs.trans (h.consume _ rest)
          · exact (hs.trans (h.consume _ rest)).trans (ih _ _)

theorem readChunk_onlyRead (h : OnlyReads σ) (limit : Nat) (s : σ × System) :
    s.2.OnlyRead (readChunk limit s).2.2 := by
  have hs := readWindows_onlyRead h (effectiveLimit limit)
    (Supply.delays s + effectiveLimit limit + 1) [] s
  unfold readChunk
  simp only
  generalize readWindows (effectiveLimit limit) (Supply.delays s + effectiveLimit limit + 1) [] s = r
    at hs
  rcases r with ⟨_ | _ | ⟨_, _⟩, rest⟩ <;> exact hs

/-- So a read is a step, which takes from standard input at most. -/
theorem leads_read (h : OnlyReads σ) (config : Config) :
    Across (Session.OnShells (Leads programs config))
      (Session.read config : Action (Shell × σ) IoError _) := by
  intro s
  obtain ⟨hfiles, hdisk⟩ := readChunk_onlyRead h config.lineLimit (s.2, s.1.system)
  have htook : (stateAfter (Session.read config s)).1 =
      (Step.took (readChunk config.lineLimit (s.2, s.1.system)).2.2.input).after programs s.1 := by
    unfold Session.read
    generalize readChunk config.lineLimit (s.2, s.1.system) = r at hfiles hdisk
    obtain ⟨outcome, input, files, position, disk⟩ := r
    obtain rfl : files = s.1.system.files := hfiles
    obtain rfl : disk = s.1.system.disk := hdisk
    cases outcome <;> rfl
  show Leads programs config s.1 _
  rw [htook]
  exact leads_step programs s.1 _ (by rintro _ _ ⟨⟩)

end Reads

/-- Pieces have nothing to do with the system. -/
theorem pieces_onlyRead : OnlyReads (List Piece) where
  look s := by
    show s.2.OnlyRead ((Piece.look s.1).map fun rest => (rest, s.2)).rest.2
    cases Piece.look s.1 <;> exact .refl s.2
  consume _ s := .refl s.2

theorem refill_onlyRead (origin : Origin) (system : System) :
    system.OnlyRead (Reader.refill origin system).2.2 := by
  unfold Reader.refill
  split
  · split <;> exact ⟨rfl, rfl⟩
  · split
    · exact .refl system
    · split <;> exact ⟨rfl, rfl⟩

/-- An open file is read, not written. -/
theorem reader_onlyRead : OnlyReads Reader where
  look s := by
    have hrefill := refill_onlyRead s.1.origin s.2
    show s.2.OnlyRead (Reader.look s.1 s.2).rest.2
    unfold Reader.look
    split
    · exact .refl s.2
    · split
      · exact .refl s.2
      · generalize Reader.refill s.1.origin s.2 = r at hrefill
        rcases r with ⟨_ | _, _⟩ <;> exact hrefill
  consume _ s := .refl s.2

/-! ## Histories -/

/-- What a shell is called for, it does in steps. -/
theorem request_steps (config : Config) (request : Request) (s : Shell) :
    ∃ steps, follow programs steps s = request.after programs config s ∧
      request.Takes config steps := by
  have h := leads_alongRuns programs config
  cases request with
  | command raw => exact ⟨_, rfl, rfl⟩
  | run name arguments => exact ⟨_, rfl, rfl⟩
  | line bytes => exact h.runLine bytes s
  | session mode pieces =>
    exact h.session (leads_read programs pieces_onlyRead config) mode (s, pieces)
  | sessionOn mode reader =>
    exact h.session (leads_read programs reader_onlyRead config) mode (s, reader)

/-- Every call is a course of steps. -/
theorem exists_course (call : Call) (s : Shell) : ∃ steps, Course programs call s steps := by
  obtain ⟨steps, hends, htakes⟩ :=
    request_steps programs call.config call.request (call.found s)
  exact ⟨steps, htakes, hends, fun before step _ _ => step_lawful programs _ step⟩

/-- What no step changes, no history of calls changes. -/
theorem afterCalls_kept (history : List Call) : ∀ s : Shell,
    (afterCalls programs history s).env.vars = s.env.vars ∧
      (s.env.leaving = true → (afterCalls programs history s).env.leaving = true) := by
  induction history with
  | nil => exact fun s => ⟨rfl, id⟩
  | cons call history ih =>
    intro s
    obtain ⟨steps, hcourse⟩ := exists_course programs call s
    have hcall := follow_kept programs steps (call.found s)
    rw [hcourse.ends] at hcall
    obtain ⟨hvars, hleaving⟩ := ih (call.after programs s)
    exact ⟨hvars.trans hcall.1, fun hl => hleaving (hcall.2 hl)⟩

/-- **What becomes of the environment.** Take any history of calls from any shell, with any system
and any room for output at the beginning of each call. Every call is a course of writes, reads and
tasks, and no step breaks the rules of `Lawful`: the variables stay, only an `exit` that succeeds
sets the flag to leave and nothing takes it back, and only a `cd` that succeeds changes the working
directory, to the physical path of a directory that is there at that moment. A task that fails
leaves the environment as it was, in any state. In the end the variables are those of the beginning,
and a shell that was to leave still is. -/
theorem environment_history (history : List Call) (s : Shell) :
    (∀ before call later, history = before ++ call :: later →
      ∃ steps, Course programs call (afterCalls programs before s) steps) ∧
    (∀ config (task : Task) t failure t',
      task.carryOut programs config t = .error failure t' → t'.env = t.env) ∧
    (afterCalls programs history s).env.vars = s.env.vars ∧
    (s.env.leaving = true → (afterCalls programs history s).env.leaving = true) := by
  obtain ⟨hvars, hleaving⟩ := afterCalls_kept programs history s
  refine ⟨fun before call _ _ => exists_course programs call _, ?_, hvars, hleaving⟩
  intro config task t failure t' hfailed
  have hsettles := Shell.carryOut_settles programs config task t
  rw [hfailed] at hsettles
  exact hsettles

end LineShell
