import LineShell.Proofs.Transcripts

/-!
# Two runs side by side

What the shell does depends on its environment and the system around it. Its transcript matters
only where a write may fail. So two shells that differ in their transcripts do the same things, as
long as the first of them can write what the second one writes.

* `Together`: how the outcomes of two runs belong together. They are the same in matching states,
  or the first run has failed on its own, in a state that is cut off from the other.
* `Abreast`: an action that leads matching states to outcomes that belong together.
* `Matching`: what relations between states need so that commands are such actions
  (`Matching.runCommand`). `LastingMatching`: and the commands of a line
  (`LastingMatching.runLine`).
* `Pairing`, `LastingPairing`: the same with one system for both shells. Then whole sessions are
  such actions, too (`run_abreast`).
-/
namespace LineShell

namespace Action

variable {σ ε δ α β : Type} {R C D : σ → σ → Prop}

/-- The two outcomes are the same in matching states, or the first is a failure in a state that is
cut off from the other. -/
inductive Together (R C : σ → σ → Prop) :
    EStateM.Result ε σ α → EStateM.Result ε σ α → Prop
  | ok {s t : σ} (a : α) (h : R s t) : Together R C (.ok a s) (.ok a t)
  | error {s t : σ} (e : ε) (h : R s t) : Together R C (.error e s) (.error e t)
  | cut {s : σ} {r : EStateM.Result ε σ α} (e : ε) (h : C s (stateAfter r)) :
    Together R C (.error e s) r

/-- From matching states the action leads to outcomes that belong together. -/
def Abreast (R C : σ → σ → Prop) (x : Action σ ε α) : Prop :=
  ∀ s t, R s t → Together R C (x s) (x t)

theorem Together.mono {r r' : EStateM.Result ε σ α} (h : Together R C r r')
    (hCD : ∀ s t, C s t → D s t) : Together R D r r' := by
  cases h with
  | ok a h => exact .ok a h
  | error e h => exact .error e h
  | cut e h => exact .cut e (hCD _ _ h)

theorem abreast_pure (a : α) : Abreast R C (pure a : Action σ ε α) := fun _ _ h => .ok a h

theorem abreast_throw (e : ε) : Abreast R C (throw e : Action σ ε α) := fun _ _ h => .error e h

/-- Once the first run has failed, the second one goes on alone. -/
theorem abreast_bind {x : Action σ ε α} {f : α → Action σ ε β} (hx : Abreast R C x)
    (hf : ∀ a, Abreast R C (f a)) (hC : ∀ a s t, C s t → C s (stateAfter (f a t))) :
    Abreast R C (x >>= f) := by
  intro s t h
  have hxs := hx s t h
  rw [bind_run, bind_run]
  generalize x s = r at hxs
  generalize x t = r' at hxs
  cases hxs with
  | ok a h' => exact hf a _ _ h'
  | error e h' => exact .error e h'
  | cut e h' =>
    refine .cut e ?_
    cases r' with
    | ok a t' => exact hC a _ _ h'
    | error e' t' => exact h'

theorem abreast_orFail {x : Action σ ε α} (f : ε → δ) (hx : Abreast R C x) :
    Abreast R C (x.orFail f) := by
  intro s t h
  have hxs := hx s t h
  unfold orFail
  generalize x s = r at hxs
  generalize x t = r' at hxs
  cases hxs with
  | ok a h' => exact .ok a h'
  | error e h' => exact .error (f e) h'
  | cut e h' =>
    refine .cut (f e) ?_
    cases r' with
    | ok a t' => exact h'
    | error e' t' => exact h'

/-! ### Actions in which neither run fails on its own -/

/-- The outcomes are the same, in matching states. -/
abbrev Alongside (R : σ → σ → Prop) (x : Action σ ε α) : Prop := Abreast R (fun _ _ => False) x

theorem Alongside.abreast {x : Action σ ε α} (hx : Alongside R x) : Abreast R C x :=
  fun s t h => (hx s t h).mono fun _ _ => False.elim

theorem Alongside.bind {x : Action σ ε α} {f : α → Action σ ε β} (hx : Alongside R x)
    (hf : ∀ a, Alongside R (f a)) : Alongside R (x >>= f) :=
  abreast_bind hx hf fun _ _ _ => False.elim

theorem Alongside.attempt {x : Action σ ε α} (hx : Alongside R x) :
    Alongside R (x.attempt : Action σ δ (Except ε α)) := by
  intro s t h
  have hxs := hx s t h
  unfold Action.attempt
  generalize x s = r at hxs
  generalize x t = r' at hxs
  cases hxs with
  | ok a h' => exact .ok _ h'
  | error e h' => exact .ok _ h'
  | cut e h' => exact h'.elim

theorem Alongside.endingWith {x : Action σ ε α} {last : σ → σ} (hx : Alongside R x)
    (hlast : ∀ {s t}, R s t → R (last s) (last t)) : Alongside R (x.endingWith last) := by
  intro s t h
  have hxs := hx s t h
  unfold Action.endingWith
  generalize x s = r at hxs
  generalize x t = r' at hxs
  cases hxs with
  | ok a h' => exact .ok a (hlast h')
  | error e h' => exact .error e (hlast h')
  | cut e h' => exact h'.elim

theorem alongside_ofExcept (r : Except ε α) : Alongside R (Action.ofExcept r) := by
  intro s t h
  cases r with
  | ok a => exact .ok a h
  | error e => exact .error e h

end Action

/-! ## Standard input -/

namespace System

/-- With anything else on standard input the action does the same, and it leaves that alone. -/
def Blind {α : Type} (x : Action System OsError α) : Prop :=
  ∀ s input, x { s with input } = match x s with
    | .ok a s' => .ok a { s' with input }
    | .error e s' => .error e { s' with input }

theorem blind_ask : Blind ask := by
  intro s input
  have hrefusal : System.refusal { s with input } = s.refusal := rfl
  rw [ask_eq, ask_eq, hrefusal]
  cases s.refusal <;> rfl

theorem blind_write (i : Ino) (position : Nat) (bytes : Bytes) : Blind (write i position bytes) := by
  intro s input
  have hrefusal : System.refusal { s with input } = s.refusal := rfl
  have htaken : System.taken { s with input } i bytes.length = s.taken i bytes.length := rfl
  rw [write_eq, write_eq, hrefusal, htaken]
  cases s.refusal with
  | some e => rfl
  | none =>
    simp only
    split <;> rfl

theorem blind_copyFrom (source target : Ino) (blocks : Nat) : ∀ position,
    Blind (copyFrom source target blocks position) := by
  induction blocks with
  | zero => exact fun _ _ _ => rfl
  | succ blocks ih =>
    intro position s input
    rw [copyFrom, Action.bind_run, Action.bind_run, blind_ask]
    cases ask s with
    | error e s₁ => rfl
    | ok u s₁ =>
      simp only [Action.bind_run, Action.get_run]
      cases s₁.files.readBlock source position with
      | error e => rfl
      | ok block =>
        cases block with
        | nil => rfl
        | cons b bs =>
          simp only [Action.bind_run, Action.get_run]
          rw [blind_write]
          cases write target (s₁.files.contents target).length (b :: bs) s₁ with
          | error e s₂ => rfl
          | ok u s₂ => exact ih _ s₂ input

theorem blind_copy (source target : Ino) : Blind (copy source target) :=
  fun s input => blind_copyFrom source target _ 0 s input

theorem blind_setAside (source scratch : Ino) : Blind (setAside source scratch) := by
  intro s input
  rw [setAside_run, setAside_run, blind_copy]
  cases copy source scratch s with
  | error e s₁ => rfl
  | ok u s₁ => exact blind_ask s₁ input

end System

namespace Shell

open LineShell.Action (Together Abreast Alongside stateAfter)

/-- A program does the same in both shells. It can be started in neither, or it has ended with the
same output in both, and they match again. -/
inductive EndsAlike (R : Shell → Shell → Prop) (s t : Shell) :
    Except OsError Ended → Except OsError Ended → Prop
  | refused (e : OsError) : EndsAlike R s t (.error e) (.error e)
  | ended {system system' : System} (printed : Bytes)
    (h : R { s with system } { t with system := system' }) :
    EndsAlike R s t (.ok ⟨system, printed⟩) (.ok ⟨system', printed⟩)

/-- `R` is a match of two shells that have the same environment and, but for standard input, the
same system, and in which programs do the same. When a write fails in the first shell alone, `C`
holds, and behind the note of the command that did it, `D`. -/
structure Matching (programs : Programs) (R C D : Shell → Shell → Prop) : Prop where
  env : ∀ {s t}, R s t → s.env = t.env
  system : ∀ {s t}, R s t → s.system = { t.system with input := s.system.input }
  withEnv : ∀ {s t}, R s t → ∀ env, R { s with env } { t with env }
  withSystem : ∀ {s t}, R s t → ∀ system : System,
    R (s.withSystem { system with input := s.system.input })
      (t.withSystem { system with input := t.system.input })
  ran : ∀ {s t}, R s t → ∀ order output held,
    EndsAlike R s t (programs.run order output held s.system)
      (programs.run order output held t.system)
  note : ∀ {s t}, R s t → ∀ e, Transcript.saidIn [e] = [] → R (s.note e) (t.note e)
  say : ∀ bytes, Abreast R C (say bytes)
  cutSay : ∀ {s t}, C s t → ∀ bytes, C s (stateAfter (Shell.say bytes t))
  cutNote : ∀ {s t}, C s t → ∀ raw f f',
    D (s.note (.carriedOut raw f)) (t.note (.carriedOut raw f'))

/-- The two shells have the same system, and match whatever becomes of it. -/
structure Pairing (R C D : Shell → Shell → Prop) : Prop where
  env : ∀ {s t}, R s t → s.env = t.env
  system : ∀ {s t}, R s t → s.system = t.system
  withEnv : ∀ {s t}, R s t → ∀ env, R { s with env } { t with env }
  withSystem : ∀ {s t}, R s t → ∀ system, R { s with system } { t with system }
  note : ∀ {s t}, R s t → ∀ e, Transcript.saidIn [e] = [] → R (s.note e) (t.note e)
  say : ∀ bytes, Abreast R C (say bytes)
  cutSay : ∀ {s t}, C s t → ∀ bytes, C s (stateAfter (Shell.say bytes t))
  cutNote : ∀ {s t}, C s t → ∀ raw f f',
    D (s.note (.carriedOut raw f)) (t.note (.carriedOut raw f'))

variable {R C D : Shell → Shell → Prop} {s t : Shell} {programs : Programs} (config : Config)

theorem Pairing.matching (p : Pairing R C D) (programs : Programs) : Matching programs R C D where
  env := p.env
  system h := by rw [p.system h]
  withEnv := p.withEnv
  withSystem {s t} h system := by
    rw [p.system h]
    exact p.withSystem h _
  ran {s t} h order output held := by
    rw [p.system h]
    cases programs.run order output held t.system with
    | error e => exact .refused e
    | ok ended => exact .ended ended.printed (p.withSystem h ended.system)
  note := p.note
  say := p.say
  cutSay := p.cutSay
  cutNote := p.cutNote

namespace Matching

theorem files (p : Matching programs R C D) (h : R s t) : s.system.files = t.system.files := by
  rw [p.system h]

theorem withFiles (p : Matching programs R C D) (h : R s t) (files : Tree) :
    R (s.withFiles files) (t.withFiles files) := by
  have hboth := p.withSystem h { t.system with files }
  have hs : s.withFiles files =
      s.withSystem { { t.system with files } with input := s.system.input } := by
    unfold Shell.withFiles Shell.withSystem
    rw [p.system h]
  rw [hs]
  exact hboth

theorem start (p : Matching programs R C D) (program : Bytes) (argv : List Bytes)
    (output : Destination) (held : List Ino) :
    Alongside R (start programs program argv output held) := by
  intro s t h
  unfold Shell.start
  cases argv with
  | nil => exact .ok () h
  | cons name arguments =>
    simp only [p.env h]
    generalize (⟨program, name :: arguments, t.env.vars, t.env.dir⟩ : Launch) = order
    split
    · exact .error _ (p.note h _ rfl)
    · have hran : EndsAlike R (s.note (.launched order true)) (t.note (.launched order true))
          (programs.run order output held s.system) (programs.run order output held t.system) :=
        p.ran (p.note h _ rfl) order output held
      generalize programs.run order output held s.system = r at hran
      generalize programs.run order output held t.system = r' at hran
      cases hran with
      | refused e => exact .error _ (p.note h _ rfl)
      | ended printed hran =>
        refine .ok () ?_
        simp only
        split
        · exact hran
        · exact p.note hran _ rfl

theorem inFile (p : Matching programs R C D) {α : Type} {x : Action System OsError α}
    (hx : System.Blind x) (path : Bytes) : Alongside R (inFile path x) := by
  intro s t h
  have hkeeps := hx t.system t.system.input
  rw [inFile_run, inFile_run, p.system h, hx]
  cases hr : x t.system with
  | ok a system =>
    rw [show { t.system with input := t.system.input } = t.system from rfl, hr] at hkeeps
    simp only [EStateM.Result.ok.injEq, true_and] at hkeeps
    refine .ok a ?_
    rw [show t.withSystem system = t.withSystem { system with input := t.system.input } by
      rw [← hkeeps]]
    exact p.withSystem h system
  | error e system =>
    rw [show { t.system with input := t.system.input } = t.system from rfl, hr] at hkeeps
    simp only [EStateM.Result.error.injEq, true_and] at hkeeps
    refine .error _ ?_
    rw [show t.withSystem system = t.withSystem { system with input := t.system.input } by
      rw [← hkeeps]]
    exact p.withSystem h system

theorem runInto (p : Matching programs R C D) (argv : List Bytes) (target : Bytes) (file : Ino)
    (held : List Ino) : Alongside R (runInto programs argv target file held) := by
  have hmessage := p.inFile (System.blind_write file 0 errorMessage) target
  refine (p.inFile System.blind_ask target).bind fun _ => .bind (.attempt ?_) fun ran => ?_
  · intro s t h
    simp only [Action.bind_run, Action.get_run, p.env h, p.files h]
    cases t.env.findProgram t.system.files (argv.headD []) with
    | none => exact .error _ h
    | some program => exact p.start program argv (.file file) held s t h
  · split
    · exact hmessage
    · exact hmessage
    · exact Action.abreast_throw _
    · exact Action.abreast_pure ()

theorem onFile (p : Matching programs R C D) {α : Type} (path : Bytes)
    (answer : Tree → Except OsError α) : Alongside R (onFile path answer) := by
  intro s t h
  rw [onFile_run, onFile_run, p.files h]
  cases onName path (answer t.system.files) with
  | ok a => exact .ok a h
  | error e => exact .error _ h

theorem openFile (p : Matching programs R C D) (access : Access) (path : Bytes) :
    Alongside R (openFile access path) := by
  intro s t h
  have hmode : s.newMode = t.newMode := by
    unfold newMode
    rw [p.env h]
  rw [openFile_run, openFile_run, p.files h, hmode]
  cases onName path (t.system.files.openCreating access t.newMode path) with
  | ok r => exact .ok r.1 (p.withFiles h r.2)
  | error e => exact .error _ h

theorem changeFiles (p : Matching programs R C D) (f : Tree → Tree) :
    Alongside R (changeFiles f) := by
  intro s t h
  unfold Shell.changeFiles
  rw [Action.modify_run, Action.modify_run, p.files h]
  exact .ok _ (p.withFiles h _)

theorem removeScratch (p : Matching programs R C D) (scratch : Bytes) (h : R s t) :
    R (removeScratch scratch s) (removeScratch scratch t) := by
  rw [removeScratch_eq, removeScratch_eq, p.files h]
  exact p.withFiles h _

theorem putBack (p : Matching programs R C D) (target : Bytes) (aside : Ino) :
    Alongside R (putBack target aside) :=
  (p.onFile target _).bind fun _ => p.inFile (System.blind_copy aside _) target

theorem putInFront (p : Matching programs R C D) (argv : List Bytes) (target scratch : Bytes) :
    Alongside R (putInFront programs argv target scratch) := by
  have hstaged := (p.onFile target fun t => t.openExisting .read target).bind fun old =>
    (p.openFile .both scratch).bind fun aside =>
    (p.changeFiles fun t => t.truncate aside).bind fun _ => Alongside.endingWith
      ((p.inFile (System.blind_setAside old aside) scratch).bind fun _ =>
        (p.onFile target fun t => t.openExisting .write target).bind fun file =>
        (p.changeFiles fun t => t.truncate file).bind fun _ =>
        (p.runInto argv target file [file, aside]).attempt.bind fun ran =>
        (p.putBack target aside).bind fun _ => Action.alongside_ofExcept ran)
      (p.removeScratch scratch)
  intro s t h
  unfold Shell.putInFront
  rw [Action.bind_run, Action.bind_run, Action.get_run, Action.get_run]
  simp only [p.files h]
  by_cases hsame : samePlace t.system.files target scratch = true
  · simp only [if_pos hsame]
    exact Alongside.bind (Action.abreast_throw _) (fun _ => hstaged) s t h
  · simp only [if_neg hsame]
    exact hstaged s t h

theorem redirect (p : Matching programs R C D) (argv : List Bytes) (target : Bytes)
    (op : Operator) : Alongside R (redirect programs config argv target op) := by
  intro s t h
  rw [redirect_eq, redirect_eq, p.env h, p.files h]
  split
  · exact .error _ h
  · exact p.putInFront argv _ _ s t h
  · exact (p.openFile .both _).bind (fun file => p.runInto argv _ file [file]) s t h

theorem goTo (p : Matching programs R C D) (target : Bytes) : Abreast R C (goTo target) := by
  intro s t h
  have hdir : directoryAt s.system.files (s.env.resolve target) =
      directoryAt t.system.files (t.env.resolve target) := by rw [p.env h, p.files h]
  unfold Shell.goTo
  rw [hdir]
  split
  · exact .error _ h
  · simp only [p.env h]
    exact .ok () (p.withEnv h _)

theorem obey (p : Matching programs R C D) (order : Order) : Abreast R C (obey order) := by
  intro s t h
  unfold Shell.obey
  cases order with
  | leave =>
    simp only [p.env h]
    exact .ok () (p.withEnv h _)
  | goTo target =>
    cases target with
    | some target => exact p.goTo target s t h
    | none =>
      simp only [home?, p.env h]
      split
      · exact .error _ h
      · exact p.goTo _ s t h
  | tellDirectory =>
    simp only [p.env h]
    exact Action.abreast_orFail _
      (Action.abreast_bind (p.say _) (fun _ => p.say _) fun _ _ _ hc => p.cutSay hc _) s t h

theorem builtin (p : Matching programs R C D) (b : Builtin) (words : List Bytes) :
    Abreast R C (b.run words) := by
  unfold Builtin.run
  split
  · exact Action.abreast_throw _
  · exact p.obey _

theorem handle (p : Matching programs R C D) (name : Bytes) (arguments : List Bytes)
    (handlers : List Handler) : Abreast R C (handle programs name arguments handlers) := by
  induction handlers with
  | nil => exact Action.abreast_throw _
  | cons handler handlers ih =>
    unfold Shell.handle
    cases handler with
    | builtin b =>
      simp only
      split
      · exact p.builtin b arguments
      · exact ih
    | program =>
      intro s t h
      simp only [Action.bind_run, Action.get_run, p.env h, p.files h]
      cases t.env.findProgram t.system.files name with
      | some program => exact (p.start _ _ _ _).abreast s t h
      | none => exact ih s t h

theorem perform (p : Matching programs R C D) (command : Command) :
    Abreast R C (perform programs config command) := by
  unfold Shell.perform
  split
  · exact Action.abreast_pure ()
  · exact Action.abreast_pure ()
  · exact p.handle _ _ _
  · exact (p.redirect config _ _ _).abreast

theorem noting (p : Matching programs R C D) (raw : Bytes) {x : Action Shell Failure Unit}
    (hx : Abreast R C x) : Abreast R D (noting raw x) := by
  intro s t h
  have hxs := hx s t h
  unfold Shell.noting
  generalize x s = r at hxs
  generalize x t = r' at hxs
  cases hxs with
  | ok a h' => exact .ok () (p.note h' _ rfl)
  | error e h' => exact .error e (p.note h' _ rfl)
  | cut e h' =>
    refine .cut e ?_
    cases r' with
    | ok a t' => exact p.cutNote h' raw _ none
    | error e' t' => exact p.cutNote h' raw _ (some e')

/-- Two shells carry out a command alike. -/
theorem runCommand (p : Matching programs R C D) (raw : Bytes) :
    Abreast R D (runCommand programs config raw) := by
  unfold Shell.runCommand
  split
  · exact p.noting raw (Action.abreast_throw _)
  · exact Action.abreast_pure ()
  · exact p.noting raw (p.perform config _)

end Matching

/-- A match that lasts: once the first shell has failed to write, it fails again, whatever the
second one goes on to do. -/
structure LastingMatching (programs : Programs) (R C D : Shell → Shell → Prop) : Prop
    extends Matching programs R C D where
  cutOff : ∀ {s t}, C s t → D s t
  lasts : ∀ {s t t'}, D s t → Continues t.transcript t'.transcript → D s t'
  fails : ∀ {s t}, D s t → ∃ e s', report s = .error e s' ∧ D s' t

/-- A match of shells with the same system that lasts. -/
structure LastingPairing (R C D : Shell → Shell → Prop) : Prop extends Pairing R C D where
  cutOff : ∀ {s t}, C s t → D s t
  lasts : ∀ {s t t'}, D s t → Continues t.transcript t'.transcript → D s t'
  fails : ∀ {s t}, D s t → ∃ e s', report s = .error e s' ∧ D s' t

theorem LastingPairing.lastingMatching (p : LastingPairing R C D) (programs : Programs) :
    LastingMatching programs R C D :=
  { p.toPairing.matching programs with cutOff := p.cutOff, lasts := p.lasts, fails := p.fails }

namespace LastingMatching

theorem sayOff (p : LastingMatching programs R C D) (bytes : Bytes) : Abreast R D (say bytes) :=
  fun s t h => (p.say bytes s t h).mono fun _ _ hc => p.cutOff hc

theorem proceed (p : LastingMatching programs R C D) {rest : List Bytes}
    (ih : Abreast R D (runCommands programs config rest)) (outcome : Except Failure Unit) :
    Abreast R D (proceed programs config rest outcome) := by
  have hrest : Abreast R D (do unless (← get).env.leaving do runCommands programs config rest) := by
    intro s t h
    simp only [Action.bind_run, Action.get_run, p.env h]
    split
    · exact .ok () h
    · exact ih s t h
  unfold Shell.proceed
  cases outcome with
  | ok u => exact hrest
  | error e =>
    refine Action.abreast_bind (p.sayOff _) (fun _ => hrest) fun _ s t hd => ?_
    refine p.lasts hd ?_
    simp only [Action.bind_run, Action.get_run]
    split
    · exact .refl _
    · exact (continues_alongRuns programs config).runCommands rest t

/-- Two shells carry out the commands of a line alike, until the first one fails to write. -/
theorem runCommands (p : LastingMatching programs R C D) (commands : List Bytes) :
    Abreast R D (runCommands programs config commands) := by
  induction commands with
  | nil => exact Action.abreast_pure ()
  | cons raw rest ih =>
    intro s t h
    have hraw := p.runCommand config raw s t h
    rw [runCommands_cons, Action.bind_run, Action.bind_run]
    unfold Action.attempt
    generalize Shell.runCommand programs config raw s = r at hraw
    generalize Shell.runCommand programs config raw t = r' at hraw
    cases hraw with
    | ok a h' => exact p.proceed config ih (.ok ()) _ _ h'
    | error e h' => exact p.proceed config ih (.error e) _ _ h'
    | @cut s' _ e h' =>
      -- the report of the failure fails as well
      obtain ⟨e', s'', hs, hd⟩ := p.fails h'
      have hfailed : Shell.proceed programs config rest (.error e) s' = .error e' s'' := by
        show (report >>= _) s' = _
        rw [Action.bind_run, hs]
      have hkeeps := keeps_proceed programs config rest
      simp only
      rw [hfailed]
      refine .cut e' ?_
      cases r' with
      | ok u t' => exact p.lasts hd (hkeeps (.ok u) t')
      | error e t' => exact p.lasts hd (hkeeps (.error e) t')

theorem runLine (p : LastingMatching programs R C D) (line : Bytes) :
    Abreast R D (runLine programs config line) := p.runCommands config (commandsOf line)

end LastingMatching

end Shell

/-! ## Sessions -/

namespace Session

open LineShell.Action (Together Abreast Across stateAfter)
open Shell (LastingPairing)

variable {σ : Type} [Supply (σ × System)]

/-- A read leaves the transcript alone. -/
theorem read_continues (config : Config) :
    Across (OnShells fun s t => Continues s.transcript t.transcript)
      (read config : Action (Shell × σ) IoError _) := by
  intro s
  unfold read
  rcases readChunk config.lineLimit (s.2, s.1.system) with ⟨cause | chunk, input, system⟩
  · exact .refl s.1.transcript
  · exact .refl s.1.transcript

/-- The action leads matching shells with the same input to outcomes that belong together, and it
only continues transcripts. -/
structure InStep {ε α : Type} (R D : Shell → Shell → Prop) (x : Action (Shell × σ) ε α) : Prop where
  abreast : Abreast (fun s t => R s.1 t.1 ∧ s.2 = t.2) (OnShells D) x
  continues : Across (OnShells fun s t => Continues s.transcript t.transcript) x

variable {R C D : Shell → Shell → Prop} (programs : Programs) (config : Config)

omit [Supply (σ × System)] in
theorem abreast_onShell {ε α : Type} {x : Action Shell ε α} (hx : Abreast R D x) :
    Abreast (fun s t => R s.1 t.1 ∧ s.2 = t.2) (OnShells D)
      (onShell x : Action (Shell × σ) ε α) := by
  rintro ⟨s, input⟩ ⟨t, input'⟩ ⟨h, hinput⟩
  have hxs := hx s t h
  unfold onShell
  simp only
  generalize x s = r at hxs
  generalize x t = r' at hxs
  cases hxs with
  | ok a h' => exact .ok a ⟨h', hinput⟩
  | error e h' => exact .error e ⟨h', hinput⟩
  | cut e h' =>
    refine .cut e ?_
    cases r' with
    | ok a t' => exact h'
    | error e' t' => exact h'

theorem abreast_read (p : LastingPairing R C D) :
    Abreast (fun s t => R s.1 t.1 ∧ s.2 = t.2) (OnShells D)
      (read config : Action (Shell × σ) IoError _) := by
  rintro ⟨s, input⟩ ⟨t, input'⟩ ⟨h, hinput⟩
  obtain rfl : input = input' := hinput
  have hread : readChunk config.lineLimit (input, s.system) =
      readChunk config.lineLimit (input, t.system) := by rw [p.system h]
  unfold read
  simp only [hread]
  rcases readChunk config.lineLimit (input, t.system) with ⟨cause | chunk, rest, system⟩
  · exact .error cause ⟨p.withSystem h system, rfl⟩
  · exact .ok chunk ⟨p.withSystem h system, rfl⟩

theorem inStep_pervasive (p : LastingPairing R C D) :
    Pervasive programs config fun {ε α} (x : Action (Shell × σ) ε α) => InStep R D x := by
  have hread : Across _ (read config : Action (Shell × σ) IoError _) := read_continues config
  have hp := across_pervasive (Shell.continues_alongRuns programs config) hread
  exact {
    pure a := ⟨Action.abreast_pure a, hp.pure a⟩
    bind hx hf :=
      ⟨Action.abreast_bind hx.abreast (fun a => (hf a).abreast)
        fun a s t hd => p.lasts hd ((hf a).continues t),
      hp.bind hx.continues fun a => (hf a).continues⟩
    orFail hx f := ⟨Action.abreast_orFail f hx.abreast, hx.continues.orFail f⟩
    say bytes := ⟨abreast_onShell ((p.lastingMatching programs).sayOff bytes), hp.say bytes⟩
    line line :=
      ⟨abreast_onShell ((p.lastingMatching programs).runLine config line), hp.line line⟩
    read := ⟨abreast_read config p, hp.read⟩
    staying := ⟨fun s t h => by
      simp only [Action.bind_run, Action.get_run, Action.pure_run, p.env h.1]
      exact .ok _ h, hp.staying⟩
    enough hx := ⟨fun s t h => by
      have hleft : remaining s = remaining t := by unfold remaining; rw [p.system h.1, h.2]
      rw [hleft]
      exact (hx _).abreast s t h, hp.enough fun n => (hx n).continues⟩ }

/-- Two shells that match go through a session alike, until the first one fails to write. -/
theorem run_abreast (p : LastingPairing R C D) (mode : SessionMode) :
    Abreast (fun s t => R s.1 t.1 ∧ s.2 = t.2) (OnShells D)
      (run programs config mode : Action (Shell × σ) SessionFailure Unit) :=
  ((inStep_pervasive programs config p).run mode).abreast

end Session

end LineShell
