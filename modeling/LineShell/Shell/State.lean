import LineShell.Config
import LineShell.Transcript

/-!
# The state of the shell

* `Shell`: the environment of the session, the system around it and the transcript so far.
* `Action`: what the shell does. It may fail, and what it did before it failed stays done.
* `say`, `report`, `note`: writing to the transcript.
* `start`: starting a program.
-/
namespace LineShell

structure Shell where
  env : Environment
  system : System
  transcript : Transcript := {}
  deriving DecidableEq

/-- Something done with a state of type `σ`. A failure keeps what was done before it. -/
abbrev Action (σ ε α : Type) := EStateM ε σ α

namespace Action

variable {σ ε δ α : Type}

/-- Carries out an action that may fail and gives its outcome, which is not a failure now. -/
def attempt (x : Action σ ε α) : Action σ δ (Except ε α) := fun s =>
  match x s with
  | .ok a s => .ok (.ok a) s
  | .error e s => .ok (.error e) s

/-- Tells of a failure in other terms. -/
def orFail (f : ε → δ) (x : Action σ ε α) : Action σ δ α := fun s =>
  match x s with
  | .ok a s => .ok a s
  | .error e s => .error (f e) s

/-- Carries out `x` and then `last`, whether `x` failed or not. -/
def endingWith (last : σ → σ) (x : Action σ ε α) : Action σ ε α := fun s =>
  match x s with
  | .ok a s => .ok a (last s)
  | .error e s => .error e (last s)

/-- An outcome that is known already. -/
def ofExcept (r : Except ε α) : Action σ ε α := fun s =>
  match r with
  | .ok a => .ok a s
  | .error e => .error e s

end Action

namespace Shell

/-- The shell writes to its output. -/
def say (bytes : Bytes) : Action Shell IoError Unit := fun s =>
  match s.transcript.say bytes with
  | (.ok (), t) => .ok () { s with transcript := t }
  | (.error e, t) => .error e { s with transcript := t }

/-- Tells the user of a failure. All failures read the same. -/
def report : Action Shell IoError Unit := say errorMessage

def note (e : Event) (s : Shell) : Shell := { s with transcript := s.transcript.note e }

def withFiles (s : Shell) (files : Tree) : Shell := { s with system := { s.system with files } }

/-- Starts a program with the session's variables in the working directory and waits for its end.
Its first argument is the name as it was typed. What it printed goes to the transcript. -/
def start (programs : Programs) (program : Bytes) (argv : List Bytes) (output : Destination)
    (held : List Ino) : Action Shell Failure Unit := fun s =>
  match argv with
  | [] => .ok () s
  | name :: _ =>
    let order : Launch := ⟨program, argv, s.env.vars, s.env.dir⟩
    if order.holdsZero then
      .error (.spawn name.decode .nulInData) (s.note (.launched order false))
    else match programs.run order output held s.system with
      | .error e => .error (.spawn name.decode (.os e)) (s.note (.launched order false))
      | .ok ended =>
        let s := { s.note (.launched order true) with system := ended.system }
        .ok () (if ended.printed.isEmpty then s else s.note (.printed ended.printed))

end Shell

end LineShell
