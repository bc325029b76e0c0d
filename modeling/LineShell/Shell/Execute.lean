import LineShell.Shell.Builtin
import LineShell.Shell.Redirection

/-!
# Carrying out commands and lines

* `Shell.run`: a command by its name and arguments.
* `Shell.runCommand`: one command of a line. What it did and whether it failed is noted in the
  transcript; a command of spaces and tabs alone does nothing.
* `Shell.runLine`: all commands of a line in order. A failure is reported and the next command is
  carried out all the same. Only a failure to write ends the line early, and `exit`.
-/
namespace LineShell.Shell

/-- Tries the handlers in order on the name of a command. -/
def handle (programs : Programs) (name : Bytes) (arguments : List Bytes) :
    List Handler → Action Shell Failure Unit
  | [] => throw (.commandNotFound name.decode)
  | .builtin b :: handlers =>
    if b.name = name then b.run arguments else handle programs name arguments handlers
  | .program :: handlers => do
    match (← get).env.findProgram (← get).system.files name with
    | some program => start programs program (name :: arguments) .terminal []
    | none => handle programs name arguments handlers

/-- Carries out a command by its name and arguments. -/
def run (programs : Programs) (config : Config) (name : Bytes) (arguments : List Bytes) :
    Action Shell Failure Unit :=
  handle programs name arguments config.handlers

/-- Notes a command in the transcript once it has been carried out. -/
def noting (raw : Bytes) (x : Action Shell Failure Unit) : Action Shell Failure Unit := fun s =>
  match x s with
  | .ok () s => .ok () (s.note (.carriedOut raw none))
  | .error e s => .error e (s.note (.carriedOut raw (some e)))

/-- Carries out a command that has been read. -/
def perform (programs : Programs) (config : Config) : Command → Action Shell Failure Unit
  | .empty => pure ()
  | .simple [] => pure ()
  | .simple (name :: arguments) => run programs config name arguments
  | .redirect argv target op => redirect programs config argv target op

/-- Reads one command of a line and carries it out. -/
def runCommand (programs : Programs) (config : Config) (raw : Bytes) :
    Action Shell Failure Unit :=
  match Command.parse raw with
  | .error e => noting raw (throw e)
  | .ok .empty => pure ()
  | .ok command => noting raw (perform programs config command)

/-- Carries out commands in order until one tells the shell to leave. -/
def runCommands (programs : Programs) (config : Config) :
    List Bytes → Action Shell IoError Unit
  | [] => pure ()
  | raw :: rest => do
    match ← Action.attempt (runCommand programs config raw) with
    | .ok () => pure ()
    | .error _ => report
    unless (← get).env.leaving do runCommands programs config rest

/-- Carries out the commands of a line. -/
def runLine (programs : Programs) (config : Config) (line : Bytes) : Action Shell IoError Unit :=
  runCommands programs config (commandsOf line)

end LineShell.Shell
