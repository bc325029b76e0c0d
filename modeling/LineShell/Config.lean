import LineShell.Command

/-!
# Configuration

What is fixed while a shell runs: its prompt, the limit on a line, the scratch file, and which
commands it knows.
-/
namespace LineShell

/-- A way to carry out a command, tried on the command's name. -/
inductive Handler
  /-- A command that the shell carries out itself. -/
  | builtin (command : Builtin)
  /-- A program, if one of that name is found. -/
  | program
  deriving DecidableEq, Repr

/-- All built-in commands, then programs. -/
def Handler.standard : List Handler :=
  [.builtin .exit, .builtin .cd, .builtin .pwd, .program]

structure Config where
  /-- Written before each line is read from a user. -/
  prompt : String := "myshell> "
  /-- The most bytes taken in one read. -/
  lineLimit : Nat := 513
  /-- Where old content waits while new content is put in front of it; a relative path is taken
  against the working directory. -/
  scratch : Bytes := Bytes.ofString "temp"
  /-- Tried in order, the first that knows the name is taken. -/
  handlers : List Handler := Handler.standard
  deriving DecidableEq, Repr

end LineShell
