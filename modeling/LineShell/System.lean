import LineShell.Environment
import LineShell.Files.Access

/-!
# Programs and the system they run in

* `System`: the files, the standard input that the shell shares with its programs, and the disk.
* `Disk`: what the disk still takes, and which calls it refuses.
* `Launch`: the order to start a program.
* `Programs`: what programs do. It is a parameter of the shell: nothing that the shell promises
  depends on it.
* `findProgram`: the file that carries out a command.
-/
namespace LineShell

/-- What becomes of the calls by which the shell itself writes, copies and hands on files. Nothing
else that happens in the system depends on it. -/
structure Disk where
  /-- How many bytes the files still take. -/
  room : Nat := UInt64.size
  /-- The answers to the calls to come: one is refused, or nothing stands in its way. Nothing stands
  in the way of the calls behind them. -/
  answers : List (Option OsError) := []
  deriving DecidableEq, Repr

structure System where
  files : Tree
  /-- The file that standard input reads from and the position of the next byte. Without a file,
  standard input is empty. -/
  input : Option (Ino × Nat) := none
  disk : Disk := {}
  deriving DecidableEq, Repr

/-- The order to start a program: its file, its arguments with its own name first, its variables
and its working directory. -/
structure Launch where
  program : Bytes
  argv : List Bytes
  vars : Variables
  dir : Bytes
  deriving DecidableEq, Repr

namespace Launch

/-- A zero byte in an argument, a variable or the directory cannot be handed to a program. -/
def holdsZero (l : Launch) : Bool :=
  l.program.contains 0 || l.argv.any (·.contains 0) ||
    l.vars.any (fun e => e.1.contains 0 || e.2.contains 0) || l.dir.contains 0

end Launch

/-- Where a program's standard output goes. -/
inductive Destination
  /-- To where the shell's own output goes. -/
  | terminal
  /-- Into an open file, from its first byte on. -/
  | file (i : Ino)
  deriving DecidableEq, Repr

/-- What a program leaves behind when it has ended. -/
structure Ended where
  system : System
  /-- What it wrote to the terminal. -/
  printed : Bytes
  deriving DecidableEq, Repr

/-- What programs do. A program runs from its start to its end while the shell waits, or it cannot
be started and nothing happens. `held` are the files that the shell has open for writing. -/
structure Programs where
  run : Launch → Destination → (held : List Ino) → System → Except OsError Ended

/-- The byte `:`, which separates the directories of a search path. -/
def colon : UInt8 := 58

/-- Where to look for a program, in order. A name with a slash is a path; any other name is looked
for in each directory of the search path, an empty one being the working directory. -/
def programCandidates (search dir name : Bytes) : List Bytes :=
  if name.contains Bytes.slash then [Path.join dir name]
  else (search.splitOn colon).map fun entry => Path.join (Path.join dir entry) name

/-- The first candidate that someone may run. The empty name has none. -/
def findProgram (t : Tree) (search dir name : Bytes) : Option Bytes :=
  if name.isEmpty then none
  else (programCandidates search dir name).find? t.isExecutable

/-- The variable that holds the search path. -/
def searchVariable : Bytes := Bytes.ofString "PATH"

/-- The program that a name stands for in a session. Without a search path, an empty one is
taken. -/
def Environment.findProgram (env : Environment) (t : Tree) (name : Bytes) : Option Bytes :=
  LineShell.findProgram t ((env.vars.get? searchVariable).getD []) env.dir name

end LineShell
