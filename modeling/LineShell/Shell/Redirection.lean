import LineShell.Files.Edit
import LineShell.Shell.Disk

/-!
# Output into files

A file that does not exist is made and receives the output, whatever the operator. An existing
file is refused by `>`. With `>+` the new output is put in front of the old content, which waits in
a scratch file meanwhile.

Once the file is open it stands in for the program's output entirely: if the program cannot be
found or started, the error message goes into the file.

* `Shell.runInto`: a program with its output in an open file.
* `Shell.intoNewFile`: the output goes into a new file.
* `Shell.putInFront`: the output goes in front of what a file holds.
* `Shell.redirect`: which of the two, or a refusal.
-/
namespace LineShell.Shell

/-- An answer of the file system about a named file. -/
def onFile {α : Type} (path : Bytes) (answer : Tree → Except OsError α) : Action Shell Failure α :=
  fun s =>
    match onName path (answer s.system.files) with
    | .ok a => .ok a s
    | .error e => .error (.resource path e) s

/-- The permissions of the files that the shell makes. -/
def newMode (s : Shell) : Mode := Tree.createMode.without s.env.umask

/-- Opens a file, and makes it if there is none. -/
def openFile (access : Access) (path : Bytes) : Action Shell Failure Ino := do
  let mode := newMode (← get)
  let (i, files) ← onFile path fun t => t.openCreating access mode path
  modify fun s => s.withFiles files
  return i

def changeFiles (f : Tree → Tree) : Action Shell Failure Unit :=
  modify fun s => s.withFiles (f s.system.files)

/-- Finds the program that the first word names and runs it with its output in the open file that
`target` names. `held` are the files that the shell has open for writing. A program that cannot be
found or started leaves the error message in the file, and the command counts as done. For the
message a second descriptor of the file is kept. -/
def runInto (programs : Programs) (argv : List Bytes) (target : Bytes) (file : Ino)
    (held : List Ino) : Action Shell Failure Unit := do
  inFile target System.ask
  let name := argv.headD []
  let ran ← Action.attempt do
    match (← get).env.findProgram (← get).system.files name with
    | none => throw (.commandNotFound name.decode)
    | some program => start programs program argv (.file file) held
  match ran with
  | .error (.commandNotFound _) | .error (.spawn ..) =>
    inFile target (System.write file 0 errorMessage)
  | .error e => throw e
  | .ok () => pure ()

/-- The output goes into a file that does not exist yet. -/
def intoNewFile (programs : Programs) (argv : List Bytes) (target : Bytes) :
    Action Shell Failure Unit := do
  let file ← openFile .both target
  runInto programs argv target file [file]

/-- Both paths lead to existing files with one canonical path. -/
def samePlace (t : Tree) (path path' : Bytes) : Bool :=
  match onName path (t.canonical path), onName path' (t.canonical path') with
  | .ok a, .ok b => a == b
  | _, _ => false

/-- Takes the scratch file's name away. If that fails, nothing is said about it. -/
def removeScratch (scratch : Bytes) (s : Shell) : Shell :=
  match s.system.files.unlink scratch with
  | .ok files => s.withFiles files
  | .error _ => s

/-- Appends what the scratch file holds to the file that then stands at `target`. -/
def putBack (target : Bytes) (aside : Ino) : Action Shell Failure Unit := do
  let file ← onFile target fun t => t.openExisting .write target
  inFile target (System.copy aside file)

/-- Puts the output in front of what the file at `target` holds. The old content is copied to the
scratch file, the target is emptied and given to the program, and in the end the scratch file's
content is put back. The name of the scratch file is taken away in any case once it has been
opened. -/
def putInFront (programs : Programs) (argv : List Bytes) (target scratch : Bytes) :
    Action Shell Failure Unit := do
  if samePlace (← get).system.files target scratch then throw (.scratchConflict target)
  let old ← onFile target fun t => t.openExisting .read target
  let aside ← openFile .both scratch
  changeFiles fun t => t.truncate aside
  Action.endingWith (removeScratch scratch) do
    inFile scratch (System.setAside old aside)
    let file ← onFile target fun t => t.openExisting .write target
    changeFiles fun t => t.truncate file
    let ran ← Action.attempt (runInto programs argv target file [file, aside])
    putBack target aside
    Action.ofExcept ran

/-- Runs a program with its output in the file that `target` names. -/
def redirect (programs : Programs) (config : Config) (argv : List Bytes) (target : Bytes)
    (op : Operator) : Action Shell Failure Unit := do
  let env := (← get).env
  let target := env.resolve target
  match (← get).system.files.leadsToFile target, op with
  | true, .overwrite => throw (.targetExists target)
  | true, .prepend => putInFront programs argv target (env.resolve config.scratch)
  | false, _ => intoNewFile programs argv target

end LineShell.Shell
