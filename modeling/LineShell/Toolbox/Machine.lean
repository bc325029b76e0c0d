import LineShell.Files.Edit
import LineShell.System

/-!
# A machine for programs

Programs of the toolbox run one after the other on a machine: the files, the standard input that
is shared with the shell, what has come out on the terminal, and the channels that are open.

* `Channel`: an open file with its position, shared by every program that writes to it.
* `Process`: the arguments, variables, directory and streams of one program.
* `Machine.put`, `Machine.pending`, `Machine.advance`: writing to a channel and reading from it.
-/
namespace LineShell.Toolbox

/-- Something that can be read from or written to. -/
inductive Channel
  /-- Where the shell's output goes. -/
  | terminal
  /-- Takes everything and gives nothing. -/
  | nowhere
  /-- The standard input that is shared with the shell. -/
  | standard
  /-- An open file at a position; if `atEnd` is set, every write goes to its end. -/
  | file (i : Ino) (position : Nat) (atEnd : Bool)
  /-- What one program hands to the next. -/
  | pipe (buffer : Bytes)
  deriving DecidableEq, Repr

structure Machine where
  files : Tree
  input : Option (Ino × Nat)
  printed : Bytes := []
  channels : List Channel := []
  deriving DecidableEq, Repr

/-- The channels that a program reads from and writes to, by their numbers. -/
structure Streams where
  input : Nat
  output : Nat
  errors : Nat
  deriving DecidableEq, Repr

/-- What a program is started with. -/
structure Process where
  argv : List Bytes
  vars : Variables
  dir : Bytes
  streams : Streams
  /-- Files that are open for writing elsewhere. -/
  held : List Ino := []
  deriving DecidableEq, Repr

/-- A path taken against the directory of the program. -/
def Process.path (p : Process) (path : Bytes) : Bytes :=
  if path.isEmpty then path else Path.join p.dir path

/-- The words behind the program's name. -/
def Process.words (p : Process) : List Bytes := p.argv.tail

/-- Something done on a machine. -/
abbrev Run := StateM Machine

namespace Machine

def channel (m : Machine) (c : Nat) : Channel := m.channels.getD c .nowhere

def setChannel (m : Machine) (c : Nat) (channel : Channel) : Machine :=
  { m with channels := m.channels.set c channel }

/-- Opens a channel and gives its number. -/
def openChannel (c : Channel) : Run Nat := fun m =>
  (m.channels.length, { m with channels := m.channels ++ [c] })

/-- Writes to a channel. -/
def put (c : Nat) (bs : Bytes) : Run Unit := modify fun m =>
  match m.channel c with
  | .terminal => { m with printed := m.printed ++ bs }
  | .file i position atEnd =>
    let start := if atEnd then (m.files.contents i).length else position
    { m with files := m.files.write i start bs }.setChannel c (.file i (start + bs.length) atEnd)
  | .pipe buffer => m.setChannel c (.pipe (buffer ++ bs))
  | .nowhere | .standard => m

/-- The bytes that a channel still gives. -/
def pending (m : Machine) (c : Nat) : Except OsError Bytes :=
  match m.channel c with
  | .file i position _ => (m.files.read i).map (·.drop position)
  | .pipe buffer => .ok buffer
  | .standard =>
    match m.input with
    | some (i, position) => (m.files.read i).map (·.drop position)
    | none => .ok []
  | .terminal | .nowhere => .ok []

/-- Takes bytes from a channel. -/
def advance (c : Nat) (n : Nat) : Run Unit := modify fun m =>
  match m.channel c with
  | .file i position atEnd => m.setChannel c (.file i (position + n) atEnd)
  | .pipe buffer => m.setChannel c (.pipe (buffer.drop n))
  | .standard => { m with input := m.input.map fun (i, position) => (i, position + n) }
  | .terminal | .nowhere => m

/-- Takes everything that a channel still gives. -/
def drain (c : Nat) : Run (Except OsError Bytes) := do
  let bs := (← get).pending c
  if let .ok bs := bs then advance c bs.length
  return bs

/-- Changes the files unless the change is refused; tells whether it was made. -/
def edit (change : Tree → Except OsError Tree) : Run Bool := fun m =>
  match change m.files with
  | .ok files => (true, { m with files })
  | .error _ => (false, m)

end Machine

/-- The status at the end of a program. -/
def statusOf (success : Bool) : Nat := if success then 0 else 1

end LineShell.Toolbox
