import LineShell.Files.Walk

/-!
# Opening files

There is one user, who owns every file and is not the superuser, so the owner's permissions decide,
for reading, for writing and for looking up names. An open file is known by its number, so it stays
the same file whatever becomes of its names.

* `Tree.openExisting`: a file that must exist.
* `Tree.openCreating`: a file that is made if its name is free, also at the far end of a link.
* `Tree.read`: the bytes of an open file. `Tree.readBlock`: those of one block.
* `Tree.leadsToFile`, `Tree.isExecutable`: questions about a path, to which every error is a no.
-/
namespace LineShell

/-- What an open file is used for. -/
inductive Access
  | read
  | write
  | both
  deriving DecidableEq, Repr

def Access.permits : Access → Mode → Bool
  | read, m => m.readable
  | write, m => m.writable
  | both, m => m.readable && m.writable

namespace Tree

/-- Opens the file with a number. A directory can only be read. -/
def openNode (t : Tree) (access : Access) (i : Ino) : Except OsError Ino :=
  match t.node? i with
  | some (.directory mode _) =>
    if access ≠ .read then .error .isDirectory
    else if mode.readable then .ok i else .error .accessDenied
  | some (.file mode _) => if access.permits mode then .ok i else .error .accessDenied
  | some .null => .ok i
  | _ => .error .linkLoop

/-- Opens an existing file. -/
def openExisting (t : Tree) (access : Access) (path : Bytes) : Except OsError Ino :=
  match t.find true path with
  | .ok trail => t.openNode access trail.here
  | .error e => .error e

/-- Makes a file in a directory, if the owner may write there. -/
def create (t : Tree) (dir : Trail) (name : Bytes) (n : Node) : Except OsError (Ino × Tree) :=
  match t.node? dir.here with
  | some (.directory mode _) =>
    if mode.writable then .ok ((t.add n).1, (t.add n).2.bind dir.here name (t.add n).1)
    else .error .accessDenied
  | _ => .error .notDirectory

/-- The permissions that a shell asks for when it makes a file: `rw-r--r--`. -/
def createMode : Mode := 0o644

/-- Opens a file for writing, perhaps for reading too, and makes it with the permissions `mode` if
there is none. A path that ends with a slash names a directory, which cannot be opened so. -/
def openCreating (t : Tree) (access : Access) (mode : Mode) (path : Bytes) :
    Except OsError (Ino × Tree) :=
  if Path.endsWithSlash path && !(Path.withoutSlash path).isEmpty then
    match t.locate false (Path.withoutSlash path) with
    | .ok _ => .error .isDirectory
    | .error e => .error e
  else match t.locate true path with
    | .ok (.found trail) => (t.openNode access trail.here).map fun i => (i, t)
    | .ok (.missing _ _ true) => .error .isDirectory
    | .ok (.missing dir name false) => t.create dir name (.file mode [])
    | .error e => .error e

/-- All bytes of an open file. A directory can be opened, but not read. -/
def read (t : Tree) (i : Ino) : Except OsError Bytes :=
  match t.node? i with
  | some (.directory ..) => .error .isDirectory
  | _ => .ok (t.contents i)

/-- The most bytes of a file that are read at once. -/
def blockSize : Nat := 8192

/-- The block of an open file at a position, which is empty at the end of the file. -/
def readBlock (t : Tree) (i : Ino) (position : Nat) : Except OsError Bytes :=
  (t.read i).map fun content => (content.drop position).take blockSize

/-- The path leads to something that exists. -/
def leadsToFile (t : Tree) (path : Bytes) : Bool :=
  !path.contains 0 && (t.stat path).isOk

/-- The path leads to a regular file that someone may run. -/
def isExecutable (t : Tree) (path : Bytes) : Bool :=
  !path.contains 0 && match t.stat path with
    | .ok (.file mode _) => mode.anyExecute
    | _ => false

end Tree

/-- A question about a named file. A name with a zero byte never reaches the file system. -/
def onName {α : Type} (path : Bytes) (answer : Except OsError α) : Except IoError α :=
  if path.contains 0 then .error .nulInName else answer.mapError .os

end LineShell
