import LineShell.Files.Edit

/-!
# Changes from outside

Files that are put in place, or taken away, while no command runs. Directories above a file are
made if they are missing.
-/
namespace LineShell

inductive Fixture
  | file (data : Bytes) (mode : Mode)
  | directory
  | link (target : Bytes)
  /-- A second name for the file at a path. -/
  | name (of : Bytes)
  /-- Nothing: what is there goes away, a directory with all that it holds. -/
  | nothing
  deriving DecidableEq, Repr

namespace Tree

/-- The path of the directory that holds the last name of an absolute path. -/
def parentPath (path : Bytes) : Bytes :=
  Path.ofNames (Path.components (Path.withoutSlash path)).dropLast

/-- Makes a directory and those above it that are missing, up to a depth. -/
def makeDirectories (t : Tree) : (depth : Nat) → Bytes → Except OsError Tree
  | 0, _ => .error .invalid
  | depth + 1, path =>
    match t.stat path with
    | .ok (.directory ..) => .ok t
    | .ok _ => .error .exists
    | .error .noEntry => do
      let t ← t.makeDirectories depth (parentPath path)
      t.makeDirectory path 0o755
    | .error e => .error e

/-- Takes a name away. What only this name leads to can no longer be reached. -/
def detach (t : Tree) (path : Bytes) : Except OsError Tree := do
  match ← t.find false path with
  | [] => throw .invalid
  | (name, _) :: dir =>
    if !t.mayChange dir then throw .accessDenied
    return t.unbind (Trail.here dir) name

/-- Puts a file into its place, or takes it away. -/
def place (t : Tree) (path : Bytes) (f : Fixture) : Except OsError Tree := do
  match f with
  | .nothing => t.detach path
  | .directory => t.makeDirectories (path.length + 1) path
  | .file data mode =>
    let t ← t.makeDirectories (path.length + 1) (parentPath path)
    let (i, t) ← t.openCreating .write createMode path
    ((t.truncate i).write i 0 data).setMode path mode
  | .link target =>
    (← t.makeDirectories (path.length + 1) (parentPath path)).makeLink target path
  | .name old =>
    (← t.makeDirectories (path.length + 1) (parentPath path)).giveName old path

end Tree

end LineShell
