import LineShell.Files.Access

/-!
# Changing names

* `Tree.makeDirectory`, `Tree.makeLink`, `Tree.giveName`: a new name, for a new directory, a new
  symbolic link or a file that has a name already.
* `Tree.unlink`, `Tree.removeDirectory`: a name is taken away.
* `Tree.rename`: a name is moved, over a file that may be in its place.
* `Tree.setMode`: the permissions behind a path.

A link at the end of a path is itself what is changed, except by `Tree.setMode`.
-/
namespace LineShell.Tree

/-- A free name and its directory, for something that is not a directory unless `slashAllowed`. -/
def freeName (t : Tree) (path : Bytes) (slashAllowed : Bool) : Except OsError (Trail × Bytes) :=
  match t.locate false path with
  | .ok (.found _) => .error .exists
  | .ok (.missing dir name slash) =>
    if slash && !slashAllowed then .error .noEntry else .ok (dir, name)
  | .error e => .error e

/-- Whether entries of the directory at a trail may be changed. -/
def mayChange (t : Tree) (dir : Trail) : Bool :=
  match t.node? (Trail.here dir) with
  | some (.directory mode _) => mode.writable && mode.searchable
  | _ => false

def makeDirectory (t : Tree) (path : Bytes) (mode : Mode) : Except OsError Tree := do
  let (dir, name) ← t.freeName path true
  return (← t.create dir name (.directory mode [])).2

def makeLink (t : Tree) (target path : Bytes) : Except OsError Tree := do
  if target.isEmpty then throw .noEntry
  let (dir, name) ← t.freeName path false
  return (← t.create dir name (.link target)).2

/-- Gives a second name to a file that is not a directory. -/
def giveName (t : Tree) (old path : Bytes) : Except OsError Tree := do
  let trail ← t.find false old
  let (dir, name) ← t.freeName path false
  if (t.node? trail.here).any Node.isDirectory then throw .notPermitted
  if !t.mayChange dir then throw .accessDenied
  return t.bind (Trail.here dir) name trail.here

/-- Takes a name away from a file that is not a directory. -/
def unlink (t : Tree) (path : Bytes) : Except OsError Tree :=
  match t.find false path with
  | .error e => .error e
  | .ok [] => .error .isDirectory
  | .ok ((name, i) :: dir) =>
    if (t.node? i).any Node.isDirectory then .error .isDirectory
    else if t.mayChange dir then .ok (t.unbind (Trail.here dir) name)
    else .error .accessDenied

/-- Takes away an empty directory. -/
def removeDirectory (t : Tree) (path : Bytes) : Except OsError Tree :=
  match t.find false path with
  | .error e => .error e
  | .ok [] => .error .invalid
  | .ok ((name, i) :: dir) =>
    match t.node? i with
    | some (.directory _ entries) =>
      if Path.lastName path = Path.self then .error .invalid
      else if !entries.isEmpty then .error .notEmpty
      else if t.mayChange dir then .ok (t.unbind (Trail.here dir) name)
      else .error .accessDenied
    | _ => .error .notDirectory

/-- Moves a name. What stands at the new name gives way if it is of the same kind, and empty if it
is a directory. Two names of one file stay as they are. -/
def rename (t : Tree) (old new : Bytes) : Except OsError Tree := do
  let ((name, i) :: dir) ← t.find false old | throw .invalid
  let directory := (t.node? i).any Node.isDirectory
  match ← t.locate false new with
  | .missing dir' name' slash =>
    if slash && !directory then throw .notDirectory
    if dir'.any fun e => e.2 == i then throw .invalid
    if !t.mayChange dir || !t.mayChange dir' then throw .accessDenied
    return (t.unbind (Trail.here dir) name).bind (Trail.here dir') name' i
  | .found [] => throw .notEmpty
  | .found ((name', i') :: dir') =>
    if i = i' then return t
    if dir'.any fun e => e.2 == i then throw .invalid
    match directory, (t.node? i').any Node.isDirectory with
    | true, false => throw .notDirectory
    | false, true => throw .isDirectory
    | true, true => if !(t.entries i').isEmpty then throw .notEmpty
    | false, false => pure ()
    if !t.mayChange dir || !t.mayChange dir' then throw .accessDenied
    return (t.rebind (Trail.here dir') name' i).unbind (Trail.here dir) name

/-- Changes the permissions of the file behind a path. -/
def setMode (t : Tree) (path : Bytes) (mode : Mode) : Except OsError Tree := do
  let trail ← t.find true path
  match t.node? trail.here with
  | some n => return t.put trail.here (n.withMode mode)
  | none => throw .inputOutput

end LineShell.Tree
