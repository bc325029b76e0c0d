import LineShell.Toolbox.Output

/-!
# Programs that change files

`rm`, `mv`, `cp`, `ln`, `mkdir` and `chmod`. Each does what it can with its operands in order and
gives status one if something was refused.
-/
namespace LineShell.Toolbox

open Machine (edit)

def letter (c : Char) : UInt8 := UInt8.ofNat c.toNat

/-- The file at a path itself, not behind a link. -/
def lookAt (t : Tree) (path : Bytes) : Option (Ino × Node) :=
  match t.find false path with
  | .ok trail => (t.node? trail.here).map fun n => (trail.here, n)
  | .error _ => none

/-- The path leads to a directory. -/
def isDirectoryAt (t : Tree) (path : Bytes) : Bool :=
  match t.stat path with
  | .ok n => n.isDirectory
  | .error _ => false

/-- Tries everything in order; tells whether all of it was done. -/
def doAll {α : Type} (f : α → Run Bool) (xs : List α) : Run Bool := do
  return (← xs.mapM f).all id

/-- A path below a directory. -/
def below (dir name : Bytes) : Bytes :=
  if Path.endsWithSlash dir then dir ++ name else dir ++ Bytes.slash :: name

/-- Takes away a file, or a directory with everything in it, up to a depth. -/
def removeAll : (depth : Nat) → Bytes → Run Bool
  | 0, _ => return false
  | depth + 1, path => do
    let t := (← get).files
    match lookAt t path with
    | some (i, .directory ..) =>
      let ok ← doAll (fun e => removeAll depth (below path e.1)) (t.entries i)
      if ok then edit (·.removeDirectory path) else return false
    | _ => edit (·.unlink path)

/-- Takes names away. -/
def rm (p : Process) : Run Nat := do
  match optionsOf (Bytes.ofString "frRdiIv") p.words with
  | none => return 1
  | some (options, operands) =>
    let force := options.contains (letter 'f')
    let recursive := options.contains (letter 'r') || options.contains (letter 'R')
    if operands.isEmpty then return statusOf force
    let ok ← doAll (fun word => do
      let path := p.path word
      let t := (← get).files
      if [Path.self, Path.above].contains (Path.lastName word) then return false
      match lookAt t path with
      | none => return force && !word.isEmpty
      | some (_, .directory ..) =>
        if recursive then removeAll (t.nodes.length + 1) path
        else if options.contains (letter 'd') then edit (·.removeDirectory path)
        else return false
      | some _ => edit (·.unlink path)) operands
    return statusOf ok

/-- The operands that name sources, each with its place: the last operand itself, or a name in the
directory that the last operand leads to. -/
def placesFor (t : Tree) (p : Process) (operands : List Bytes) : Option (List (Bytes × Bytes)) :=
  match operands.getLast?, operands.dropLast with
  | some last, source :: more =>
    let into := p.path last
    if isDirectoryAt t into then
      some ((source :: more).map fun s => (p.path s, below into (Path.lastName s)))
    else if more.isEmpty then some [(p.path source, into)]
    else none
  | _, _ => none

/-- Moves files. -/
def mv (p : Process) : Run Nat := do
  match optionsOf (Bytes.ofString "fniv") p.words with
  | none => return 1
  | some (options, operands) =>
    match placesFor (← get).files p operands with
    | none => return 1
    | some places =>
      let ok ← doAll (fun (source, place) => do
        let t := (← get).files
        match lookAt t source, lookAt t place with
        | none, _ => return false
        | some _, none => edit (·.rename source place)
        | some (i, n), some (j, m) =>
          if options.contains (letter 'n') then return true
          else if i = j then
            if (t.canonical source).toOption = (t.canonical place).toOption then return false
            else edit (·.unlink source)
          else if n.isDirectory != m.isDirectory then return false
          else edit (·.rename source place)) places
      return statusOf ok

/-- Copies the bytes of a file to a path, into the file there or a new one. -/
def copyFile (t : Tree) (source place : Bytes) : Except OsError Tree := do
  let i ← t.openExisting .read source
  let content ← t.read i
  let mode := match t.node? i with
    | some (.file mode _) => mode
    | _ => Tree.createMode
  match ← t.locate true place with
  | .found trail =>
    if trail.here = i then throw .exists
    let j ← t.openExisting .write place
    return (t.truncate j).write j 0 content
  | .missing dir name slash =>
    if slash then throw .notDirectory
    if (lookAt t place).isSome then throw .exists
    return (← t.create dir name (.file (mode &&& 0o755) content)).2

/-- Copies a file, or a directory with everything in it, up to a depth. -/
def copyAll (recursive : Bool) : (depth : Nat) → Bytes → Bytes → Run Bool
  | 0, _, _ => return false
  | depth + 1, source, place => do
    let t := (← get).files
    match t.stat source, lookAt t source with
    | .ok (.directory mode _), _ =>
      if !recursive then return false
      let made ← if isDirectoryAt t place then pure true
        else edit (·.makeDirectory place ((mode ||| 0o700) &&& 0o755))
      if !made then return false
      let i := match t.find true source with
        | .ok trail => trail.here
        | .error _ => Tree.root
      doAll (fun e => copyAll recursive depth (below source e.1) (below place e.1)) (t.entries i)
    | _, some (_, .link target) =>
      if recursive then edit (·.makeLink target place) else edit (copyFile · source place)
    | _, some _ => edit (copyFile · source place)
    | _, none => return false

/-- Copies files. -/
def cp (p : Process) : Run Nat := do
  match optionsOf (Bytes.ofString "rRafpnv") p.words with
  | none => return 1
  | some (options, operands) =>
    let recursive := [letter 'r', letter 'R', letter 'a'].any options.contains
    let t := (← get).files
    match placesFor t p operands with
    | none => return 1
    | some places =>
      return statusOf (← doAll (fun (source, place) =>
        copyAll recursive (t.nodes.length + 1) source place) places)

/-- Gives files second names, or makes symbolic links. -/
def ln (p : Process) : Run Nat := do
  match optionsOf (Bytes.ofString "sfnv") p.words with
  | none => return 1
  | some (options, operands) =>
    let symbolic := options.contains (letter 's')
    let t := (← get).files
    let operands := if operands.length = 1 then operands ++ [Path.self] else operands
    match placesFor t p operands with
    | none => return 1
    | some places =>
      let ok ← doAll (fun (word, source, place) => do
        if options.contains (letter 'f') && (lookAt (← get).files place).isSome then
          discard (edit (·.unlink place))
        if symbolic then edit (·.makeLink word place) else edit (·.giveName source place))
        (operands.zip places)
      return statusOf ok

/-- The paths of a directory and of the directories above it, the outermost first. -/
def pathsTo (path : Bytes) : List Bytes :=
  let names := Path.components path
  let start : Bytes := if Path.isAbsolute path then [Bytes.slash] else []
  (List.range names.length).map fun k => start ++ Bytes.joinWith Bytes.slash (names.take (k + 1))

/-- Makes directories. -/
def mkdir (p : Process) : Run Nat := do
  match optionsOf (Bytes.ofString "pv") p.words with
  | none => return 1
  | some (_, []) => return 1
  | some (options, operands) =>
    let ok ← doAll (fun word => do
      let path := p.path word
      if options.contains (letter 'p') then
        doAll (fun q => do
          if isDirectoryAt (← get).files q then return true else edit (·.makeDirectory q 0o755))
          (pathsTo path)
      else edit (·.makeDirectory path 0o755)) operands
    return statusOf ok

/-! ## Permissions -/

/-- The bits that letters such as `u` and `g` select. -/
def whoBits (who : Bytes) : Mode :=
  (if who.contains (letter 'u') then 0o4700 else 0) ||| (if who.contains (letter 'g') then 0o2070 else 0) |||
    (if who.contains (letter 'o') then 0o1007 else 0) ||| (if who.contains (letter 'a') then 0o7777 else 0)

/-- The bits that letters such as `r` and `x` stand for, for everyone. -/
def permissionBits (m : Mode) (isDirectory : Bool) (letters : Bytes) : Mode :=
  letters.foldl (fun bits c => bits |||
    (if c = letter 'r' then 0o444 else if c = letter 'w' then 0o222
      else if c = letter 'x' then 0o111
      else if c = letter 'X' then (if isDirectory || m.anyExecute then 0o111 else 0)
      else if c = letter 's' then 0o6000 else if c = letter 't' then 0o1000 else 0)) 0

/-- The mode after one clause such as `u+x`. Without letters in front, everyone is meant but what
the mask of the user forbids. -/
def applyClause (isDirectory : Bool) (clause : Bytes) (m : Mode) : Option Mode :=
  let who := clause.takeWhile fun c => [letter 'u', letter 'g', letter 'o', letter 'a'].contains c
  let selected := if who.isEmpty then 0o7755 else whoBits who
  match clause.drop who.length with
  | [] => none
  | op :: letters =>
    if letters.all fun c => (Bytes.ofString "rwxXst").contains c then
      let bits := permissionBits m isDirectory letters &&& selected
      if op = letter '+' then some (m ||| bits)
      else if op = letter '-' then some (m &&& (0o7777 ^^^ bits))
      else if op = letter '=' then
        some ((m &&& (0o7777 ^^^ (if who.isEmpty then 0o777 else selected))) ||| bits)
      else none
    else none

/-- The mode that a word asks for, given the mode so far. -/
def modeFrom (word : Bytes) (isDirectory : Bool) (m : Mode) : Option Mode :=
  match number 8 word.length 0 word with
  | (n, []) => if word.isEmpty || n > 0o7777 then none else some n
  | _ => (word.splitOn 44).foldlM (fun m clause => applyClause isDirectory clause m) m

/-- Changes permissions. -/
def chmod (p : Process) : Run Nat := do
  match withoutMark p.words with
  | word :: operand :: operands =>
    if (modeFrom word false 0).isNone then return 1
    let ok ← doAll (fun operand => edit fun t => do
      let path := p.path operand
      let n ← t.stat path
      match modeFrom word n.isDirectory n.mode with
      | some m => t.setMode path m
      | none => throw .invalid) (operand :: operands)
    return statusOf ok
  | _ => return 1

end LineShell.Toolbox
