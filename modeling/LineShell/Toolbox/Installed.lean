import LineShell.Toolbox.Evaluation

/-!
# The installed programs

A system with a small set of programs in `/usr/bin`, and what it means to start one of its files.

* `Tool`: the programs. The file of a program is a binary that only the system can read.
* `Installed.start`: a file is a binary, or a script that names its interpreter in its first line.
* `Installed.programs`: what programs do, for the shell.
* `Installed.base`: the files of a fresh system.
-/
namespace LineShell.Toolbox

inductive Tool
  | echo
  | cat
  | printf
  | printenv
  | true
  | false
  | rm
  | mv
  | cp
  | ln
  | mkdir
  | chmod
  | sh
  deriving DecidableEq, Repr

namespace Tool

def all : List Tool :=
  [.echo, .cat, .printf, .printenv, .true, .false, .rm, .mv, .cp, .ln, .mkdir, .chmod, .sh]

def name : Tool → String
  | .echo => "echo"
  | .cat => "cat"
  | .printf => "printf"
  | .printenv => "printenv"
  | .true => "true"
  | .false => "false"
  | .rm => "rm"
  | .mv => "mv"
  | .cp => "cp"
  | .ln => "ln"
  | .mkdir => "mkdir"
  | .chmod => "chmod"
  | .sh => "sh"

/-- The content of the program's file: the mark of a binary and the name. -/
def image (u : Tool) : Bytes := [127, 69, 76, 70, 2, 1, 1] ++ Bytes.ofString u.name

def ofImage? (data : Bytes) : Option Tool := all.find? fun u => u.image == data

/-- Runs the program to its end. -/
def run (start : Starter) (fuel : Nat) (u : Tool) (p : Process) : Run Nat :=
  match u with
  | .echo => Toolbox.echo p
  | .cat => Toolbox.cat p
  | .printf => Toolbox.printf { quotes := Bool.true } p
  | .printenv => Toolbox.printenv p
  | .true => return 0
  | .false => return 1
  | .rm => Toolbox.rm p
  | .mv => Toolbox.mv p
  | .cp => Toolbox.cp p
  | .ln => Toolbox.ln p
  | .mkdir => Toolbox.mkdir p
  | .chmod => Toolbox.chmod p
  | .sh => Evaluation.sh start fuel p

end Tool

namespace Installed

/-- The first line of a script names a program and perhaps one argument for it. Only the first 256
bytes of a file are looked at. -/
def interpreterLine (data : Bytes) : Option (Bytes × Option Bytes) :=
  match data.take 256 with
  | 35 :: 33 :: rest =>
    let line := rest.takeWhile fun b => b != Bytes.newline
    let isGap (b : UInt8) : Bool := b == 32 || b == 9
    let line := ((line.dropWhile isGap).reverse.dropWhile isGap).reverse
    let name := line.takeWhile fun b => !isGap b
    let argument := (line.drop name.length).dropWhile isGap
    if name.isEmpty then none else some (name, if argument.isEmpty then none else some argument)
  | _ => none

/-- Starts the file at a path as a program and runs it to its end. It must be a regular file that
its owner may run and that nobody has open for writing. A script starts the program that its first
line names, with the script's own path among the arguments; `scripts` bounds how often that may
happen in a row. `fuel` bounds how many programs may start one another. -/
def start : (fuel scripts : Nat) → Starter
  | 0, _ => fun _ _ _ => .error .inputOutput
  | fuel + 1, scripts => fun path p m =>
    let rec load (scripts : Nat) (path : Bytes) (p : Process) : Except OsError (Nat × Machine) := do
      let i := (← m.files.find true (Path.join p.dir path)).here
      match m.files.node? i with
      | some (.file mode data) =>
        if !mode.searchable then throw .accessDenied
        if p.held.contains i then throw .textBusy
        match Tool.ofImage? data with
        | some u => return u.run (start fuel 4) (1000000) { p with held := [] } m
        | none =>
          match interpreterLine data, scripts with
          | none, _ => throw .badFormat
          | some _, 0 => throw .linkLoop
          | some (name, argument), scripts + 1 =>
            load scripts name
              { p with argv := [name] ++ argument.toList ++ [path] ++ p.argv.tail }
      | _ => throw .accessDenied
    load scripts path p

/-- Runs a program for the shell: it starts in the directory that the order names, reads the
shared standard input, and its error messages go nowhere. -/
def run (order : Launch) (output : Destination) (held : List Ino) (system : System) :
    Except OsError Ended := do
  let dir ← system.files.find true order.dir
  match system.files.node? dir.here with
  | some (.directory mode _) => if !mode.searchable then throw .accessDenied
  | _ => throw .notDirectory
  let channels : List Channel := [.standard, match output with
    | .terminal => .terminal
    | .file i => .file i 0 false, .nowhere]
  let machine : Machine := { files := system.files, input := system.input, channels }
  let process : Process :=
    { argv := order.argv, vars := order.vars, dir := dir.path, streams := ⟨0, 1, 2⟩, held }
  let (_, m) ← start 1000 4 order.program process machine
  return { system := { files := m.files, input := m.input }, printed := m.printed }

/-- What the installed programs do. -/
def programs : Programs := ⟨run⟩

/-! ## A fresh system -/

/-- Puts a new file into a directory. -/
def put (t : Tree) (dir : Ino) (name : String) (n : Node) : Ino × Tree :=
  ((t.add n).1, (t.add n).2.bind dir (Bytes.ofString name) (t.add n).1)

/-- The files of a fresh system: the programs in `/usr/bin`, which `/bin` leads to, the device
that swallows everything, and a directory for temporary files. -/
def base : Tree :=
  let (usr, t) := put Tree.empty Tree.root "usr" (.directory 0o755 [])
  let (bin, t) := put t usr "bin" (.directory 0o755 [])
  let (_, t) := put t Tree.root "bin" (.link (Bytes.ofString "usr/bin"))
  let (dev, t) := put t Tree.root "dev" (.directory 0o755 [])
  let (_, t) := put t dev "null" .null
  let (_, t) := put t Tree.root "tmp" (.directory 0o1777 [])
  Tool.all.foldl (fun t u => (put t bin u.name (.file 0o755 u.image)).2) t

end Installed

end LineShell.Toolbox
