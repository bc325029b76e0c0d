import LineShell.Operands
import LineShell.Shell.State

/-!
# Built-in commands

`exit` tells the shell to leave, `cd` changes the working directory, `pwd` prints it. `exit` and
`pwd` take no operand, `cd` at most one; any other list of words is a usage failure.

* `Builtin.order?`: what the words behind the name ask for.
* `Builtin.run`: carrying it out.
-/
namespace LineShell

/-- What a built-in command asks for. -/
inductive Order
  | leave
  /-- Go to a directory, or home. -/
  | goTo (target : Option Bytes)
  | tellDirectory
  deriving DecidableEq, Repr

/-- The directory that the words behind `cd` ask for. The words are judged by their text, but the
directory is the last word as it stands. -/
def cdTarget? (words : List Bytes) : Option (Option Bytes) :=
  match operandsUpTo 1 (words.map Bytes.decode) with
  | none => none
  | some [] => some none
  | some (_ :: _) => some words.getLast?

/-- What the words behind the name of a built-in command ask for, unless they are refused. -/
def Builtin.order? (b : Builtin) (words : List Bytes) : Option Order :=
  match b with
  | .exit => (operandsUpTo 0 (words.map Bytes.decode)).map fun _ => .leave
  | .cd => (cdTarget? words).map .goTo
  | .pwd => (operandsUpTo 0 (words.map Bytes.decode)).map fun _ => .tellDirectory

/-- The variable that holds the home directory. -/
def homeVariable : Bytes := Bytes.ofString "HOME"

namespace Shell

/-- The home directory, if there is one: an empty name is none. -/
def home? (s : Shell) : Option Bytes :=
  (s.env.vars.get? homeVariable).filter fun home => !home.isEmpty

/-- The canonical path of a directory. -/
def directoryAt (files : Tree) (path : Bytes) : Except Failure Bytes :=
  match onName path (files.spellOut path) with
  | .error e => .error (.resource path e)
  | .ok trail =>
    if (files.node? trail.here).any Node.isDirectory then .ok trail.path
    else .error (.notADirectory trail.path)

/-- Goes to a directory. The working directory becomes its canonical path. -/
def goTo (target : Bytes) : Action Shell Failure Unit := fun s =>
  match directoryAt s.system.files (s.env.resolve target) with
  | .error e => .error e s
  | .ok dir => .ok () { s with env := { s.env with dir } }

def obey : Order → Action Shell Failure Unit
  | .leave => fun s => .ok () { s with env := { s.env with leaving := true } }
  | .goTo (some target) => goTo target
  | .goTo none => fun s =>
    match s.home? with
    | none => .error .homeUnset s
    | some home => goTo home s
  | .tellDirectory => fun s =>
    (do say s.env.dir; say [Bytes.newline] : Action Shell IoError Unit).orFail .output s

end Shell

/-- Carries out a built-in command. -/
def Builtin.run (b : Builtin) (words : List Bytes) : Action Shell Failure Unit :=
  match b.order? words with
  | none => throw (.usage b.text)
  | some order => Shell.obey order

end LineShell
