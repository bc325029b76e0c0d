import LineShell.Failure
import LineShell.Word

/-!
# Commands

A command is empty, a list of words, or a list of words whose output goes to a file. The operator
`>` asks for a file that does not exist yet; `>+` puts the output in front of what the file holds.

* `Command.parse`: the command that a byte string writes.
* `Operator.find?`: which operator decides how a byte string is read.
* `Command.readWith`: the reading of a command with a given operator.
-/
namespace LineShell

/-- The commands that the shell carries out itself. -/
inductive Builtin
  | exit
  | cd
  | pwd
  deriving DecidableEq, Repr

namespace Builtin

def all : List Builtin := [exit, cd, pwd]

def text : Builtin → String
  | exit => "exit"
  | cd => "cd"
  | pwd => "pwd"

/-- The word that names the command. -/
def name (b : Builtin) : Bytes := Bytes.ofString b.text

/-- The command that a word names. -/
def ofName? (word : Bytes) : Option Builtin := all.find? fun b => b.name == word

theorem ofName?_name (b : Builtin) : ofName? b.name = some b := by
  cases b <;> decide

theorem name_of_ofName? {word : Bytes} {b : Builtin} (h : ofName? word = some b) :
    b.name = word := by
  have := List.find?_some h
  exact eq_of_beq this

end Builtin

/-- How the output of a command meets a file. -/
inductive Operator
  /-- `>`: the file must not exist yet. -/
  | overwrite
  /-- `>+`: the output goes in front of what the file holds. -/
  | prepend
  deriving DecidableEq, Repr

/-- The byte `>`. -/
def arrow : UInt8 := 62

/-- The byte `+`. -/
def plus : UInt8 := 43

/-- How the operator is written. -/
def Operator.written : Operator → Bytes
  | overwrite => [arrow]
  | prepend => [arrow, plus]

/-- The operator that decides how a command is read: `>+` wherever it occurs, else `>`. -/
def Operator.find? (raw : Bytes) : Option Operator :=
  if (Bytes.cut Operator.prepend.written raw).isSome then some .prepend
  else if raw.contains arrow then some .overwrite
  else none

/-- A command as the shell carries it out. -/
inductive Command
  /-- Nothing but spaces and tabs. -/
  | empty
  /-- A built-in command or a program; its output goes where the shell's goes. -/
  | simple (argv : List Bytes)
  /-- A program whose output goes to the file `target`. -/
  | redirect (argv : List Bytes) (target : Bytes) (operator : Operator)
  deriving DecidableEq, Repr

namespace Command

/-- Reads a command with the operator `op`. It is refused if it holds a second `>`, if one side
of the operator is blank, if the right side is not one word, and if the left side names a
built-in command, in this order. -/
def readWith (raw : Bytes) (op : Operator) : Except Failure Command :=
  if raw.count arrow > 1 then .error (.redirection .manyOperators)
  else match Bytes.cut op.written raw with
    | none => .error (.redirection .noOperator)
    | some (left, right) =>
      if isBlank left || isBlank right then .error (.redirection .missingSide)
      else match wordsOf right, wordsOf left with
        | [_], [] => .ok .empty
        | [target], name :: arguments =>
          if (Builtin.ofName? name).isSome then .error (.redirectedBuiltin name.decode)
          else .ok (.redirect (name :: arguments) target op)
        | _, _ => .error (.redirection .manyTargets)

/-- Reads one command of a line. -/
def parse (raw : Bytes) : Except Failure Command :=
  match Operator.find? raw with
  | some op => readWith raw op
  | none =>
    match wordsOf raw with
    | [] => .ok .empty
    | argv => .ok (.simple argv)

end Command

end LineShell
