import LineShell.Bytes

/-!
# What can go wrong

* `OsError`: a refusal of the operating system, with its number and its text.
* `IoError`: a refusal of the operating system, or one of the few causes without a number.
* `Failure`: why a command failed. `Failure.message` words it, for logs and programs.
* `errorMessage`: the one line a user sees, whatever went wrong.
-/
namespace LineShell

/-- A refusal of the operating system. -/
inductive OsError
  | notPermitted
  | noEntry
  | inputOutput
  | badFormat
  | accessDenied
  | exists
  | notDirectory
  | isDirectory
  | invalid
  | textBusy
  | noSpace
  | brokenPipe
  | nameTooLong
  | notEmpty
  | linkLoop
  deriving DecidableEq, Repr, Inhabited

namespace OsError

/-- The number of the refusal. -/
def code : OsError → Nat
  | notPermitted => 1
  | noEntry => 2
  | inputOutput => 5
  | badFormat => 8
  | accessDenied => 13
  | .exists => 17
  | notDirectory => 20
  | isDirectory => 21
  | invalid => 22
  | textBusy => 26
  | noSpace => 28
  | brokenPipe => 32
  | nameTooLong => 36
  | notEmpty => 39
  | linkLoop => 40

/-- The system's text for the refusal. -/
def text : OsError → String
  | notPermitted => "Operation not permitted"
  | noEntry => "No such file or directory"
  | inputOutput => "Input/output error"
  | badFormat => "Exec format error"
  | accessDenied => "Permission denied"
  | .exists => "File exists"
  | notDirectory => "Not a directory"
  | isDirectory => "Is a directory"
  | invalid => "Invalid argument"
  | textBusy => "Text file busy"
  | noSpace => "No space left on device"
  | brokenPipe => "Broken pipe"
  | nameTooLong => "File name too long"
  | notEmpty => "Directory not empty"
  | linkLoop => "Too many levels of symbolic links"

def all : List OsError :=
  [notPermitted, noEntry, inputOutput, badFormat, accessDenied, .exists, notDirectory, isDirectory,
    invalid, textBusy, noSpace, brokenPipe, nameTooLong, notEmpty, linkLoop]

/-- The refusal with a number, if it is a known one. -/
def ofCode? (n : Nat) : Option OsError := all.find? fun e => e.code == n

theorem ofCode?_code (e : OsError) : ofCode? e.code = some e := by
  cases e <;> rfl

end OsError

/-- Why reading, writing or starting a program failed. -/
inductive IoError
  | os (error : OsError)
  /-- The output takes no more bytes. -/
  | sinkFull
  /-- The input broke down. -/
  | sourceFailed
  /-- The name of a file holds a zero byte. -/
  | nulInName
  /-- An argument, a variable or a directory for a program holds a zero byte. -/
  | nulInData
  deriving DecidableEq, Repr, Inhabited

def IoError.message : IoError → String
  | os e => e.text ++ " (os error " ++ toString e.code ++ ")"
  | sinkFull => "sink full"
  | sourceFailed => "source failed"
  | nulInName => "file name contained an unexpected NUL byte"
  | nulInData => "nul byte found in provided data"

/-- What is wrong with the form of a redirection. -/
inductive RedirectionFault
  | manyOperators
  | noOperator
  | missingSide
  | manyTargets
  | other (text : String)
  deriving DecidableEq, Repr

def RedirectionFault.message : RedirectionFault → String
  | manyOperators => "more than one '>'"
  | noOperator => "missing redirection operator"
  | missingSide => "missing command or filename"
  | manyTargets => "filename must be a single word"
  | other text => text

/-- Why a command failed, or a session had to tell of a failure. -/
inductive Failure
  | usage (name : String)
  | redirection (fault : RedirectionFault)
  | redirectedBuiltin (name : String)
  | targetExists (path : Bytes)
  | commandNotFound (name : String)
  | spawn (name : String) (cause : IoError)
  | resource (path : Bytes) (cause : IoError)
  | scratchConflict (path : Bytes)
  | homeUnset
  | notADirectory (path : Bytes)
  | endOfInput
  | lineTooLong (bytes : Nat)
  | output (cause : IoError)
  deriving DecidableEq, Repr

/-- The failure in words. Names of files that are no UTF-8 are decoded with replacement. -/
def Failure.message : Failure → String
  | usage name => name ++ ": invalid arguments"
  | redirection fault => "invalid redirection: " ++ fault.message
  | redirectedBuiltin name => name ++ ": cannot redirect output of a built-in"
  | targetExists path => path.decode ++ ": file exists"
  | commandNotFound name => name ++ ": command not found"
  | spawn name cause => "failed to execute " ++ name ++ ": " ++ cause.message
  | resource path cause => path.decode ++ ": " ++ cause.message
  | scratchConflict path => path.decode ++ ": scratch file cannot be its own redirection target"
  | homeUnset => "cd: HOME not set"
  | notADirectory path => "cd: " ++ path.decode ++ ": not a directory"
  | endOfInput => "end of input"
  | lineTooLong bytes => "line longer than " ++ toString bytes ++ " bytes"
  | output cause => "output error: " ++ cause.message

/-- The one line that tells a user of a failure. -/
def errorMessage : Bytes := Bytes.ofString "An error has occurred\n"

end LineShell
