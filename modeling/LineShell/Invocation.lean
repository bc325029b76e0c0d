import LineShell.Session

/-!
# The command line

The shell is started with no operand, and reads commands from standard input, or with the name of
a batch file. Every word is a name of a file, also one that looks like an option, so more than one
word is the only usage failure.

* `Invocation.parse`: the batch file that the words name.
* `Invocation.run`: the session that the words ask for, and the status at its end.
-/
namespace LineShell.Invocation

/-- The batch file that a full list of words names, the program's own name first. -/
def parse : List Bytes → Except Failure (Option Bytes)
  | [] => .ok none
  | program :: words =>
    match operandsUpTo 1 (endOfOptions :: words.map Bytes.decode) with
    | none => .error (.usage program.decode)
    | some _ => .ok words.head?

/-- The mode of the session for a batch file or none. -/
def mode (batchFile : Option Bytes) : SessionMode :=
  if batchFile.isSome then .batch else .interactive

/-- The variables that strings such as `NAME=value` give, a later one in place of an earlier one. A
name has at least one byte, so a string may begin with the sign; one without it is passed over. -/
def variablesOf (strings : List Bytes) : Variables :=
  Variables.ofList <| strings.filterMap fun
    | [] => none
    | b :: bs => (Bytes.cut [61] bs).map fun (name, value) => (b :: name, value)

/-- No file grows by more than this while it is read. -/
def maxGrowth : Nat := 0x8000000000000000

/-- The file that is read, if there is one. -/
def inputFile? (system : System) : Origin → Option Ino
  | .standard => system.input.map Prod.fst
  | .file i _ => some i

/-- A session takes no more bytes than its file holds at first and comes to hold. -/
def quotaFor (system : System) (origin : Origin) : Nat :=
  (((inputFile? system origin).map system.files.contents).getD []).length + maxGrowth

/-- Tells of a failure instead of running a session. -/
def refuse (s : Shell) : Nat × Shell :=
  match Shell.report s with
  | .ok () s => (0, s)
  | .error _ s => (1, s)

/-- The status at the end of a session, and the shell. The status is one if the session broke off. -/
def closing {σ : Type} : EStateM.Result SessionFailure (Shell × σ) Unit → Nat × Shell
  | .ok () s => (0, s.1)
  | .error _ s => (1, s.1)

/-- Runs a session on an open file. -/
def runOn (programs : Programs) (config : Config) (mode : SessionMode) (origin : Origin)
    (s : Shell) : Nat × Shell :=
  closing (Session.run programs config mode
    (s, ({ origin, quota := quotaFor s.system origin } : Reader)))

/-- Opens a batch file, looked for from the working directory. The empty path leads nowhere. -/
def openBatch (s : Shell) (path : Bytes) : Except OsError Ino :=
  if path.isEmpty then .error .noEntry
  else s.system.files.openExisting .read (s.env.resolve path)

/-- Runs the session that the words ask for. A batch file that cannot be opened is reported, and no
session is run. -/
def run (programs : Programs) (config : Config) (words : List Bytes) (s : Shell) : Nat × Shell :=
  match parse words with
  | .error _ => refuse s
  | .ok none => runOn programs config .interactive .standard s
  | .ok (some path) =>
    match openBatch s path with
    | .error _ => refuse s
    | .ok i => runOn programs config .batch (.file i 0) s

end LineShell.Invocation
