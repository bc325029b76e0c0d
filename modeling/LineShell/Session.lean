import LineShell.Framing
import LineShell.Shell.Execute

/-!
# Sessions

A session reads lines, echoes them and carries them out, until the input ends or the shell is told
to leave. The output of the session is a full transcript, for every line read is echoed before it
is run.

* `SessionMode`: an interactive session prompts before each read, and the end of its input is a
  failure; a batch session skips blank reads silently.
* `Session.turn`: one read with what follows from it.
* `Session.run`: turns to the end of the session.
* `Reader`: an open file as the input of a session.
-/
namespace LineShell

inductive SessionMode
  | interactive
  | batch
  deriving DecidableEq, Repr

/-- Why a session broke off. -/
inductive SessionFailure
  /-- The input could not be read, or the rest of an overlong line could not be read or echoed. -/
  | input (cause : IoError)
  | output (cause : IoError)
  deriving DecidableEq, Repr

def SessionFailure.message : SessionFailure → String
  | input cause => "failed to read input: " ++ cause.message
  | output cause => cause.message

/-! ## Inputs -/

/-- Pieces that are known beforehand do not depend on the system. -/
instance : Supply (List Piece × System) where
  look s := (Piece.look s.1).map fun rest => (rest, s.2)
  consume n s := (Piece.consume n s.1, s.2)
  size s := Supply.size s.1
  delays s := Supply.delays s.1

/-- Where an open file is read. -/
inductive Origin
  /-- Standard input, whose position the shell shares with its programs. -/
  | standard
  /-- A file that only the shell has open, with the position of the next block. -/
  | file (i : Ino) (position : Nat)
  deriving DecidableEq, Repr

/-- An open file that is read in blocks. The file is looked at when a block is read, so a program
may still change what has not been read. `quota` bounds the bytes that are taken in all. -/
structure Reader where
  origin : Origin
  buffer : Bytes := []
  quota : Nat
  deriving DecidableEq, Repr

namespace Reader

/-- Reads the next block, which is empty at the end of the file. -/
def refill (origin : Origin) (system : System) : Except OsError Bytes × Origin × System :=
  match origin with
  | .file i position =>
    match system.files.readBlock i position with
    | .ok bs => (.ok bs, .file i (position + bs.length), system)
    | .error e => (.error e, origin, system)
  | .standard =>
    match system.input with
    | none => (.ok [], origin, system)
    | some (i, position) =>
      match system.files.readBlock i position with
      | .ok bs => (.ok bs, origin, { system with input := some (i, position + bs.length) })
      | .error e => (.error e, origin, system)

/-- The bytes at hand: the block read last, or a new one if that is used up. -/
def look (r : Reader) (system : System) : Look (Reader × System) :=
  if r.quota = 0 then .bytes [] (r, system)
  else if !r.buffer.isEmpty then .bytes (r.buffer.take r.quota) (r, system)
  else match refill r.origin system with
    | (.error e, origin, system) => .fault (.os e) ({ r with origin }, system)
    | (.ok bs, origin, system) => .bytes (bs.take r.quota) ({ r with origin, buffer := bs }, system)

def consume (n : Nat) (r : Reader) : Reader :=
  { r with buffer := r.buffer.drop n, quota := r.quota - n }

/-- No read of a file is interrupted. -/
instance : Supply (Reader × System) where
  look s := look s.1 s.2
  consume n s := (consume n s.1, s.2)
  size s := s.1.quota
  delays _ := 0

end Reader

/-! ## The loop -/

namespace Session

variable {σ : Type}

/-- An action of the shell in a session. -/
def onShell {ε α : Type} (x : Action Shell ε α) : Action (Shell × σ) ε α := fun s =>
  match x s.1 with
  | .ok a shell => .ok a (shell, s.2)
  | .error e shell => .error e (shell, s.2)

variable [Supply (σ × System)]

/-- One bounded read from the input of the session. -/
def read (config : Config) : Action (Shell × σ) IoError (Option Chunk) := fun s =>
  match readChunk config.lineLimit (s.2, s.1.system) with
  | (.ok chunk, input, system) => .ok chunk ({ s.1 with system }, input)
  | (.error e, input, system) => .error e ({ s.1 with system }, input)

/-- The number of bytes that the input of the session can still give. -/
def remaining (s : Shell × σ) : Nat := Supply.size (s.2, s.1.system)

/-- Reads and echoes the rest of an overlong line. -/
def passOver (config : Config) : Action (Shell × σ) IoError Unit := fun s =>
  echoRest (read config) (fun bytes => onShell (Shell.say bytes)) (remaining s + 1) s

/-- One read and what follows from it. The answer tells whether the session goes on. -/
def turn (programs : Programs) (config : Config) (mode : SessionMode) :
    Action (Shell × σ) SessionFailure Bool := do
  if mode = .interactive then
    (onShell (Shell.say (Bytes.ofString config.prompt))).orFail .output
  match ← (read config).orFail .input with
  | none =>
    if mode = .interactive then (onShell Shell.report).orFail .output
    return false
  | some chunk =>
    if mode = .batch && chunk.isBlank then return true
    (onShell (Shell.say chunk.bytes)).orFail .output
    if chunk.isOverlong then
      (passOver config).orFail .input
      (onShell Shell.report).orFail .output
      return true
    (onShell (Shell.runLine programs config chunk.text)).orFail .output
    return !(← get).1.env.leaving

/-- Turns until one ends the session, and at most `fuel` of them. -/
def turns (programs : Programs) (config : Config) (mode : SessionMode) :
    Nat → Action (Shell × σ) SessionFailure Unit
  | 0 => pure ()
  | fuel + 1 => do
    if ← turn programs config mode then turns programs config mode fuel

/-- Runs a session to its end. A turn that does not end the session has taken a byte, so there
are no more turns than bytes, and one. -/
def run (programs : Programs) (config : Config) (mode : SessionMode) :
    Action (Shell × σ) SessionFailure Unit := fun s =>
  turns programs config mode (remaining s + 1) s

end Session

end LineShell
