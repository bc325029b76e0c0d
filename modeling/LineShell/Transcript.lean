import LineShell.System

/-!
# The transcript

Everything that happens during a session, in order: what the shell writes, what its programs
write, which programs it starts, and which commands it has carried out. The shell's own output may
be limited; the output of programs is not.

* `Transcript.say`: the shell writes. What does not fit is cut off, and the write fails.
* `Transcript.said`: all bytes that the shell wrote itself.
* `Transcript.shown`: all bytes that came out, in true order.
-/
namespace LineShell

inductive Event
  /-- The shell wrote. -/
  | said (bytes : Bytes)
  /-- A program wrote to the shell's output. -/
  | printed (bytes : Bytes)
  /-- The shell asked for a program to be started. -/
  | launched (order : Launch) (started : Bool)
  /-- A command was carried out, or it failed. -/
  | carriedOut (raw : Bytes) (failure : Option Failure)
  deriving DecidableEq

structure Transcript where
  /-- How many bytes the shell may still write; without a number, any. -/
  room : Option Nat := none
  events : List Event := []
  deriving DecidableEq

namespace Transcript

def note (t : Transcript) (e : Event) : Transcript := { t with events := t.events ++ [e] }

/-- The shell writes. Only what fits into the room is written, and if that is not all, the write
fails and no room is left. -/
def say (t : Transcript) (bytes : Bytes) : Except IoError Unit × Transcript :=
  match t.room with
  | none => (.ok (), t.note (.said bytes))
  | some room =>
    if bytes.length ≤ room then
      (.ok (), { room := some (room - bytes.length), events := t.events ++ [.said bytes] })
    else (.error .sinkFull, { room := some 0, events := t.events ++ [.said (bytes.take room)] })

/-- The shell's own bytes in a list of events. -/
def saidIn (events : List Event) : Bytes :=
  events.flatMap fun
    | .said bytes => bytes
    | _ => []

/-- All bytes that came out in a list of events. -/
def shownIn (events : List Event) : Bytes :=
  events.flatMap fun
    | .said bytes => bytes
    | .printed bytes => bytes
    | _ => []

def said (t : Transcript) : Bytes := saidIn t.events

def shown (t : Transcript) : Bytes := shownIn t.events

/-- A write takes the longest part of the bytes that fits, and fails exactly if that is not all. -/
theorem say_eq (t : Transcript) (bytes : Bytes) :
    (t.say bytes).2.said = t.said ++ bytes.take (t.room.getD bytes.length) ∧
      ((t.say bytes).1 = .ok () ↔ bytes.length ≤ t.room.getD bytes.length) := by
  unfold say
  split
  · rename_i h
    simp [h, said, saidIn, note]
  · rename_i room h
    split
    · rename_i hle
      simp [h, hle, said, saidIn, List.take_of_length_le hle]
    · rename_i hgt
      simp [h, hgt, said, saidIn]

end Transcript

end LineShell
