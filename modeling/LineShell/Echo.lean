import LineShell.Framing
import LineShell.Transcript

/-!
# Echoing the rest of a line

The rest of an overlong line outside a session: it is read from pieces and echoed to an output of
its own.
-/
namespace LineShell

/-- Reads and echoes to the end of the line. The answer holds the outcome, the transcript of the
echo, and the pieces behind the line. -/
def echoPieces (limit : Nat) (room : Option Nat) (pieces : List Piece) :
    Except IoError Unit × Transcript × List Piece :=
  let read : EStateM IoError (List Piece × Transcript) (Option Chunk) := fun s =>
    match readChunk limit s.1 with
    | (.ok chunk, rest) => .ok chunk (rest, s.2)
    | (.error e, rest) => .error e (rest, s.2)
  let echo (bytes : Bytes) : EStateM IoError (List Piece × Transcript) Unit := fun s =>
    match s.2.say bytes with
    | (.ok (), t) => .ok () (s.1, t)
    | (.error e, t) => .error e (s.1, t)
  match echoRest read echo (Supply.size pieces + 1) (pieces, { room }) with
  | .ok () (rest, t) => (.ok (), t, rest)
  | .error e (rest, t) => (.error e, t, rest)

end LineShell
