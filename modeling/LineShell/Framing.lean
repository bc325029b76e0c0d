import LineShell.Failure
import LineShell.Word

/-!
# Bounded reads

Input is taken in chunks of at most `limit` bytes; a newline ends a chunk early. A chunk that is
full and has no newline begins an overlong line, whose rest is read and echoed, but never run.

* `Supply`: where bytes come from. A supply shows the bytes that are at hand, and any number of them
  may be taken. `Piece` is the supply that is known beforehand: blocks of bytes with interruptions
  and faults between them.
* `readWindows`: what is at hand is taken window by window, as long as there is room and no newline
  has been taken. An interruption is not seen; a fault loses what the read had taken.
* `readChunk`: one bounded read.
* `echoRest`: reads and echoes to the end of the logical line.
-/
namespace LineShell

/-! ## Supplies -/

/-- What a look at a supply finds, and the supply behind it. -/
inductive Look (σ : Type)
  /-- The bytes that are at hand. There are none only at the end of the input. -/
  | bytes (available : Bytes) (rest : σ)
  /-- The look was interrupted and has to be tried again. -/
  | again (rest : σ)
  | fault (cause : IoError) (rest : σ)
  deriving Repr

def Look.map {σ τ : Type} (f : σ → τ) : Look σ → Look τ
  | bytes available rest => .bytes available (f rest)
  | again rest => .again (f rest)
  | fault cause rest => .fault cause (f rest)

/-- A state from which bytes can be read. -/
class Supply (σ : Type) where
  look : σ → Look σ
  /-- Takes bytes that a look has shown. -/
  consume : Nat → σ → σ
  /-- No more than this many bytes are read from the state. -/
  size : σ → Nat
  /-- No more than this many looks are interrupted. -/
  delays : σ → Nat

/-- A part of an input that is known beforehand. -/
inductive Piece
  /-- Bytes that arrive together, at least one. -/
  | block (first : UInt8) (others : Bytes)
  /-- A read that has to be tried again. -/
  | interruption
  /-- A read that fails, once. -/
  | fault (cause : IoError)
  deriving DecidableEq, Repr

namespace Piece

/-- Bytes as a piece. Where none arrive, nothing is read and the reader tries again. -/
def bytes : Bytes → Piece
  | [] => .interruption
  | b :: bs => .block b bs

def look : List Piece → Look (List Piece)
  | [] => .bytes [] []
  | .block b bs :: pieces => .bytes (b :: bs) (.block b bs :: pieces)
  | .interruption :: pieces => .again pieces
  | .fault cause :: pieces => .fault cause pieces

/-- What is left of a block, in front of other pieces. -/
def leaving : Bytes → List Piece → List Piece
  | [], pieces => pieces
  | b :: bs, pieces => .block b bs :: pieces

/-- Takes bytes from the block at the front. -/
def consume (n : Nat) : List Piece → List Piece
  | .block b bs :: pieces => leaving ((b :: bs).drop n) pieces
  | pieces => pieces

/-- The bytes of the pieces, without their cuts. -/
def content : List Piece → Bytes
  | [] => []
  | .block b bs :: pieces => b :: bs ++ content pieces
  | .interruption :: pieces => content pieces
  | .fault _ :: pieces => content pieces

instance : Supply (List Piece) where
  look := look
  consume := consume
  size pieces := (content pieces).length
  delays pieces := pieces.length

end Piece

/-! ## Chunks -/

/-- What one bounded read took, and the limit it was read with. -/
structure Chunk where
  bytes : Bytes
  limit : Nat
  deriving DecidableEq, Repr

namespace Chunk

def endsLine (c : Chunk) : Bool := c.bytes.getLast? == some Bytes.newline

/-- The chunk is full and its line goes on. -/
def isOverlong (c : Chunk) : Bool := decide (c.limit ≤ c.bytes.length) && !c.endsLine

def isBlank (c : Chunk) : Bool := LineShell.isBlank c.bytes

/-- The chunk without its newline. -/
def text (c : Chunk) : Bytes := if c.endsLine then c.bytes.dropLast else c.bytes

end Chunk

section
variable {σ : Type} [Supply σ]

/-- Adds to `taken` what is at hand, until `limit` bytes have been taken, or a newline, or nothing
is left. Only the part of the bytes at hand for which there is room is searched for a newline. At
most `looks` looks are taken: each but the last one was interrupted or found a byte to take. -/
def readWindows (limit : Nat) : (looks : Nat) → (taken : Bytes) → σ → Except IoError Bytes × σ
  | 0, taken, s => (.ok taken, s)
  | looks + 1, taken, s =>
    if limit ≤ taken.length then (.ok taken, s)
    else match Supply.look s with
      | .again rest => readWindows limit looks taken rest
      | .fault cause rest => (.error cause, rest)
      | .bytes available rest =>
        if available.isEmpty then (.ok taken, rest)
        else
          let window := available.take (limit - taken.length)
          match window.findIdx? (· == Bytes.newline) with
          | some i => (.ok (taken ++ window.take (i + 1)), Supply.consume (i + 1) rest)
          | none =>
            readWindows limit looks (taken ++ window) (Supply.consume window.length rest)

/-- The limit that is in force: a limit of zero acts as one. -/
def effectiveLimit (limit : Nat) : Nat := max limit 1

/-- One bounded read, or nothing at the end of the input. -/
def readChunk (limit : Nat) (s : σ) : Except IoError (Option Chunk) × σ :=
  let limit := effectiveLimit limit
  match readWindows limit (Supply.delays s + limit + 1) [] s with
  | (.error cause, rest) => (.error cause, rest)
  | (.ok [], rest) => (.ok none, rest)
  | (.ok bs, rest) => (.ok (some ⟨bs, limit⟩), rest)

end

/-! ## The rest of an overlong line -/

/-- Reads chunks and echoes each, through the one that ends the line or the end of the input.
At most `fuel` chunks are read: a supply of that many bytes never runs out of fuel. -/
def echoRest {ρ : Type} (read : EStateM IoError ρ (Option Chunk))
    (echo : Bytes → EStateM IoError ρ Unit) : Nat → EStateM IoError ρ Unit
  | 0 => pure ()
  | fuel + 1 => do
    match ← read with
    | none => pure ()
    | some chunk =>
      echo chunk.bytes
      unless chunk.endsLine do echoRest read echo fuel

end LineShell
