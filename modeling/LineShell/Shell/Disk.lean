import LineShell.Shell.State

/-!
# Writing and copying

A redirection writes some files itself: an error message in place of what a program would have
written, and old content that is put aside and back again. Each call may be refused, and when the
disk is full a part of the bytes has been written.

* `System.ask`: a call that is refused, or nothing stands in its way.
* `System.write`: bytes into an open file.
* `System.copy`: one open file to the end of another, block after block. `System.setAside`: to the
  end of a scratch file.
* `Shell.inFile`: the same in the shell, which tells of a refusal under the name of the file.
-/
namespace LineShell

namespace System

/-- A call that needs nothing but the system's leave. -/
def ask : Action System OsError Unit := fun s =>
  match s.disk.answers with
  | [] => .ok () s
  | none :: answers => .ok () { s with disk := { s.disk with answers } }
  | some e :: answers => .error e { s with disk := { s.disk with answers } }

/-- How many of `n` bytes an open file takes. The device takes any number. -/
def taken (s : System) (i : Ino) (n : Nat) : Nat :=
  if s.files.node? i = some .null then n else min n s.disk.room

/-- Writes bytes into an open file from a position on. If not all of them are taken, the disk is
full. -/
def write (i : Ino) (position : Nat) (bytes : Bytes) : Action System OsError Unit := do
  ask
  let s ← get
  let n := s.taken i bytes.length
  set { s with
    files := s.files.write i position (bytes.take n)
    disk := { s.disk with room := s.disk.room - n } }
  if n < bytes.length then throw .noSpace

/-- Copies the blocks of a file from a position on to the end of another file, and at most so many
of them. The file may grow while it is copied. -/
def copyFrom (source target : Ino) : (blocks position : Nat) → Action System OsError Unit
  | 0, _ => pure ()
  | blocks + 1, position => do
    ask
    match (← get).files.readBlock source position with
    | .error e => throw e
    | .ok [] => pure ()
    | .ok block =>
      write target ((← get).files.contents target).length block
      copyFrom source target blocks (position + block.length)

/-- Copies a file to the end of another one. Each block takes room on the disk or is one of those
that the file has, so this does not go on for ever. -/
def copy (source target : Ino) : Action System OsError Unit := do
  let s ← get
  copyFrom source target (s.disk.room + (s.files.contents source).length + 1) 0

/-- Copies a file to the end of a scratch file, which is then rewound for reading. -/
def setAside (source scratch : Ino) : Action System OsError Unit := do
  copy source scratch
  ask

end System

/-- What the shell does in the system with the file that a path names. -/
def Shell.inFile {α : Type} (path : Bytes) (x : Action System OsError α) :
    Action Shell Failure α := fun s =>
  match x s.system with
  | .ok a system => .ok a { s with system }
  | .error e system => .error (.resource path (.os e)) { s with system }

end LineShell
