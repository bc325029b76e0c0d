import LineShell.Failure
import LineShell.Files.Path

/-!
# The tree of files

A file has a number that stays the same as long as it exists, under all its names. `Tree.nodes`
holds the files by number, the root directory first. No entry of the list is ever taken away: a
file that has lost its last name stays there for those who have it open.

* `Node`: a regular file, a directory, a symbolic link, or the device that swallows everything.
* `Tree.node?`, `Tree.put`, `Tree.add`: the file with a number, changed or new.
* `Tree.bind`, `Tree.unbind`: the names in a directory.
* `Tree.write`, `Tree.truncate`, `Tree.contents`: the content of regular files.
-/
namespace LineShell

/-- The number of a file. -/
abbrev Ino := Nat

/-- The permissions of a file, twelve bits. -/
abbrev Mode := Nat

namespace Mode

/-- What the owner of a file may do. -/
def readable (m : Mode) : Bool := m.testBit 8

def writable (m : Mode) : Bool := m.testBit 7

/-- The owner may run the file, or look up names in the directory. -/
def searchable (m : Mode) : Bool := m.testBit 6

/-- Someone may run the file. -/
def anyExecute (m : Mode) : Bool := m.testBit 6 || m.testBit 3 || m.testBit 0

/-- The permissions without those that a mask withholds. -/
def without (m mask : Mode) : Mode := m ^^^ (m &&& mask)

theorem testBit_without (m mask : Mode) (i : Nat) :
    (m.without mask).testBit i = (m.testBit i && !mask.testBit i) := by
  unfold without
  rw [Nat.testBit_xor, Nat.testBit_and]
  cases m.testBit i <;> cases mask.testBit i <;> rfl

end Mode

/-- The names of a directory with the files they lead to, in the order in which they were made. -/
abbrev Entries := List (Bytes × Ino)

inductive Node
  | file (mode : Mode) (data : Bytes)
  | directory (mode : Mode) (entries : Entries)
  | link (target : Bytes)
  | null
  deriving DecidableEq, Repr

namespace Node

def mode : Node → Mode
  | file mode _ => mode
  | directory mode _ => mode
  | link _ => 0o777
  | null => 0o666

def isDirectory : Node → Bool
  | directory .. => true
  | _ => false

def withMode (m : Mode) : Node → Node
  | file _ data => .file m data
  | directory _ entries => .directory m entries
  | other => other

end Node

structure Tree where
  nodes : List Node
  deriving DecidableEq, Repr

namespace Tree

/-- The number of the root directory. -/
def root : Ino := 0

/-- A root directory with nothing in it. -/
def empty : Tree := ⟨[.directory 0o755 []]⟩

def node? (t : Tree) (i : Ino) : Option Node := t.nodes[i]?

/-- The file with number `i` becomes `n`. -/
def put (t : Tree) (i : Ino) (n : Node) : Tree := ⟨t.nodes.set i n⟩

/-- A new file, which no directory names yet, and its number. -/
def add (t : Tree) (n : Node) : Ino × Tree := (t.nodes.length, ⟨t.nodes ++ [n]⟩)

theorem node?_put_self {t : Tree} {i : Ino} {n m : Node} (h : t.node? i = some m) :
    (t.put i n).node? i = some n := by
  unfold node? at h
  simp [node?, put, (List.getElem?_eq_some_iff.1 h).1]

theorem node?_put_ne {t : Tree} {i j : Ino} {n : Node} (h : j ≠ i) :
    (t.put i n).node? j = t.node? j := by
  simp [node?, put, Ne.symm h]

/-- What existed before is as it was. -/
theorem node?_add_old {t : Tree} {n m : Node} {i : Ino} (h : t.node? i = some m) :
    (t.add n).2.node? i = some m := by
  unfold node? at h
  simpa [node?, add, List.getElem?_append, (List.getElem?_eq_some_iff.1 h).1] using h

theorem node?_add_new (t : Tree) (n : Node) : (t.add n).2.node? (t.add n).1 = some n := by
  simp [node?, add]

/-! ## Names -/

/-- The entries of a directory; nothing else has any. -/
def entries (t : Tree) (dir : Ino) : Entries :=
  match t.node? dir with
  | some (.directory _ es) => es
  | _ => []

/-- The file gets a name in a directory. -/
def bind (t : Tree) (dir : Ino) (name : Bytes) (i : Ino) : Tree :=
  match t.node? dir with
  | some (.directory mode es) => t.put dir (.directory mode (es ++ [(name, i)]))
  | _ => t

/-- The name is taken away from a directory. -/
def unbind (t : Tree) (dir : Ino) (name : Bytes) : Tree :=
  match t.node? dir with
  | some (.directory mode es) => t.put dir (.directory mode (es.filter fun e => e.1 != name))
  | _ => t

/-- The name leads to another file from now on. -/
def rebind (t : Tree) (dir : Ino) (name : Bytes) (i : Ino) : Tree :=
  match t.node? dir with
  | some (.directory mode es) =>
    t.put dir (.directory mode (es.map fun e => if e.1 = name then (name, i) else e))
  | _ => t

/-! ## Content -/

/-- The bytes of a regular file; other files have none. -/
def contents (t : Tree) (i : Ino) : Bytes :=
  match t.node? i with
  | some (.file _ data) => data
  | _ => []

/-- `bs` written into `data` from position `start` on. A gap is filled with zero bytes. -/
def splice (data : Bytes) (start : Nat) (bs : Bytes) : Bytes :=
  if bs.isEmpty then data
  else data.take start ++ List.replicate (start - data.length) 0 ++ bs ++
    data.drop (start + bs.length)

/-- Writes into a regular file; the device swallows everything. -/
def write (t : Tree) (i : Ino) (start : Nat) (bs : Bytes) : Tree :=
  match t.node? i with
  | some (.file mode data) => t.put i (.file mode (splice data start bs))
  | _ => t

/-- Writes at the end of a regular file. -/
def append (t : Tree) (i : Ino) (bs : Bytes) : Tree := t.write i (t.contents i).length bs

/-- Takes away all content of a regular file. -/
def truncate (t : Tree) (i : Ino) : Tree :=
  match t.node? i with
  | some (.file mode _) => t.put i (.file mode [])
  | _ => t

theorem splice_end (data bs : Bytes) : splice data data.length bs = data ++ bs := by
  cases bs with
  | nil => simp [splice]
  | cons b bs => simp [splice]

theorem splice_start_nil (bs : Bytes) : splice [] 0 bs = bs := by
  cases bs <;> simp [splice]

theorem contents_append {t : Tree} {i : Ino} {mode : Mode} {data : Bytes} (bs : Bytes)
    (h : t.node? i = some (.file mode data)) :
    (t.append i bs).node? i = some (.file mode (data ++ bs)) := by
  simp [append, contents, write, h, splice_end, node?_put_self h]

end Tree

end LineShell
