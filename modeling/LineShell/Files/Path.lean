import LineShell.Bytes

/-!
# Paths

A path is a byte string. It is absolute if it begins with a slash. Joining keeps both parts as
they are written: nothing is normalised.

* `Path.join`: a path taken against a directory.
* `Path.components`: the names that lead along a path. A slash at the end leaves an empty name.
-/
namespace LineShell.Path

open Bytes (slash)

def isAbsolute (path : Bytes) : Bool := path.head? == some slash

/-- `path` taken against `base`. An absolute path replaces the base; a relative one stands behind
it, and behind a slash unless the base is empty or ends with one. -/
def join (base path : Bytes) : Bytes :=
  if isAbsolute path then path
  else if base.isEmpty || base.getLast? == some slash then base ++ path
  else base ++ slash :: path

/-- The name of a directory in itself. -/
def self : Bytes := [46]

/-- The name of the directory above. -/
def above : Bytes := [46, 46]

/-- Drops the empty pieces but the last one. -/
def dropEmpty : List Bytes → List Bytes
  | [] => []
  | [piece] => [piece]
  | piece :: pieces => if piece.isEmpty then dropEmpty pieces else piece :: dropEmpty pieces

/-- The names along a path, without the empty ones between slashes. The last name is empty if the
path ends with a slash. -/
def components (path : Bytes) : List Bytes := dropEmpty (path.splitOn slash)

def endsWithSlash (path : Bytes) : Bool := path.getLast? == some slash

/-- The path without the slashes at its end. -/
def withoutSlash (path : Bytes) : Bytes := (path.reverse.dropWhile (· == slash)).reverse

/-- The last name of a path. -/
def lastName (path : Bytes) : Bytes := ((withoutSlash path).splitOn slash).getLast?.getD []

/-- No path is longer than this. -/
def maxLength : Nat := 4095

/-- No name is longer than this. -/
def maxNameLength : Nat := 255

/-- The absolute path that spells out `names`. -/
def ofNames : List Bytes → Bytes
  | [] => [slash]
  | names => names.flatMap fun name => slash :: name

theorem join_absolute {base path : Bytes} (h : isAbsolute path = true) : join base path = path := by
  simp [join, h]

/-- A path taken against an absolute directory is absolute. -/
theorem isAbsolute_join {base path : Bytes} (h : isAbsolute base = true) :
    isAbsolute (join base path) = true := by
  unfold join
  split
  · assumption
  · cases base with
    | nil => simp [isAbsolute] at h
    | cons b base =>
      split <;> simpa [isAbsolute] using h

end LineShell.Path
