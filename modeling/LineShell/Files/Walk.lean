import LineShell.Files.Tree

/-!
# Walking along a path

A walk starts at the root directory, for paths are taken from there. It keeps the trail of names
that leads to where it stands, so that `..` goes back one name and the place reached has one
canonical path.

* `Manner`: a path is walked at once, or each place on the way is looked up by a path of its own.
* `Tree.stretch`: a walk up to the first symbolic link that has to be followed.
* `Tree.walk`: stretches and links in turn, with a limit on the number of links.
* `Tree.locate`: where a path leads if it is walked at once, for the files that are opened.
* `Tree.spellOut`: where a path leads if each place on the way is looked up by its own path.
  `Tree.canonical` is the path of that place, without links, `.` and `..`.
-/
namespace LineShell

/-- The names from the root directory to a place, the innermost first, each with its file. The
empty trail is the root directory. -/
abbrev Trail := List (Bytes × Ino)

namespace Trail

/-- The file at the end of the trail. -/
def here : Trail → Ino
  | [] => Tree.root
  | (_, i) :: _ => i

/-- The absolute path that spells out the trail. -/
def path (trail : Trail) : Bytes := Path.ofNames (trail.reverse.map Prod.fst)

end Trail

/-- Where a path leads. -/
inductive Place
  /-- To a file. -/
  | found (trail : Trail)
  /-- To a name that the directory does not hold. `slash` tells whether a slash follows it. -/
  | missing (dir : Trail) (name : Bytes) (slash : Bool)
  deriving DecidableEq, Repr

/-- How a stretch of a walk ends. -/
inductive Stretch
  | place (p : Place)
  /-- At a link in a directory, with the names behind it. -/
  | link (dir : Trail) (target : Bytes) (rest : List Bytes)
  | refused (e : OsError)
  deriving DecidableEq, Repr

/-- How a walk is done. -/
structure Manner where
  /-- A link at the very end is followed. -/
  follow : Bool
  /-- Every name is looked up by the absolute path of its place, which must not be too long. -/
  spelled : Bool
  deriving DecidableEq, Repr

/-- The absolute path of a name is too long to look it up. `.` and `..` are not looked up by it. -/
def Manner.refuses (m : Manner) (trail : Trail) (name : Bytes) : Bool :=
  m.spelled && !([[], Path.self, Path.above].contains name) &&
    decide (Path.maxLength < (Trail.path ((name, Tree.root) :: trail)).length)

namespace Tree

/-- Follows names from a place as long as no link is met. A link at the very end is followed if
`follow` is set. Every name is looked up in a directory that its owner may search. -/
def stretch (t : Tree) (m : Manner) : Trail → List Bytes → Stretch
  | trail, [] => .place (.found trail)
  | trail, name :: rest =>
    if m.refuses trail name then .refused .nameTooLong
    else match t.node? trail.here with
    | some (.directory mode entries) =>
      if name = [] then stretch t m trail rest
      else if !mode.searchable then .refused .accessDenied
      else if name = Path.self then stretch t m trail rest
      else if name = Path.above then stretch t m trail.tail rest
      else if name.length > Path.maxNameLength then .refused .nameTooLong
      else match entries.lookup name with
        | none =>
          if rest.all (·.isEmpty) then .place (.missing trail name (!rest.isEmpty))
          else .refused .noEntry
        | some i =>
          match t.node? i with
          | some (.link target) =>
            if rest.isEmpty && !m.follow then .place (.found ((name, i) :: trail))
            else .link trail target rest
          | _ => stretch t m ((name, i) :: trail) rest
    | _ => .refused .notDirectory

/-- No walk follows more links than this. -/
def maxLinks : Nat := 40

/-- A walk that may still follow `links` links. The target of a link is walked from the directory
of the link, or from the root directory if it is absolute. -/
def walk (t : Tree) (m : Manner) (links : Nat) (trail : Trail) (names : List Bytes) :
    Except OsError Place :=
  match t.stretch m trail names with
  | .place p => .ok p
  | .refused e => .error e
  | .link dir target rest =>
    match links with
    | 0 => .error .linkLoop
    | links + 1 =>
      t.walk m links (if Path.isAbsolute target then [] else dir)
        (Path.components target ++ rest)

/-- Where a path leads. A link at its end is followed if `follow` is set. -/
def locate (t : Tree) (follow : Bool) (path : Bytes) : Except OsError Place :=
  if path.isEmpty then .error .noEntry
  else if path.length > Path.maxLength then .error .nameTooLong
  else t.walk ⟨follow, false⟩ maxLinks [] (Path.components path)

/-- The trail to an existing file. -/
def find (t : Tree) (follow : Bool) (path : Bytes) : Except OsError Trail :=
  match t.locate follow path with
  | .ok (.found trail) => .ok trail
  | .ok (.missing ..) => .error .noEntry
  | .error e => .error e

/-- The existing file at a path, behind all links. -/
def stat (t : Tree) (path : Bytes) : Except OsError Node :=
  match t.find true path with
  | .ok trail =>
    match t.node? trail.here with
    | some n => .ok n
    | none => .error .inputOutput
  | .error e => .error e

/-- The trail to an existing file, behind all links, if each place on the way can be looked up by
its own path. The path that is walked may itself have any length. -/
def spellOut (t : Tree) (path : Bytes) : Except OsError Trail :=
  if path.isEmpty then .error .noEntry
  else match t.walk ⟨true, true⟩ maxLinks [] (Path.components path) with
    | .ok (.found trail) => .ok trail
    | .ok (.missing ..) => .error .noEntry
    | .error e => .error e

/-- The path of an existing file without links, `.` and `..`. -/
def canonical (t : Tree) (path : Bytes) : Except OsError Bytes :=
  (t.spellOut path).map Trail.path

end Tree

end LineShell
