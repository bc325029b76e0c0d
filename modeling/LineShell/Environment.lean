import LineShell.Files.Tree

/-!
# The environment of a session

* `Variables`: names with values, sorted by name, each name once.
* `Environment`: the variables handed to programs, the working directory, whether the shell has been
  told to leave, and the permissions that new files do not get.
* `Environment.resolve`: a path taken against the working directory.
-/
namespace LineShell

/-- Variables in the order of their names. -/
abbrev Variables := List (Bytes × Bytes)

namespace Variables

def get? (vars : Variables) (name : Bytes) : Option Bytes := vars.lookup name

/-- Gives a variable its value, at its place in the order. -/
def set : Variables → Bytes → Bytes → Variables
  | [], name, value => [(name, value)]
  | (n, v) :: vars, name, value =>
    if name = n then (name, value) :: vars
    else if name < n then (name, value) :: (n, v) :: vars
    else (n, v) :: set vars name value

def unset (vars : Variables) (name : Bytes) : Variables := vars.filter fun e => e.1 != name

def ofList (pairs : List (Bytes × Bytes)) : Variables :=
  pairs.foldl (fun vars e => vars.set e.1 e.2) []

theorem get?_set_self (vars : Variables) (name value : Bytes) :
    (vars.set name value).get? name = some value := by
  induction vars with
  | nil => simp [set, get?]
  | cons e vars ih =>
    obtain ⟨n, v⟩ := e
    simp only [set]
    split
    · simp [get?]
    · split
      · simp [get?]
      · rename_i hne _
        have : (name == n) = false := by simpa using hne
        simpa [get?, List.lookup_cons, this] using ih

/-- The other variables keep their values. -/
theorem get?_set_ne (vars : Variables) {name other : Bytes} (value : Bytes) (h : other ≠ name) :
    (vars.set name value).get? other = vars.get? other := by
  have hne : (other == name) = false := by simpa using h
  induction vars with
  | nil => simp [set, get?, List.lookup_cons, hne]
  | cons e vars ih =>
    obtain ⟨n, v⟩ := e
    simp only [set]
    split
    · rename_i he
      simp [get?, List.lookup_cons, ← he, hne]
    · split
      · simp [get?, List.lookup_cons, hne]
      · simp only [get?] at ih
        simp [get?, List.lookup_cons, ih]

end Variables

structure Environment where
  vars : Variables
  /-- The working directory. -/
  dir : Bytes
  /-- The shell has been told to leave. -/
  leaving : Bool
  /-- The permissions withheld from the files that the shell makes. -/
  umask : Mode := 0o022
  deriving DecidableEq, Repr

namespace Environment

/-- No variables, and a working directory. -/
def empty (dir : Bytes) : Environment := { vars := [], dir, leaving := false }

/-- A path taken against the working directory. -/
def resolve (env : Environment) (path : Bytes) : Bytes := Path.join env.dir path

end Environment

end LineShell
