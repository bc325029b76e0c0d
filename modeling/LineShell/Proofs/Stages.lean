import LineShell.Proofs.Transcripts

/-!
# The stages of a line

The commands of a line are tried one by one, each in the state that the one before has left, until
the shell is to leave or cannot report a failure.

* `Stage`, `stagesOf`: the commands that are tried, each with the shell as it was found and as it
  was left.
* `runCommands_course`: the stages of a line make up its run.
-/
namespace LineShell.Shell

open LineShell.Action (stateAfter)

variable (programs : Programs) (config : Config)

theorem runCommands_one (raw : Bytes) (s : Shell) :
    stateAfter (runCommands programs config [raw] s) = stateAfter (tryCommand programs config raw s)
    := by
  rw [runCommands_cons_run]
  cases tryCommand programs config raw s with
  | error e s' => rfl
  | ok u s' =>
    simp only
    split <;> rfl

/-- A command that is tried, with the shell as it was found and as it was left. -/
structure Stage where
  raw : Bytes
  before : Shell
  after : Shell

/-- The commands that are tried, in order. -/
def stagesOf : List Bytes → Shell → List Stage
  | [], _ => []
  | raw :: rest, s =>
    match tryCommand programs config raw s with
    | .ok () s' => ⟨raw, s, s'⟩ :: if s'.env.leaving then [] else stagesOf rest s'
    | .error _ s' => [⟨raw, s, s'⟩]

theorem stagesOf_try (commands : List Bytes) : ∀ {s : Shell} {stage : Stage},
    stage ∈ stagesOf programs config commands s →
    stage.after = stateAfter (tryCommand programs config stage.raw stage.before) := by
  induction commands with
  | nil => exact fun hm => by cases hm
  | cons raw rest ih =>
    intro s stage hm
    unfold stagesOf at hm
    cases hr : tryCommand programs config raw s with
    | error e s' =>
      rw [hr] at hm
      rw [List.mem_singleton.1 hm, hr]
      rfl
    | ok u s' =>
      rw [hr] at hm
      rcases List.mem_cons.1 hm with rfl | hm
      · rw [hr]
        rfl
      · split at hm
        · cases hm
        · exact ih hm

/-- **The course of a line.** The stages are those of the first commands of the line. The first
finds the shell as it was and each other as the one before has left it, and the line leaves it as
the last one does. -/
theorem runCommands_course (commands : List Bytes) (s : Shell) :
    (stagesOf programs config commands s).map Stage.raw <+: commands ∧
    (stagesOf programs config commands s).map Stage.before <+:
      s :: (stagesOf programs config commands s).map Stage.after ∧
    stateAfter (runCommands programs config commands s) =
      (((stagesOf programs config commands s).map Stage.after).getLast?).getD s := by
  induction commands generalizing s with
  | nil => exact ⟨List.prefix_rfl, List.nil_prefix, rfl⟩
  | cons raw rest ih =>
    rw [runCommands_cons_run, stagesOf]
    cases tryCommand programs config raw s with
    | error e s' => exact ⟨⟨rest, rfl⟩, ⟨[s'], rfl⟩, rfl⟩
    | ok u s' =>
      simp only
      split
      · exact ⟨⟨rest, rfl⟩, ⟨[s'], rfl⟩, rfl⟩
      · obtain ⟨hraw, hbefore, hlast⟩ := ih s'
        refine ⟨(List.prefix_cons_inj raw).2 hraw, (List.prefix_cons_inj s).2 hbefore, ?_⟩
        rw [List.map_cons, List.getLast?_cons, Option.getD_some]
        exact hlast

end LineShell.Shell
