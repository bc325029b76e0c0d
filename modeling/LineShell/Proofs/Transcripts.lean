import LineShell.Proofs.Runs

/-!
# The transcript only grows

Whatever the shell does, nothing is taken back from its transcript, and an output without a limit
never gets one (`Continues`).

* `Keeps`: an action only continues the transcript. So do commands (`keeps_runCommand`) and lines
  (`keeps_runLine`).
* `runCommand_eq_noting`: a command is noted when it has been carried out.
  `tryCommand_same_iff`: so it leaves the shell as it is just if there is nothing in it.
* `runCommands_noted`: commands leave a note in the transcript unless there is nothing in any of
  them.
-/
namespace LineShell

/-- One transcript continues another. -/
structure Continues (t t' : Transcript) : Prop where
  events : t.events <+: t'.events
  room : t.room = none → t'.room = none

theorem Continues.refl (t : Transcript) : Continues t t := ⟨List.prefix_rfl, fun h => h⟩

theorem Continues.trans {t t' t'' : Transcript} (h : Continues t t') (h' : Continues t' t'') :
    Continues t t'' :=
  ⟨h.events.trans h'.events, fun hr => h'.room (h.room hr)⟩

theorem continues_note (t : Transcript) (e : Event) : Continues t (t.note e) :=
  ⟨List.prefix_append _ _, fun h => h⟩

theorem continues_say (t : Transcript) (bytes : Bytes) : Continues t (t.say bytes).2 := by
  unfold Transcript.say
  split
  · exact continues_note t _
  · rename_i room hr
    split
    · exact ⟨List.prefix_append _ _, fun h => by rw [hr] at h; cases h⟩
    · exact ⟨List.prefix_append _ _, fun h => by rw [hr] at h; cases h⟩

namespace Shell

/-- Whether it fails or not, the action only continues the transcript. -/
def Keeps {ε α : Type} (x : Action Shell ε α) : Prop :=
  ∀ s, Continues s.transcript (Action.stateAfter (x s)).transcript

theorem keeps_say (bytes : Bytes) : Keeps (say bytes) := by
  intro s
  have h := continues_say s.transcript bytes
  unfold say
  cases hr : s.transcript.say bytes with
  | mk r t =>
    rw [hr] at h
    cases r with
    | ok u => exact h
    | error e => exact h

theorem continues_alongCommands : AlongCommands fun s t => Continues s.transcript t.transcript where
  refl s := .refl s.transcript
  trans := .trans
  system s _ := .refl s.transcript
  launched _ _ _ := continues_note _ _
  printed _ _ := continues_note _ _
  say := keeps_say
  goTo s _ := .refl s.transcript
  leave s := .refl s.transcript

variable (programs : Programs)

theorem keeps_perform (config : Config) (command : Command) :
    Keeps (perform programs config command) :=
  continues_alongCommands.perform programs config command

/-- What is noted stands behind what was there before. -/
theorem noting_noted {raw : Bytes} {x : Action Shell Failure Unit} (hx : Keeps x) (s : Shell) :
    ∃ events failure, (Action.stateAfter (noting raw x s)).transcript.events =
      s.transcript.events ++ events ∧ Event.carriedOut raw failure ∈ events := by
  obtain ⟨events, he⟩ := (hx s).events
  unfold noting
  cases hr : x s with
  | ok u s' =>
    rw [hr] at he
    refine ⟨events ++ [.carriedOut raw none], none, ?_, by simp⟩
    simp only [Action.stateAfter] at he
    simp [Action.stateAfter, note, Transcript.note, ← he]
  | error e s' =>
    rw [hr] at he
    refine ⟨events ++ [.carriedOut raw (some e)], some e, ?_, by simp⟩
    simp only [Action.stateAfter] at he
    simp [Action.stateAfter, note, Transcript.note, ← he]

theorem keeps_noting {raw : Bytes} {x : Action Shell Failure Unit} (hx : Keeps x) :
    Keeps (noting raw x) := by
  intro s
  have h := hx s
  unfold noting
  cases hr : x s with
  | ok u s' => rw [hr] at h; exact h.trans (continues_note _ _)
  | error e s' => rw [hr] at h; exact h.trans (continues_note _ _)

/-- A command is noted, or there is nothing in it. -/
theorem runCommand_eq_noting (config : Config) (raw : Bytes) :
    Command.parse raw = .ok .empty ∧ runCommand programs config raw = pure () ∨
    Command.parse raw ≠ .ok .empty ∧
      ∃ x, Keeps x ∧ runCommand programs config raw = noting raw x := by
  unfold runCommand
  cases hp : Command.parse raw with
  | error e => exact Or.inr ⟨by simp, throw e, fun s => .refl s.transcript, rfl⟩
  | ok command =>
    cases command with
    | empty => exact Or.inl ⟨rfl, rfl⟩
    | simple argv => exact Or.inr ⟨by simp, _, keeps_perform programs config _, rfl⟩
    | redirect argv target op => exact Or.inr ⟨by simp, _, keeps_perform programs config _, rfl⟩

theorem keeps_runCommand (config : Config) (raw : Bytes) :
    Keeps (runCommand programs config raw) := by
  rcases runCommand_eq_noting programs config raw with ⟨-, h⟩ | ⟨-, x, hx, h⟩
  · rw [h]; exact fun s => .refl s.transcript
  · rw [h]; exact keeps_noting hx

theorem continues_alongRuns (config : Config) :
    AlongRuns programs config fun s t => Continues s.transcript t.transcript where
  refl s := .refl s.transcript
  trans := .trans
  say := keeps_say
  command := keeps_runCommand programs config

theorem keeps_proceed (config : Config) (rest : List Bytes) (outcome : Except Failure Unit) :
    Keeps (proceed programs config rest outcome) :=
  (continues_alongRuns programs config).proceed
    ((continues_alongRuns programs config).runCommands rest) outcome

theorem keeps_runLine (config : Config) (line : Bytes) : Keeps (runLine programs config line) :=
  (continues_alongRuns programs config).runLine line

/-- A command that is tried is noted, or there is nothing in it. -/
theorem tryCommand_noted (config : Config) (raw : Bytes) (s : Shell) :
    Command.parse raw = .ok .empty ∧ tryCommand programs config raw s = .ok () s ∨
    Command.parse raw ≠ .ok .empty ∧ ∃ events failure,
      (Action.stateAfter (tryCommand programs config raw s)).transcript.events =
        s.transcript.events ++ events ∧ Event.carriedOut raw failure ∈ events := by
  rcases runCommand_eq_noting programs config raw with ⟨hp, hr⟩ | ⟨hp, x, hx, hr⟩
  · left
    rw [tryCommand, hr]
    exact ⟨hp, rfl⟩
  · right
    obtain ⟨events, failure, he, hm⟩ := noting_noted hx s
    rw [tryCommand, hr]
    cases hn : noting raw x s with
    | ok u s' =>
      rw [hn] at he
      exact ⟨hp, events, failure, he, hm⟩
    | error e s' =>
      rw [hn] at he
      obtain ⟨more, hmore⟩ := (keeps_say errorMessage s').events
      refine ⟨hp, events ++ more, failure, ?_, List.mem_append_left more hm⟩
      rw [← List.append_assoc, ← he]
      exact hmore.symm

/-- A command leaves the shell as it is just if there is nothing in it. -/
theorem tryCommand_same_iff (config : Config) (raw : Bytes) (s : Shell) :
    Action.stateAfter (tryCommand programs config raw s) = s ↔
      Command.parse raw = .ok .empty := by
  rcases tryCommand_noted programs config raw s with ⟨hp, hr⟩ | ⟨hp, events, failure, he, hm⟩
  · rw [hr]
    exact iff_of_true rfl hp
  · refine iff_of_false (fun hs => ?_) hp
    rw [hs] at he
    rw [List.append_right_eq_self.1 he.symm] at hm
    cases hm

/-- Commands after which the shell stays are noted, or there is nothing in any of them. -/
theorem runCommands_noted (config : Config) (commands : List Bytes) : ∀ {s s' : Shell},
    runCommands programs config commands s = .ok () s' → s'.env.leaving = false →
    (s' = s ∧ ∀ raw ∈ commands, Command.parse raw = .ok .empty) ∨
      ∃ events raw failure, s'.transcript.events = s.transcript.events ++ events ∧
        Event.carriedOut raw failure ∈ events := by
  induction commands with
  | nil =>
    intro s s' h _
    cases h
    exact Or.inl ⟨rfl, by simp⟩
  | cons raw rest ih =>
    intro s s' h hl
    rw [runCommands_cons_run] at h
    rcases tryCommand_noted programs config raw s with ⟨hp, hr⟩ | ⟨-, events, failure, he, hm⟩
    · rw [hr] at h
      simp only at h
      split at h
      · rename_i hleaving
        cases h
        rw [hleaving] at hl
        cases hl
      · rcases ih h hl with ⟨rfl, hempty⟩ | hnoted
        · exact Or.inl ⟨rfl, List.forall_mem_cons.2 ⟨hp, hempty⟩⟩
        · exact Or.inr hnoted
    · right
      cases hr : tryCommand programs config raw s with
      | error e t =>
        rw [hr] at h
        cases h
      | ok u t =>
        rw [hr] at h he
        simp only at h
        obtain ⟨more, hmore⟩ : ∃ more, s'.transcript.events = t.transcript.events ++ more := by
          split at h
          · cases h
            exact ⟨[], (List.append_nil _).symm⟩
          · obtain ⟨more, hmore⟩ :=
              ((continues_alongRuns programs config).runCommands rest t).events
            rw [h] at hmore
            exact ⟨more, hmore.symm⟩
        refine ⟨events ++ more, raw, failure, ?_, List.mem_append_left more hm⟩
        rw [hmore, ← List.append_assoc, ← he]
        rfl

end Shell

end LineShell
