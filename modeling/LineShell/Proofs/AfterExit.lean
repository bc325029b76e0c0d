import LineShell.Proofs.LastCommand
import LineShell.Proofs.LimitedOutput

/-!
# A shell that has been told to leave

A shell that is told to leave should carry out nothing more, whatever line or input it is given.
It asks whether it is to leave when it has carried out a command, and not before. So it carries out
one more.

* `Rests`: nothing is carried out between two states. `Live`: the commands with which this is not
  so (`tryCommand_rests_iff`).
* `runLine_left`: of a line the first command is tried, and no other.
* `hear`: a turn up to the line that it is to carry out. `Comes`: the session comes to a line. It
  does what this line does (`run_of_comes`), or nothing if it comes to none (`rests_of_not_comes`).
* `comes_iff`: which line of an input this is.
* `rests_after_exit_iff`: the lines and the inputs on which such a shell does nothing.
  `file_made_after_exit` is a line on which it makes a file.
-/
namespace LineShell

open Bytes (newline)
open LineShell.Action (stateAfter Across)

/-! ## Doing nothing -/

/-- No command is carried out: the shell writes, or it notes a text that is refused as a command. -/
inductive Event.Quiet : Event → Prop
  | said (bytes : Bytes) : Quiet (.said bytes)
  | refused {raw : Bytes} {failure : Option Failure} {e : Failure} :
    Command.parse raw = .error e → Quiet (.carriedOut raw failure)

/-- There is something to carry out: the text is read as a command, and there is something in it. -/
def Live (raw : Bytes) : Prop := ∃ command, Command.parse raw = .ok command ∧ command ≠ .empty

namespace Shell

/-- No command is carried out, and no program launched; the environment, the files and the input
stay as they are. -/
structure Rests (s s' : Shell) : Prop where
  env : s'.env = s.env
  system : s'.system = s.system
  events : ∃ events, s'.transcript.events = s.transcript.events ++ events ∧
    ∀ event ∈ events, event.Quiet

theorem Rests.refl (s : Shell) : Rests s s := ⟨rfl, rfl, [], by simp⟩

theorem Rests.trans {s t u : Shell} (h : Rests s t) (h' : Rests t u) : Rests s u := by
  obtain ⟨events, he, hquiet⟩ := h.events
  obtain ⟨events', he', hquiet'⟩ := h'.events
  refine ⟨h'.env.trans h.env, h'.system.trans h.system, events ++ events', ?_, ?_⟩
  · rw [he', he, List.append_assoc]
  · exact List.forall_mem_append.2 ⟨hquiet, hquiet'⟩

/-- If nothing happens in all, nothing happens in the second part. -/
theorem Rests.behind {s t u : Shell} (h : Rests s u) (h' : Rests s t)
    (hcontinues : Continues t.transcript u.transcript) : Rests t u := by
  obtain ⟨events, he, hquiet⟩ := h.events
  obtain ⟨before, hbefore, -⟩ := h'.events
  obtain ⟨later, hlater⟩ := hcontinues.events
  rw [← hlater, hbefore, List.append_assoc] at he
  refine ⟨h.env.trans h'.env.symm, h.system.trans h'.system.symm, later, hlater.symm, ?_⟩
  rw [← List.append_cancel_left he] at hquiet
  exact (List.forall_mem_append.1 hquiet).2

theorem rests_note (s : Shell) {event : Event} (h : event.Quiet) : Rests s (s.note event) :=
  ⟨rfl, rfl, [event], rfl, by simpa using h⟩

theorem across_say (bytes : Bytes) : Across Rests (say bytes) := by
  intro s
  obtain ⟨room, written, hs⟩ := say_events bytes s
  rw [hs]
  exact ⟨rfl, rfl, [.said written], rfl, by simpa using .said written⟩

variable (programs : Programs) (config : Config) {s : Shell} {raw : Bytes}

/-- A command is tried without any effect just if it is refused, or there is nothing in it. -/
theorem tryCommand_rests_iff :
    Rests s (stateAfter (tryCommand programs config raw s)) ↔ ¬ Live raw := by
  constructor
  · rintro ⟨-, -, events, he, hquiet⟩ ⟨command, hp, hne⟩
    rcases tryCommand_noted programs config raw s with ⟨hempty, -⟩ | ⟨-, noted, failure, he', hm⟩
    · rw [hp] at hempty
      exact hne (Except.ok.inj hempty)
    · rw [he'] at he
      rw [List.append_cancel_left he] at hm
      cases hquiet _ hm with
      | refused hrefused =>
        rw [hp] at hrefused
        cases hrefused
  · intro hlive
    cases hp : Command.parse raw with
    | ok command =>
      obtain rfl : command = .empty :=
        Decidable.byContradiction fun hne => hlive ⟨command, hp, hne⟩
      rw [(tryCommand_same_iff programs config raw s).2 hp]
      exact .refl s
    | error e =>
      have hrun : runCommand programs config raw s =
          .error e (s.note (.carriedOut raw (some e))) := by
        rw [runCommand, hp]
        rfl
      rw [tryCommand, hrun]
      exact (rests_note s (.refused hp)).trans (across_say errorMessage _)

/-! ## Lines -/

/-- Nothing takes the flag to leave back. -/
theorem left_of_leads {s' : Shell} (hleads : Leads programs config s s')
    (h : s.env.leaving = true) : s'.env.leaving = true := by
  obtain ⟨steps, rfl, -⟩ := hleads
  exact (follow_kept programs steps s).2 h

/-- Of a line the first command is tried. -/
theorem runLine_left (line : Bytes) (h : s.env.leaving = true) :
    runLine programs config line s =
      match commandsOf line with
      | [] => .ok () s
      | raw :: _ => tryCommand programs config raw s := by
  rw [runLine]
  cases hcommands : commandsOf line with
  | nil => rfl
  | cons raw rest =>
    have hleft :=
      left_of_leads programs config ((leads_alongRuns programs config).tryCommand raw s) h
    rw [runCommands_cons_run]
    show _ = tryCommand programs config raw s
    cases hr : tryCommand programs config raw s with
    | error e s' => rfl
    | ok u s' =>
      rw [hr] at hleft
      exact if_pos hleft

/-- A line does nothing just if its first command does. -/
theorem runLine_rests_iff (line : Bytes) (h : s.env.leaving = true) :
    Rests s (stateAfter (runLine programs config line s)) ↔
      ∀ raw ∈ (commandsOf line).head?, ¬ Live raw := by
  rw [runLine_left programs config line h]
  cases commandsOf line with
  | nil => exact iff_of_true (.refl s) (by simp)
  | cons raw rest => simpa using tryCommand_rests_iff programs config

end Shell

/-! ## Turns -/

namespace Session

open Shell (Rests)

/-- What a turn comes to before it carries anything out. -/
inductive Heard
  | line (text : Bytes)
  /-- The turn is over, and the answer tells whether the session goes on. -/
  | ended (goesOn : Bool)

/-- A turn up to the line that it is to carry out. -/
def hear (config : Config) (mode : SessionMode) :
    Action (Shell × List Piece) SessionFailure Heard := do
  prompted config mode
  match ← (read config).orFail .input with
  | none => return .ended (← finished mode)
  | some chunk =>
    if mode = .batch && chunk.isBlank then return .ended true
    (onShell (Shell.say chunk.bytes)).orFail .output
    if chunk.isOverlong then
      (passOver config).orFail .input
      (onShell Shell.report).orFail .output
      return .ended true
    return .line chunk.text

variable (programs : Programs) (config : Config) (mode : SessionMode)

/-- What follows on what was heard. -/
def answered : Heard → Action (Shell × List Piece) SessionFailure Bool
  | .line text => do
    (onShell (Shell.runLine programs config text)).orFail .output
    return !(← get).1.env.leaving
  | .ended goesOn => return goesOn

theorem turn_eq_hear :
    turn programs config mode = hear config mode >>= answered programs config := by
  rw [turn_eq]
  simp only [hear, bind_assoc]
  congr 1
  funext u
  congr 1
  funext chunk
  cases chunk with
  | none => simp [answered]
  | some chunk =>
    simp only [heard]
    split
    · simp [answered]
    · simp only [bind_assoc]
      congr 1
      funext u
      split
      · simp [answered]
      · simp [answered]

theorem across_read : Across (OnShells Rests)
    (read config : Action (Shell × List Piece) IoError _) := by
  intro s
  show Rests s.1 _
  rw [read_shell]
  exact .refl s.1

theorem across_passOver : Across (OnShells Rests)
    (passOver config : Action (Shell × List Piece) IoError Unit) := by
  have hrest : ∀ fuel, Across (OnShells Rests)
      (echoRest (read config) (fun bytes => onShell (Shell.say bytes)) fuel :
        Action (Shell × List Piece) IoError Unit) := by
    intro fuel
    induction fuel with
    | zero => exact fun s => .refl s.1
    | succ fuel ih =>
      refine (across_read config).bind .trans fun chunk => ?_
      cases chunk with
      | none => exact fun s => .refl s.1
      | some chunk =>
        refine (across_onShell (Shell.across_say chunk.bytes)).bind .trans fun _ => ?_
        split
        · exact fun s => .refl s.1
        · exact ih
  exact fun s => hrest (remaining s + 1) s

/-- Until the line is carried out, nothing is. -/
theorem across_hear : Across (OnShells Rests) (hear config mode) := by
  have hsay : ∀ bytes, Across (OnShells Rests) ((onShell (Shell.say bytes) :
      Action (Shell × List Piece) IoError Unit).orFail SessionFailure.output) :=
    fun bytes => (across_onShell (Shell.across_say bytes)).orFail _
  have hpure : ∀ heard : Heard, Across (OnShells Rests)
      (pure heard : Action (Shell × List Piece) SessionFailure Heard) := fun heard s => .refl s.1
  have hprompted : Across (OnShells Rests) (prompted config mode) := by
    unfold prompted
    split
    · exact hsay _
    · exact fun s => .refl s.1
  have hfinished : Across (OnShells Rests) (finished mode) := by
    unfold finished
    split
    · exact (hsay _).bind .trans fun _ s => .refl s.1
    · exact fun s => .refl s.1
  unfold hear
  refine hprompted.bind .trans fun _ => ((across_read config).orFail _).bind .trans fun chunk => ?_
  cases chunk with
  | none => exact hfinished.bind .trans fun goesOn => hpure _
  | some chunk =>
    simp only
    split
    · exact hpure _
    refine (hsay _).bind .trans fun _ => ?_
    split
    · exact ((across_passOver config).orFail _).bind .trans fun _ =>
        (hsay _).bind .trans fun _ => hpure _
    · exact hpure _

/-! ## Sessions -/

/-- The session comes to a line that it is to carry out: with this text, and in this state of the
shell. -/
inductive Comes (config : Config) (mode : SessionMode) :
    Shell × List Piece → Bytes → Shell → Prop
  | now {s : Shell × List Piece} {text : Bytes} {t : Shell} {left : List Piece} :
      hear config mode s = .ok (.line text) (t, left) → Comes config mode s text t
  | later {s s' : Shell × List Piece} {text : Bytes} {t : Shell} :
      hear config mode s = .ok (.ended true) s' → Comes config mode s' text t →
      Comes config mode s text t

variable {config mode} {s s' : Shell × List Piece} {text : Bytes} {t : Shell}

theorem comes_of_ended (h : hear config mode s = .ok (.ended true) s') :
    Comes config mode s text t ↔ Comes config mode s' text t := by
  constructor
  · intro hcomes
    cases hcomes with
    | now hnow => rw [h] at hnow; cases hnow
    | later hlater hcomes =>
      rw [h] at hlater
      cases hlater
      exact hcomes
  · exact .later h

theorem rests_of_heard {heard : Heard} (h : hear config mode s = .ok heard s') :
    Rests s.1 s'.1 := by
  have hrests := across_hear config mode s
  rw [h] at hrests
  exact hrests

theorem turn_of_ended {goesOn : Bool} (h : hear config mode s = .ok (.ended goesOn) s') :
    turn programs config mode s = .ok goesOn s' := by
  rw [turn_eq_hear, Action.bind_run, h]
  rfl

theorem turn_of_error {e : SessionFailure} (h : hear config mode s = .error e s') :
    turn programs config mode s = .error e s' := by
  rw [turn_eq_hear, Action.bind_run, h]

/-- The turn in which a line is heard is the last one, for the shell is to leave behind the line as
it was before. -/
theorem turn_of_line {left : List Piece} (h : hear config mode s = .ok (.line text) (t, left))
    (hleft : t.env.leaving = true) :
    turn programs config mode s =
      match Shell.runLine programs config text t with
      | .ok _ t' => .ok false (t', left)
      | .error e t' => .error (.output e) (t', left) := by
  have hkept := Shell.left_of_leads programs config
    ((leads_alongRuns programs config).runLine text t) hleft
  rw [turn_eq_hear, Action.bind_run, h]
  simp only [answered, Action.bind_run, Action.orFail, onShell]
  cases hr : Shell.runLine programs config text t with
  | error e t' => rfl
  | ok u t' =>
    rw [hr] at hkept
    have hleaving : t'.env.leaving = true := hkept
    simp only [Action.get_run, Action.pure_run, hleaving, Bool.not_true]

theorem run_of_line {left : List Piece} (h : hear config mode s = .ok (.line text) (t, left))
    (hleft : t.env.leaving = true) :
    (stateAfter (run programs config mode s)).1 = stateAfter (Shell.runLine programs config text t)
    := by
  have hturn := turn_of_line programs h hleft
  cases hr : Shell.runLine programs config text t with
  | error e t' =>
    rw [hr] at hturn
    rw [run_of_failed_turn hturn]
    rfl
  | ok u t' =>
    rw [hr] at hturn
    rw [run_of_last_turn programs config hturn]
    rfl

/-- Before the session comes to a line it only writes. -/
theorem rests_of_comes (h : Comes config mode s text t) : Rests s.1 t := by
  induction h with
  | now hnow => exact rests_of_heard hnow
  | later hlater _ ih => exact (rests_of_heard hlater).trans ih

/-- What the session does is what that line does. -/
theorem run_of_comes (h : Comes config mode s text t) (hleft : s.1.env.leaving = true) :
    (stateAfter (run programs config mode s)).1 =
      stateAfter (Shell.runLine programs config text t) := by
  induction h with
  | now hnow => exact run_of_line programs hnow ((rests_of_heard hnow).env ▸ hleft)
  | later hlater _ ih =>
    rw [run_eq_of_turn (turn_of_ended programs hlater)]
    exact ih ((rests_of_heard hlater).env ▸ hleft)

/-- If it comes to none, it does nothing. -/
theorem rests_of_not_comes (h : ∀ text t, ¬ Comes config mode s text t) :
    Rests s.1 (stateAfter (run programs config mode s)).1 := by
  induction hn : remaining s using Nat.strongRecOn generalizing s with
  | ind n ih =>
    cases hh : hear config mode s with
    | error e s' =>
      have hrests := across_hear config mode s
      rw [hh] at hrests
      rw [run_of_failed_turn (turn_of_error programs hh)]
      exact hrests
    | ok heard s' =>
      have hrests := rests_of_heard hh
      cases heard with
      | line text => exact absurd (.now hh) (h text s'.1)
      | ended goesOn =>
        have hturn := turn_of_ended programs hh
        cases goesOn with
        | false =>
          rw [run_of_last_turn programs config hturn]
          exact hrests
        | true =>
          rw [run_eq_of_turn hturn]
          exact hrests.trans (ih _ (hn ▸ remaining_lt hturn)
            (fun text t hcomes => h text t (.later hh hcomes)) rfl)

/-- A session does nothing just if the line that it comes to does nothing. -/
theorem run_rests_iff (hleft : s.1.env.leaving = true) :
    Rests s.1 (stateAfter (run programs config mode s)).1 ↔
      ∀ text t, Comes config mode s text t → ∀ raw ∈ (commandsOf text).head?, ¬ Live raw := by
  constructor
  · intro hrests text t hcomes
    have hbefore := rests_of_comes hcomes
    rw [run_of_comes programs hcomes hleft] at hrests
    rw [← Shell.runLine_rests_iff programs config text (hbefore.env ▸ hleft)]
    exact hrests.behind hbefore (Shell.keeps_runLine programs config text t)
  · intro hlines
    by_cases hcomes : ∃ text t, Comes config mode s text t
    · obtain ⟨text, t, hcomes⟩ := hcomes
      have hbefore := rests_of_comes hcomes
      rw [run_of_comes programs hcomes hleft]
      exact hbefore.trans ((Shell.runLine_rests_iff programs config text (hbefore.env ▸ hleft)).2
        (hlines text t hcomes))
    · exact rests_of_not_comes programs fun text t h => hcomes ⟨text, t, h⟩

/-! ## Which line it is -/

theorem comes_unique {text' : Bytes} {t' : Shell} (h : Comes config mode s text t)
    (h' : Comes config mode s text' t') : text' = text ∧ t' = t := by
  induction h with
  | now hnow =>
    cases h' with
    | now hnow' =>
      rw [hnow] at hnow'
      cases hnow'
      exact ⟨rfl, rfl⟩
    | later hlater' _ =>
      rw [hnow] at hlater'
      cases hlater'
  | later hlater _ ih => exact ih ((comes_of_ended hlater).1 h')

/-- A turn that goes on has heard no line. -/
theorem hear_of_turn (hleft : s.1.env.leaving = true)
    (h : turn programs config mode s = .ok true s') : hear config mode s = .ok (.ended true) s' := by
  cases hh : hear config mode s with
  | error e s₁ =>
    rw [turn_of_error programs hh] at h
    cases h
  | ok heard s₁ =>
    cases heard with
    | ended goesOn =>
      rw [turn_of_ended programs hh] at h
      cases h
      rfl
    | line text =>
      rw [turn_of_line programs hh ((rests_of_heard hh).env ▸ hleft)] at h
      split at h <;> cases h

theorem comes_of_reaches (hleft : s.1.env.leaving = true)
    (h : Reaches programs config mode s s') :
    Comes config mode s text t ↔ Comes config mode s' text t := by
  obtain ⟨n, hn⟩ := h
  induction n generalizing s with
  | zero =>
    cases hn
    rfl
  | succ n ih =>
    rw [goes] at hn
    split at hn
    · rename_i s₁ hturn
      have hh := hear_of_turn programs hleft hturn
      rw [comes_of_ended hh]
      exact ih ((rests_of_heard hh).env ▸ hleft) hn
    · cases hn

variable {body ending rest : Bytes}

/-- A line that fits and is not skipped is heard. -/
theorem hear_line (h : LineAhead s body ending rest) (hshort : body.length < limitOf config)
    (hne : body ++ ending ≠ []) (hheeded : Heeded mode ⟨body ++ ending, limitOf config⟩) :
    ∃ t left, hear config mode s = .ok (.line body) (t, left) := by
  have hending : ending = [newline] ∨ ending = [] := h.ending.imp_right And.left
  obtain ⟨left, hr, -, -⟩ := read_whole config (h.noteAll (promptOf config mode)) hshort
  rw [if_neg hne] at hr
  have hskip : (decide (mode = .batch) && Chunk.isBlank ⟨body ++ ending, limitOf config⟩) =
      false := by
    rcases hheeded with rfl | hfull
    · rfl
    · rw [hfull, Bool.and_false]
  rw [hear, Action.bind_run, prompted_run config h.room]
  simp only
  rw [Action.bind_run, orFail_run SessionFailure.input hr]
  simp only [hskip, Bool.false_eq_true, if_false]
  rw [Action.bind_run, orFail_run SessionFailure.output (onShell_say_run (by exact h.room) _)]
  simp only [isOverlong_line config h hshort, Bool.false_eq_true, if_false, Action.pure_run,
    chunk_text_line h.noNewline hending]
  exact ⟨_, left, rfl⟩

/-- A session comes to the line that it hears. -/
theorem comes_of_readies {pieces : List Piece} (hleft : s.1.env.leaving = true)
    (h : Readies programs config mode s pieces body ending rest) :
    ∃ t, Comes config mode s body t := by
  obtain ⟨t, left, hheard⟩ := hear_line h.ahead h.fits h.ne_nil h.heeded
  exact ⟨t, (comes_of_reaches programs hleft h.reached).2 (.now hheard)⟩

/-- At the end of its input a session comes to no line. -/
theorem not_comes_at_end (hroom : s.1.transcript.room = none) (hf : Piece.Faultless s.2)
    (hc : Piece.content s.2 = []) : ¬ Comes config mode s text t := by
  obtain ⟨left, hr, -⟩ :=
    @read_run config (s.1.noteAll (promptOf config mode), s.2) hf
  simp only [hc, takeLine_nil, if_true] at hr
  have hhear : hear config mode s = (finished mode >>= fun goesOn => pure (Heard.ended goesOn))
      (s.1.noteAll (promptOf config mode), left) := by
    rw [hear, Action.bind_run, prompted_run config hroom]
    simp only
    rw [Action.bind_run, orFail_run SessionFailure.input hr]
  rw [Action.bind_run] at hhear
  cases hfinished : finished mode (s.1.noteAll (promptOf config mode), left) with
  | error e s' =>
    rw [hfinished] at hhear
    rintro (hnow | ⟨hlater, -⟩)
    · rw [hhear] at hnow; cases hnow
    · rw [hhear] at hlater; cases hlater
  | ok goesOn s' =>
    rw [hfinished] at hhear
    rintro (hnow | ⟨hlater, -⟩)
    · rw [hhear] at hnow; cases hnow
    · rw [hhear] at hlater
      cases hlater
      exact finished_ne_true mode _ _ hfinished

/-- The session comes to the first line of which there is something to carry out. -/
theorem comes_iff (n : Nat) : ∀ {s : Shell} {pieces : List Piece},
    (Piece.content pieces).length ≤ n → s.env.leaving = true → s.transcript.room = none →
    Piece.Faultless pieces →
    ((∃ t, Comes config mode (s, pieces) text t) ↔
      (linesOf (Piece.content pieces)).findSome? (heardOf config mode) = some text) := by
  -- On a bound for what is left of the input: every line has at least one byte. No program is
  -- started on the way to a line, so any will do here.
  induction n with
  | zero =>
    intro s pieces hn hleft hroom hf
    have hc := List.length_eq_zero_iff.1 (Nat.le_zero.1 hn)
    rw [hc]
    refine iff_of_false ?_ nofun
    rintro ⟨t, hcomes⟩
    exact not_comes_at_end hroom hf hc hcomes
  | succ n ih =>
    intro s pieces hn hleft hroom hf
    by_cases hc : Piece.content pieces = []
    · exact ih (by simp [hc]) hleft hroom hf
    obtain ⟨body, ending, rest, hsplit, hb, he, hne⟩ := exists_line hc
    have hahead : LineAhead (s, pieces) body ending rest := ⟨hsplit, hb, he, hf, hroom⟩
    rw [hsplit, linesOf_line hb he hne, List.findSome?_cons]
    rcases heard_or_behind Shell.idle config mode hahead hne with
      ⟨text', pieces', hheard, hready⟩ | ⟨hheard, ⟨s₁, pieces₁⟩, hreached, hrest, henv⟩
    · obtain ⟨t', hcomes'⟩ := comes_of_readies Shell.idle hleft hready
      rw [hheard]
      simp only [Option.some.injEq]
      constructor
      · rintro ⟨t, hcomes⟩
        exact (comes_unique hcomes hcomes').1
      · rintro rfl
        exact ⟨t', hcomes'⟩
    · rw [hheard]
      rw [exists_congr fun t => comes_of_reaches Shell.idle hleft hreached]
      obtain ⟨taken, hmoves⟩ := hreached.moves
      have hshorter : (Piece.content pieces₁).length ≤ n :=
        hrest ▸ length_le_of_append hsplit hne hn
      rw [ih hshorter (henv ▸ hleft) (hmoves.continues.room hroom) (hmoves.consumed.faultless hf),
        hrest]

end Session

open Session Shell in
/-- **After an exit.** A shell that is told to leave tries the first command of a line and no other.
So a line does nothing just if there is nothing in that command, or it is refused. A session goes on
to the first line of which there is something to carry out; it does what this line does, and is
over. So it does nothing just if this line does nothing, or there is no such line. On an input
without faults and an output without a limit the line is the first one that the session neither
skips nor passes over. -/
theorem rests_after_exit_iff (programs : Programs) (config : Config) {s : Shell}
    (hleft : s.env.leaving = true) :
    (∀ line,
      runLine programs config line s =
        (match commandsOf line with
        | [] => .ok () s
        | raw :: _ => tryCommand programs config raw s) ∧
      (Rests s (stateAfter (runLine programs config line s)) ↔
        ∀ raw ∈ (commandsOf line).head?, ¬ Live raw)) ∧
    ∀ mode pieces,
      (∀ text t, Comes config mode (s, pieces) text t → Rests s t ∧
        (stateAfter (Session.run programs config mode (s, pieces))).1 =
          stateAfter (runLine programs config text t)) ∧
      (Rests s (stateAfter (Session.run programs config mode (s, pieces))).1 ↔
        ∀ text t, Comes config mode (s, pieces) text t →
          ∀ raw ∈ (commandsOf text).head?, ¬ Live raw) ∧
      (s.transcript.room = none → Piece.Faultless pieces → ∀ text,
        (∃ t, Comes config mode (s, pieces) text t) ↔
          (linesOf (Piece.content pieces)).findSome? (heardOf config mode) = some text) := by
  refine ⟨fun line => ⟨runLine_left programs config line hleft,
    runLine_rests_iff programs config line hleft⟩, fun mode pieces => ⟨fun text t hcomes => ?_,
    @run_rests_iff programs config mode (s, pieces) hleft,
    fun hroom hf text => comes_iff _ (Nat.le_refl _) hleft hroom hf⟩⟩
  exact ⟨rests_of_comes hcomes, run_of_comes programs hcomes hleft⟩

section Runs

open Bytes (ofString)
open Session Shell

/-- A shell in an empty directory, told to leave. -/
def toldToLeave : Shell := stateAfter (runLine idle {} (ofString "exit") (atRoot .empty))

/-- Two operators in the first command of a line; and a session that skips a blank line and then
hears one whose first command is blank. -/
theorem nothing_after_exit :
    toldToLeave.env.leaving = true ∧
    Rests toldToLeave
      (stateAfter (runLine idle {} (ofString "a > b > c; nosuch > out") toldToLeave)) ∧
    Rests toldToLeave (stateAfter (Session.run idle {} .batch
      (toldToLeave, (scripted "\r\n \t; nosuch > out\npwd\n").2))).1 := by
  have hleft : toldToLeave.env.leaving = true := by decide
  obtain ⟨hline, hsession⟩ := rests_after_exit_iff idle {} hleft
  obtain ⟨-, hrests, hcomes⟩ := hsession .batch (scripted "\r\n \t; nosuch > out\npwd\n").2
  have hrefused : ¬ Live (ofString "a > b > c") := by
    rintro ⟨command, hp, -⟩
    have herror : Command.parse (ofString "a > b > c") =
        .error (.redirection .manyOperators) := rfl
    rw [herror] at hp
    cases hp
  have hempty : ¬ Live (ofString " \t") := by
    rintro ⟨command, hp, hne⟩
    have hnothing : Command.parse (ofString " \t") = .ok .empty := rfl
    rw [hnothing] at hp
    exact hne (Except.ok.inj hp).symm
  refine ⟨hleft, (hline _).2.2 fun raw hraw => ?_, hrests.2 fun text t h raw hraw => ?_⟩
  · have hfirst : (commandsOf (ofString "a > b > c; nosuch > out")).head? =
        some (ofString "a > b > c") := by decide
    rw [hfirst] at hraw
    cases hraw
    exact hrefused
  · have hheard : (linesOf (Piece.content (scripted "\r\n \t; nosuch > out\npwd\n").2)).findSome?
        (heardOf {} .batch) = some (ofString " \t; nosuch > out") := by decide
    have htext := (hcomes (by decide) (scripted_faultless _) text).1 ⟨t, h⟩
    rw [hheard] at htext
    cases htext
    have hfirst : (commandsOf (ofString " \t; nosuch > out")).head? = some (ofString " \t") := by
      decide
    rw [hfirst] at hraw
    cases hraw
    exact hempty

/-- **Counterexample**: behind an `exit` a command that finds no program makes a file. -/
theorem file_made_after_exit :
    toldToLeave.env.leaving = true ∧
    toldToLeave.system.files.leadsToFile (ofString "/out") = false ∧
    ∃ s', runLine idle {} (ofString "nosuch > out") toldToLeave = .ok () s' ∧
      s'.system.files.leadsToFile (ofString "/out") = true ∧ ¬ Rests toldToLeave s' := by
  have hmissing : toldToLeave.system.files.leadsToFile (ofString "/out") = false := by decide
  obtain ⟨s', hrun⟩ := runLine_unlimited idle {} (ofString "nosuch > out") (s := toldToLeave) rfl
  have hs' : stateAfter (runLine idle {} (ofString "nosuch > out") toldToLeave) = s' :=
    congrArg stateAfter hrun.1
  have hmade : s'.system.files.leadsToFile (ofString "/out") = true := by
    rw [← hs']
    decide
  refine ⟨by decide, hmissing, s', hrun.1, hmade, fun hrests => ?_⟩
  rw [hrests.system, hmissing] at hmade
  cases hmade

end Runs

end LineShell
