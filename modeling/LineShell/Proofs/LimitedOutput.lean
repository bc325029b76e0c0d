import LineShell.Proofs.Chunking
import LineShell.Proofs.LogicalLines

/-!
# Output that runs out

The same session twice: once with an output that takes every byte, once with one that takes only
the first `n`. The second run is the first one, broken off where the output ran out.

* `deedsIn`: what happened beside the shell's own output.
* `effect`, `replay`: what commands do to the environment and the system. It does not depend on the
  transcript (`runCommand_effect`), so a run can be replayed from its commands (`run_replay`).
* `rationed_pairing`: the two shells go on alike, or the limited one is cut off for good.
* `limited_output`: the limited run compared with the full one.
-/
namespace LineShell

open LineShell.Action (stateAfter Across Together Abreast)

/-! ## What happens beside the output -/

/-- The events without what the shell said. Of a command it counts only that it was carried out. -/
def deedsIn (events : List Event) : List Event :=
  events.filterMap fun
    | .said _ => none
    | .carriedOut raw _ => some (.carriedOut raw none)
    | e => some e

/-- The commands that were carried out. -/
def commandsIn (events : List Event) : List Bytes :=
  events.filterMap fun
    | .carriedOut raw _ => some raw
    | _ => none

theorem deedsIn_append (events events' : List Event) :
    deedsIn (events ++ events') = deedsIn events ++ deedsIn events' :=
  List.filterMap_append

theorem commandsIn_append (events events' : List Event) :
    commandsIn (events ++ events') = commandsIn events ++ commandsIn events' :=
  List.filterMap_append

/-- The commands are among the deeds. -/
theorem commandsIn_deedsIn (events : List Event) :
    commandsIn (deedsIn events) = commandsIn events := by
  unfold commandsIn deedsIn
  rw [List.filterMap_filterMap]
  congr 1
  funext e
  cases e <;> rfl

theorem commandsIn_mono {events events' : List Event} (h : deedsIn events <+: deedsIn events') :
    commandsIn events <+: commandsIn events' := by
  have hc := h.filterMap fun
    | Event.carriedOut raw _ => some raw
    | _ => none
  rw [← commandsIn_deedsIn events, ← commandsIn_deedsIn events']
  exact hc

namespace Shell

/-- A write adds one event to the transcript. -/
theorem say_events (bytes : Bytes) (s : Shell) : ∃ room bytes', stateAfter (say bytes s) =
    { s with transcript := ⟨room, s.transcript.events ++ [.said bytes']⟩ } := by
  unfold say Transcript.say
  cases s.transcript.room with
  | none => exact ⟨_, _, rfl⟩
  | some room =>
    by_cases h : bytes.length ≤ room
    · simp only [if_pos h]
      exact ⟨_, _, rfl⟩
    · simp only [if_neg h]
      exact ⟨_, _, rfl⟩

/-! ## Replaying commands -/

variable (programs : Programs) (config : Config)

/-- What commands work on: the environment and the system. -/
def world (s : Shell) : Environment × System := (s.env, s.system)

/-- What a command does to the environment and the system. -/
def effect (w : Environment × System) (raw : Bytes) : Environment × System :=
  (stateAfter (runCommand programs config raw ⟨w.1, w.2, {}⟩)).world

/-- What commands do one after the other. -/
def replay (commands : List Bytes) (w : Environment × System) : Environment × System :=
  commands.foldl (effect programs config) w

/-- Beside a shell whose output has no limit, another one does the same to the environment and the
system. -/
theorem world_pairing : Pairing (fun s t => s.world = t.world ∧ t.transcript.room = none)
    (fun s t => s.world = t.world) (fun s t => s.world = t.world) where
  env h := congrArg Prod.fst h.1
  system h := congrArg Prod.snd h.1
  withEnv h _ := ⟨congrArg (Prod.mk _) (congrArg Prod.snd h.1), h.2⟩
  withSystem h _ := ⟨congrArg (Prod.mk · _) (congrArg Prod.fst h.1), h.2⟩
  note h _ _ := h
  say bytes s t h := by
    obtain ⟨room, bytes', hs⟩ := say_events bytes s
    rw [say_run h.2]
    cases hr : say bytes s with
    | ok u s' =>
      rw [hr] at hs
      obtain rfl : s' = _ := hs
      exact .ok u h
    | error e s' =>
      rw [hr] at hs
      obtain rfl : s' = _ := hs
      exact .cut e h.1
  cutSay {s t} h bytes := by
    obtain ⟨room, bytes', ht⟩ := say_events bytes t
    rw [ht]
    exact h
  cutNote h _ _ _ := h

/-- What a command does to the environment and the system depends on nothing else. -/
theorem runCommand_effect (raw : Bytes) (s : Shell) :
    (stateAfter (runCommand programs config raw s)).world =
      effect programs config s.world raw := by
  have h := (world_pairing.matching programs).runCommand config raw s ⟨s.env, s.system, {}⟩
    ⟨rfl, rfl⟩
  unfold effect world
  simp only
  generalize runCommand programs config raw s = r at h
  generalize runCommand programs config raw ⟨s.env, s.system, {}⟩ = r' at h
  cases h with
  | ok a h' => exact h'.1
  | error e h' => exact h'.1
  | cut e h' => exact h'

/-- Nothing in a command notes a command as carried out. -/
theorem commandsIn_alongCommands :
    AlongCommands fun s t => commandsIn t.transcript.events = commandsIn s.transcript.events where
  refl _ := rfl
  trans h h' := h'.trans h
  system _ _ := rfl
  launched s order started := by simp [note, Transcript.note, commandsIn]
  printed s bytes := by simp [note, Transcript.note, commandsIn]
  say bytes s := by
    obtain ⟨room, bytes', hs⟩ := say_events bytes s
    rw [hs]
    simp [commandsIn]
  goTo _ _ := rfl
  leave _ := rfl

/-- A command is noted once, unless there is nothing in it. -/
theorem runCommand_commandsIn (raw : Bytes) (s : Shell) :
    stateAfter (runCommand programs config raw s) = s ∨
      commandsIn (stateAfter (runCommand programs config raw s)).transcript.events =
        commandsIn s.transcript.events ++ [raw] := by
  have hnoting : ∀ x : Action Shell Failure Unit,
      commandsIn (stateAfter (x s)).transcript.events = commandsIn s.transcript.events →
      commandsIn (stateAfter (noting raw x s)).transcript.events =
        commandsIn s.transcript.events ++ [raw] := by
    intro x hx
    unfold noting
    cases hr : x s with
    | ok u s' =>
      rw [hr] at hx
      show commandsIn (s'.transcript.events ++ [.carriedOut raw none]) = _
      rw [commandsIn_append]
      exact congrArg (· ++ [raw]) hx
    | error e s' =>
      rw [hr] at hx
      show commandsIn (s'.transcript.events ++ [.carriedOut raw (some e)]) = _
      rw [commandsIn_append]
      exact congrArg (· ++ [raw]) hx
  have hperform : ∀ command, commandsIn
      (stateAfter (perform programs config command s)).transcript.events =
        commandsIn s.transcript.events :=
    fun command => commandsIn_alongCommands.perform programs config command s
  unfold runCommand
  cases Command.parse raw with
  | error e => exact Or.inr (hnoting _ rfl)
  | ok command =>
    cases command with
    | empty => exact Or.inl rfl
    | simple argv => exact Or.inr (hnoting _ (hperform _))
    | redirect argv target op => exact Or.inr (hnoting _ (hperform _))

/-- More commands have been carried out, and they account for what is different. -/
def Replays (s t : Shell) : Prop :=
  ∃ commands, commandsIn t.transcript.events = commandsIn s.transcript.events ++ commands ∧
    t.world = replay programs config commands s.world

theorem replays_alongRuns : AlongRuns programs config (Replays programs config) where
  refl s := ⟨[], by simp, rfl⟩
  trans := by
    rintro s t u ⟨commands, hc, hw⟩ ⟨commands', hc', hw'⟩
    refine ⟨commands ++ commands', by rw [hc', hc, List.append_assoc], ?_⟩
    rw [hw', hw]
    exact List.foldl_append.symm
  say bytes s := by
    obtain ⟨room, bytes', hs⟩ := say_events bytes s
    rw [hs]
    exact ⟨[], by simp [commandsIn], rfl⟩
  command raw s := by
    rcases runCommand_commandsIn programs config raw s with hs | hc
    · rw [hs]
      exact ⟨[], by simp, rfl⟩
    · exact ⟨[raw], hc, runCommand_effect programs config raw s⟩

end Shell

namespace Session

open Shell (Replays replay)

/-- A read of pieces leaves the shell alone. -/
theorem read_shell (config : Config) (s : Shell × List Piece) :
    (stateAfter (read config s)).1 = s.1 := by
  unfold read
  rw [readChunk_beside]
  cases (readChunk config.lineLimit s.2).1 with
  | ok chunk => rfl
  | error e => rfl

/-- What a session did to the environment and the system, its commands do. -/
theorem run_replay (programs : Programs) (config : Config) (mode : SessionMode) {s : Shell}
    (hs : s.transcript.events = []) (pieces : List Piece) :
    let s' := (stateAfter (run programs config mode (s, pieces))).1
    s'.world = replay programs config (commandsIn s'.transcript.events) s.world := by
  have hread : Across (OnShells (Replays programs config))
      (read config : Action (Shell × List Piece) IoError _) := by
    intro s
    show Replays programs config s.1 _
    rw [read_shell]
    exact (Shell.replays_alongRuns programs config).refl s.1
  obtain ⟨commands, hc, hw⟩ :=
    (Shell.replays_alongRuns programs config).session hread mode (s, pieces)
  rw [hs] at hc
  obtain rfl : _ = commands := hc
  exact hw

end Session

/-! ## Two outputs -/

namespace Shell

variable {n : Nat}

/-- Both outputs have taken all that was written, and the first one takes `n` bytes in all. -/
structure Rationed (n : Nat) (s t : Shell) : Prop where
  world : s.world = t.world
  events : s.transcript.events = t.transcript.events
  limited : ∃ left, s.transcript.room = some left ∧ s.transcript.said.length + left = n
  unlimited : t.transcript.room = none

/-- The first output has taken its `n` bytes of a longer output. What was done beside that is a
beginning of what the other shell has done. -/
structure CutOff (n : Nat) (s t : Shell) : Prop where
  room : s.transcript.room = some 0
  said : s.transcript.said = t.transcript.said.take n
  more : n < t.transcript.said.length
  deeds : deedsIn s.transcript.events <+: deedsIn t.transcript.events

/-- The first output has just run out. -/
structure RanOut (n : Nat) (s t : Shell) : Prop extends CutOff n s t where
  same : deedsIn s.transcript.events = deedsIn t.transcript.events

theorem said_of_events {t t' : Transcript} {events : List Event}
    (h : t'.events = t.events ++ events) : t'.said = t.said ++ Transcript.saidIn events := by
  simp [Transcript.said, Transcript.saidIn, h]

theorem said_of_write {t t' : Transcript} {bytes : Bytes}
    (h : t'.events = t.events ++ [.said bytes]) : t'.said = t.said ++ bytes := by
  simp [Transcript.said, Transcript.saidIn, h]

/-- A write that fits. -/
theorem say_fits {s : Shell} {left : Nat} {bytes : Bytes} (h : s.transcript.room = some left)
    (hfits : bytes.length ≤ left) :
    say bytes s = .ok () { s with
      transcript := ⟨some (left - bytes.length), s.transcript.events ++ [.said bytes]⟩ } := by
  simp [say, Transcript.say, h, hfits]

/-- A write that does not fit takes what is left. -/
theorem say_full {s : Shell} {left : Nat} {bytes : Bytes} (h : s.transcript.room = some left)
    (hlong : ¬ bytes.length ≤ left) :
    say bytes s = .error .sinkFull { s with
      transcript := ⟨some 0, s.transcript.events ++ [.said (bytes.take left)]⟩ } := by
  simp [say, Transcript.say, h, hlong]

theorem Rationed.note {s t : Shell} (h : Rationed n s t) {e : Event}
    (he : Transcript.saidIn [e] = []) : Rationed n (s.note e) (t.note e) where
  world := h.world
  events := congrArg (· ++ [e]) h.events
  limited := by
    obtain ⟨left, hroom, hleft⟩ := h.limited
    refine ⟨left, hroom, ?_⟩
    have hsaid : (s.note e).transcript.said = s.transcript.said ++ Transcript.saidIn [e] :=
      said_of_events rfl
    rw [hsaid, he, List.append_nil]
    exact hleft
  unlimited := h.unlimited

/-- Whatever the second shell does, the first one stays cut off from it. -/
theorem CutOff.lasts {s t t' : Shell} (h : CutOff n s t)
    (hc : Continues t.transcript t'.transcript) : CutOff n s t' := by
  obtain ⟨events, he⟩ := hc.events
  have hsaid := said_of_events he.symm
  refine ⟨h.room, ?_, ?_, ?_⟩
  · rw [hsaid, List.take_append_of_le_length (Nat.le_of_lt h.more)]
    exact h.said
  · have := h.more
    rw [hsaid, List.length_append]
    omega
  · rw [← he, deedsIn_append]
    exact h.deeds.trans (List.prefix_append _ _)

/-- Both outputs take a write, or the first one runs out. -/
theorem Rationed.say {s t : Shell} (h : Rationed n s t) (bytes : Bytes) :
    Together (Rationed n) (RanOut n) (say bytes s) (say bytes t) := by
  obtain ⟨left, hroom, hleft⟩ := h.limited
  have hsaid : s.transcript.said = t.transcript.said := congrArg Transcript.saidIn h.events
  rw [say_run h.unlimited]
  by_cases hfits : bytes.length ≤ left
  · rw [say_fits hroom hfits]
    refine .ok () ⟨h.world, congrArg (· ++ [.said bytes]) h.events, ⟨_, rfl, ?_⟩, h.unlimited⟩
    rw [said_of_write (t := s.transcript) rfl, List.length_append]
    omega
  · have hwritten : (t.noteAll [.said bytes]).transcript.said = t.transcript.said ++ bytes :=
      said_of_write (t := t.transcript) rfl
    have hdeeds : deedsIn (s.transcript.events ++ [.said (bytes.take left)]) =
        deedsIn (t.transcript.events ++ [.said bytes]) := by
      rw [deedsIn_append, deedsIn_append, h.events]
      rfl
    rw [say_full hroom hfits]
    have hout : RanOut n { s with
          transcript := ⟨some 0, s.transcript.events ++ [.said (bytes.take left)]⟩ }
        (t.noteAll [.said bytes]) := by
      refine ⟨⟨rfl, ?_, ?_, hdeeds ▸ List.prefix_rfl⟩, hdeeds⟩
      · -- `left` bytes of the write go behind what has been said already
        rw [hwritten, said_of_write (t := s.transcript) rfl, ← hleft, ← hsaid,
          List.take_length_add_append]
      · rw [hwritten, List.length_append, ← hleft, hsaid]
        omega
    exact .cut _ hout

/-- Until its output runs out, a limited shell does as one without a limit, and from then on every
write fails. -/
theorem rationed_pairing (n : Nat) : LastingPairing (Rationed n) (RanOut n) (CutOff n) where
  env h := congrArg Prod.fst h.world
  system h := congrArg Prod.snd h.world
  withEnv h _ :=
    ⟨congrArg (Prod.mk _) (congrArg Prod.snd h.world), h.events, h.limited, h.unlimited⟩
  withSystem h _ :=
    ⟨congrArg (Prod.mk · _) (congrArg Prod.fst h.world), h.events, h.limited, h.unlimited⟩
  note h _ he := h.note he
  say bytes s t h := h.say bytes
  cutSay {s t} h bytes := by
    refine ⟨h.toCutOff.lasts (keeps_say bytes t), ?_⟩
    obtain ⟨room, bytes', ht⟩ := say_events bytes t
    rw [ht, h.same]
    simp [deedsIn]
  cutNote {s t} h raw f f' := by
    have hsaid : ∀ (u : Shell) f,
        (u.note (.carriedOut raw f)).transcript.said = u.transcript.said :=
      fun u f => (said_of_events (t := u.transcript) rfl).trans (List.append_nil _)
    have hdeeds : ∀ (u : Shell) f, deedsIn (u.note (.carriedOut raw f)).transcript.events =
        deedsIn u.transcript.events ++ [.carriedOut raw none] := fun u f => deedsIn_append _ _
    refine ⟨h.room, ?_, ?_, ?_⟩
    · rw [hsaid, hsaid]
      exact h.said
    · rw [hsaid]
      exact h.more
    · have hsame : deedsIn (s.note (.carriedOut raw f)).transcript.events =
          deedsIn (t.note (.carriedOut raw f')).transcript.events := by
        rw [hdeeds, hdeeds, h.same]
      exact hsame ▸ List.prefix_rfl
  cutOff h := h.toCutOff
  lasts h hc := h.lasts hc
  fails {s t} h := by
    have hlong : ¬ errorMessage.length ≤ 0 := by decide
    refine ⟨_, _, say_full h.room hlong, rfl, ?_, h.more, ?_⟩
    · rw [said_of_write (t := s.transcript) rfl, List.take_zero, List.append_nil]
      exact h.said
    · rw [deedsIn_append]
      exact (List.append_nil (deedsIn s.transcript.events)).symm ▸ h.deeds

end Shell

namespace Session

open Shell (Rationed CutOff replay)

variable (programs : Programs) (config : Config) (mode : SessionMode)

/-! ## The full run -/

/-- Without faults and without a limit on the output the action succeeds, and the same can be said
of what comes next. -/
def Succeeds {ε α : Type} (x : Action (Shell × List Piece) ε α) : Prop :=
  ∀ s, s.1.transcript.room = none → Piece.Faultless s.2 →
    ∃ a s', x s = .ok a s' ∧ s'.1.transcript.room = none ∧ Piece.Faultless s'.2

theorem succeeds_pervasive : Pervasive programs config fun {ε α}
    (x : Action (Shell × List Piece) ε α) => Succeeds x where
  pure a s hroom hf := ⟨a, s, rfl, hroom, hf⟩
  bind {ε α β x f} hx hf s hroom hs := by
    obtain ⟨a, s', hxs, hroom', hs'⟩ := hx s hroom hs
    rw [Action.bind_run, hxs]
    exact hf a s' hroom' hs'
  orFail {ε δ α x} hx f s hroom hs := by
    obtain ⟨a, s', hxs, hrest⟩ := hx s hroom hs
    exact ⟨a, s', orFail_run f hxs, hrest⟩
  say bytes s hroom hs := ⟨(), _, onShell_say_run hroom bytes, hroom, hs⟩
  line line s hroom hs := by
    obtain ⟨s', hline, hroom'⟩ := Shell.runLine_unlimited programs config line hroom
    refine ⟨(), (s', s.2), ?_, hroom', hs⟩
    unfold onShell
    rw [hline]
  read s hroom hs := by
    obtain ⟨pieces, hr, hc⟩ := read_run config hs
    exact ⟨_, _, hr, hroom, hc.faultless hs⟩
  staying s hroom hs := ⟨_, s, rfl, hroom, hs⟩
  enough hx s := hx _ s

/-! ## The limited run -/

/-- **Output that runs out.** A session of a new shell on an input without faults, with an output
that takes `n` bytes, compared with the same session with an output that takes every byte. The full
session ends well. The limited one says the first `n` bytes of what the full one says, and ends well
if and only if that is all. What happens beside the output, programs started and what they print
among it, is a beginning of what happens in the full session. So are the commands carried out; and
in each session the environment and the system are what its commands make of them. If the limited
session ends well, they are the same in both. -/
theorem limited_output (env : Environment) (system : System) (pieces : List Piece) (n : Nat)
    (hfaultless : Piece.Faultless pieces) :
    ∃ (full : Shell) (rest : List Piece),
      run programs config mode (⟨env, system, {}⟩, pieces) = .ok () (full, rest) ∧
      let outcome := run programs config mode (⟨env, system, { room := some n }⟩, pieces)
      let limited := (stateAfter outcome).1
      limited.transcript.said = full.transcript.said.take n ∧
      ((∃ s, outcome = .ok () s) ↔ full.transcript.said.length ≤ n) ∧
      deedsIn limited.transcript.events <+: deedsIn full.transcript.events ∧
      commandsIn limited.transcript.events <+: commandsIn full.transcript.events ∧
      limited.world =
        replay programs config (commandsIn limited.transcript.events) (env, system) ∧
      full.world = replay programs config (commandsIn full.transcript.events) (env, system) ∧
      ((∃ s, outcome = .ok () s) → limited.env = full.env ∧ limited.system = full.system) := by
  obtain ⟨u, ⟨full, rest⟩, hfull, -⟩ := (succeeds_pervasive programs config).run mode
    (⟨env, system, {}⟩, pieces) rfl hfaultless
  have hboth := run_abreast programs config (Shell.rationed_pairing n) mode
    (⟨env, system, { room := some n }⟩, pieces) (⟨env, system, {}⟩, pieces)
    ⟨⟨rfl, rfl, ⟨n, rfl, Nat.zero_add n⟩, rfl⟩, rfl⟩
  have hreplay :=
    run_replay programs config mode (s := ⟨env, system, { room := some n }⟩) rfl pieces
  have hreplayFull := run_replay programs config mode (s := ⟨env, system, {}⟩) rfl pieces
  rw [hfull] at hboth hreplayFull
  refine ⟨full, rest, hfull, ?_⟩
  generalize run programs config mode (⟨env, system, { room := some n }⟩, pieces) = outcome
    at hboth hreplay
  -- The full session ends well, so both do, or the limited one was cut off.
  cases hboth with
  | @ok s t a h =>
    obtain ⟨left, -, hleft⟩ := h.1.limited
    have hsaid : s.1.transcript.said = full.transcript.said :=
      congrArg Transcript.saidIn h.1.events
    have hfits : full.transcript.said.length ≤ n := by
      rw [← hsaid]
      omega
    have hdeeds : deedsIn s.1.transcript.events <+: deedsIn full.transcript.events :=
      (congrArg deedsIn h.1.events) ▸ List.prefix_rfl
    refine ⟨?_, iff_of_true ⟨s, rfl⟩ hfits, hdeeds, commandsIn_mono hdeeds, hreplay, hreplayFull,
      fun _ => ⟨congrArg Prod.fst h.1.world, congrArg Prod.snd h.1.world⟩⟩
    rw [List.take_of_length_le hfits]
    exact hsaid
  | @cut s r e h =>
    have hno : ¬ ∃ s', (EStateM.Result.error e s : EStateM.Result _ _ Unit) = .ok () s' := by
      rintro ⟨s', hs'⟩
      cases hs'
    exact ⟨h.said, iff_of_false hno (Nat.not_le_of_lt h.more), h.deeds, commandsIn_mono h.deeds,
      hreplay, hreplayFull, fun hok => absurd hok hno⟩

/-- The output runs out between the directory that `pwd` writes and its newline. -/
theorem dialogue_cut :
    Piece.Faultless dialogue ∧
    ∃ (full : Shell) (rest : List Piece),
      let outcome := run Shell.idle narrow .interactive
        (⟨.empty [Bytes.slash], { files := .empty }, { room := some 14 }⟩, dialogue)
      let limited := (stateAfter outcome).1
      run Shell.idle narrow .interactive (Shell.atRoot .empty, dialogue) = .ok () (full, rest) ∧
      limited.transcript.said = full.transcript.said.take 14 ∧
      limited.transcript.said = Bytes.ofString "myshell> pwd\n/" ∧
      ¬ (∃ s, outcome = .ok () s) ∧
      commandsIn limited.transcript.events = [Bytes.ofString "pwd"] ∧
      commandsIn full.transcript.events = [Bytes.ofString "pwd", Bytes.ofString "exit"] ∧
      commandsIn limited.transcript.events <+: commandsIn full.transcript.events := by
  have hf : Piece.Faultless dialogue := fun cause hm => by simp [dialogue] at hm
  obtain ⟨full, rest, hfull, hsaid, hok, -, hcommands, -⟩ :=
    limited_output Shell.idle narrow .interactive (.empty [Bytes.slash]) { files := .empty }
      dialogue 14 hf
  have hends : (stateAfter
      (run Shell.idle narrow .interactive (Shell.atRoot .empty, dialogue))).1 = full := by
    show (stateAfter (run Shell.idle narrow .interactive (⟨_, _, {}⟩, dialogue))).1 = full
    rw [hfull]
    rfl
  refine ⟨hf, full, rest, hfull, hsaid, by decide, fun h => ?_, by decide, ?_, hcommands⟩
  · have hle := hok.1 h
    rw [← hends] at hle
    revert hle
    decide +kernel
  · rw [← hends]
    decide +kernel

end Session

end LineShell
