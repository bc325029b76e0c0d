import LineShell.Proofs.Environments
import LineShell.Proofs.ReadFailures
import LineShell.Proofs.Stages

/-!
# The last command

An `exit` that succeeds is the last thing that a session does. What stands behind it on its line and
in the input is not carried out, nothing is written any more, and the input has been taken up to the
end of that line.

* `Handler.takes`: which handler a command falls to (`handle_eq`).
* `Exits`: the commands that make the shell leave. Such a command does nothing else
  (`exits_run`), and no other sets the flag (`stays_of_not_exits`).
* `runCommands_leads`: the commands of a line up to one that makes the shell leave.
* `heardOf`: what a session has to carry out of a line. A session comes to that, or leaves the line
  behind (`heard_or_behind`).
* `LastLine`: the line in which such a command stands. `line_leads`, `run_leads`: the lines of an
  input up to this one.
* `exit_is_final`: the steps of a whole session.
-/
namespace LineShell

open Bytes (newline)
open LineShell.Action (stateAfter Across)

/-! ## The handler of a command -/

/-- The handler knows a command of this name. -/
def Handler.takes (s : Shell) (name : Bytes) : Handler → Bool
  | .builtin b => b.name == name
  | .program => (s.env.findProgram s.system.files name).isSome

namespace Shell

/-- A command falls to the first handler that knows its name. -/
theorem handle_eq (programs : Programs) (name : Bytes) (arguments : List Bytes)
    (handlers : List Handler) (s : Shell) :
    handle programs name arguments handlers s =
      match handlers.find? (Handler.takes s name) with
      | none => .error (.commandNotFound name.decode) s
      | some (.builtin b) => b.run arguments s
      | some .program => start programs ((s.env.findProgram s.system.files name).getD [])
          (name :: arguments) .terminal [] s := by
  induction handlers with
  | nil => rfl
  | cons handler handlers ih =>
    unfold handle
    cases handler with
    | builtin b =>
      by_cases hb : b.name = name
      · simp [Handler.takes, hb]
      · have htakes : Handler.takes s name (.builtin b) = false := beq_eq_false_iff_ne.2 hb
        simp only [hb, if_false, ih, List.find?_cons, htakes]
    | program =>
      simp only [Action.bind_run, Action.get_run]
      cases hf : s.env.findProgram s.system.files name with
      | some program => simp [Handler.takes, hf]
      | none =>
        have htakes : Handler.takes s name .program = false := by simp [Handler.takes, hf]
        simp only [ih, List.find?_cons, htakes, hf]

/-- The command is `exit` with arguments that are not refused, and it falls to the shell itself. -/
def Exits (config : Config) (s : Shell) (raw : Bytes) : Prop :=
  ∃ arguments, Command.parse raw = .ok (.simple (Builtin.exit.name :: arguments)) ∧
    config.handlers.find? (Handler.takes s Builtin.exit.name) = some (.builtin .exit) ∧
    (Builtin.exit.order? arguments).isSome = true

/-- The shell after such a command: it is to leave, and the command is noted. -/
def exited (s : Shell) (raw : Bytes) : Shell :=
  { s with env := { s.env with leaving := true } }.note (.carriedOut raw none)

section Commands

variable (programs : Programs) (config : Config) {s : Shell} {raw : Bytes}

theorem exits_run (h : Exits config s raw) :
    runCommand programs config raw s = .ok () (s.exited raw) := by
  obtain ⟨arguments, hp, hf, ho⟩ := h
  obtain ⟨order, ho⟩ := Option.isSome_iff_exists.1 ho
  obtain ⟨-, -, rfl⟩ := Option.map_eq_some_iff.1 ho
  have hperform : perform programs config (.simple (Builtin.exit.name :: arguments)) s =
      .ok () { s with env := { s.env with leaving := true } } := by
    rw [perform, run, handle_eq, hf]
    simp only [Builtin.run, ho]
    rfl
  rw [runCommand, hp]
  simp only [noting, hperform]
  rfl

theorem stays_of_settling {words : List Bytes} {x : Action Shell Failure Unit}
    (h : Settling words x) (hwords : ∀ arguments, words ≠ Builtin.exit.name :: arguments)
    (s : Shell) : (stateAfter (x s)).env.leaving = s.env.leaving := by
  have hs := h s
  cases hr : x s with
  | error e s' =>
    rw [hr] at hs
    exact congrArg Environment.leaving hs
  | ok u s' =>
    rw [hr] at hs
    cases hs with
    | same henv => exact congrArg Environment.leaving henv
    | left arguments hexit henv => exact absurd hexit (hwords arguments)
    | moved arguments hcd dir henv hsystem hdir =>
      show s'.env.leaving = s.env.leaving
      rw [henv]

/-- An `exit` that is refused, or that falls to a program, does not set the flag to leave. -/
theorem stays_of_exit {arguments : List Bytes}
    (h : ¬ (config.handlers.find? (Handler.takes s Builtin.exit.name) = some (.builtin .exit) ∧
      (Builtin.exit.order? arguments).isSome = true)) :
    (stateAfter (run programs config Builtin.exit.name arguments s)).env.leaving =
      s.env.leaving := by
  rw [run, handle_eq]
  cases hf : config.handlers.find? (Handler.takes s Builtin.exit.name) with
  | none => rfl
  | some handler =>
    cases handler with
    | program =>
      exact congrArg Environment.leaving (env_alongPrograms.start programs _ _ _ _ s)
    | builtin b =>
      have htakes : Handler.takes s Builtin.exit.name (.builtin b) = true := List.find?_some hf
      have hname : b.name = Builtin.exit.name := eq_of_beq htakes
      obtain rfl : b = .exit := by
        revert hname
        cases b <;> decide
      have hrefused : Builtin.exit.order? arguments = none := by
        rw [← Option.not_isSome_iff_eq_none]
        exact fun ho => h ⟨hf, ho⟩
      simp only [Builtin.run, hrefused]
      rfl

/-- No other command sets the flag to leave. -/
theorem stays_of_not_exits (h : ¬ Exits config s raw) :
    (stateAfter (runCommand programs config raw s)).env.leaving = s.env.leaving := by
  by_cases hwords : ∃ arguments, (Task.command raw).words = Builtin.exit.name :: arguments
  · obtain ⟨arguments, hwords⟩ := hwords
    have hp : Command.parse raw = .ok (.simple (Builtin.exit.name :: arguments)) := by
      simp only [Task.words] at hwords
      split at hwords
      · rename_i hp
        rw [hp, hwords]
      · cases hwords
    have hstays : (stateAfter (run programs config Builtin.exit.name arguments s)).env.leaving =
        s.env.leaving := stays_of_exit programs config fun hexits => h ⟨arguments, hp, hexits⟩
    rw [runCommand, hp]
    simp only [noting, perform]
    cases hr : run programs config Builtin.exit.name arguments s with
    | ok u s' => rw [hr] at hstays; exact hstays
    | error e s' => rw [hr] at hstays; exact hstays
  · exact stays_of_settling (carryOut_settles programs config (.command raw))
      (fun arguments he => hwords ⟨arguments, he⟩) s

/-- What a command that makes the shell stay does, with the report of its failure. -/
theorem tryCommand_stays (hroom : s.transcript.room = none) (hstay : s.env.leaving = false)
    (h : ¬ Exits config s raw) :
    ∃ s', tryCommand programs config raw s = .ok () s' ∧ s'.transcript.room = none ∧
      s'.env.leaving = false ∧ Leads programs config s s' := by
  obtain ⟨s', hr, hroom'⟩ := tryCommand_unlimited programs config raw hroom
  have henv := tryCommand_env programs config raw s
  have hleads := (leads_alongRuns programs config).tryCommand raw s
  rw [hr] at henv hleads
  refine ⟨s', hr, hroom', ?_, hleads⟩
  rw [← hstay, ← stays_of_not_exits programs config h, ← henv]
  rfl

/-- A shell that stays has come to `u`, and there it carries out the command, which makes it leave.
Then it is done. -/
structure LeavesAt (programs : Programs) (config : Config) (s u : Shell) (raw : Bytes)
    (s' : Shell) : Prop where
  leads : Leads programs config s u
  stays : u.env.leaving = false
  exits : Exits config u raw
  ends : s' = u.exited raw

theorem LeavesAt.behind {t u s' : Shell} (ht : Leads programs config s t)
    (h : LeavesAt programs config t u raw s') : LeavesAt programs config s u raw s' :=
  { h with leads := (leads_alongRuns programs config).trans ht h.leads }

/-- Writes are steps. -/
theorem leads_said (texts : List Bytes) : ∀ {s : Shell}, s.transcript.room = none →
    Leads programs config s (s.noteAll (texts.map .said)) := by
  induction texts with
  | nil =>
    intro s _
    rw [List.map_nil, noteAll_nil]
    exact (leads_alongRuns programs config).refl s
  | cons bytes texts ih =>
    intro s hroom
    have hsaid := (leads_alongRuns programs config).say bytes s
    rw [say_run hroom] at hsaid
    have hrest := ih (s := s.noteAll [.said bytes]) hroom
    rw [noteAll_noteAll] at hrest
    exact (leads_alongRuns programs config).trans hsaid hrest

/-- Commands are carried out one after the other as long as the shell stays. -/
theorem runCommands_cons_stays {t : Shell} (hr : tryCommand programs config raw s = .ok () t)
    (hstay : t.env.leaving = false) (rest : List Bytes) :
    runCommands programs config (raw :: rest) s = runCommands programs config rest t := by
  rw [runCommands_cons_run, hr]
  simp only [hstay, Bool.false_eq_true, if_false]

/-- The commands are carried out to the end, or to one of them that makes the shell leave. -/
theorem runCommands_leads (commands : List Bytes) : ∀ {s : Shell}, s.transcript.room = none →
    s.env.leaving = false → ∃ s', runCommands programs config commands s = .ok () s' ∧
      ((Leads programs config s s' ∧ s'.transcript.room = none ∧ s'.env.leaving = false) ∨
        ∃ earlier raw later u, commands = earlier ++ raw :: later ∧
          runCommands programs config earlier s = .ok () u ∧
          LeavesAt programs config s u raw s') := by
  have halong := leads_alongRuns programs config
  induction commands with
  | nil => exact fun {s} hroom hstay => ⟨s, rfl, Or.inl ⟨halong.refl s, hroom, hstay⟩⟩
  | cons raw rest ih =>
    intro s hroom hstay
    by_cases hexits : Exits config s raw
    · have hr : tryCommand programs config raw s = .ok () (s.exited raw) := by
        rw [tryCommand, exits_run programs config hexits]
      rw [runCommands_cons_run, hr]
      exact ⟨_, rfl, Or.inr ⟨[], raw, rest, s, rfl, rfl, halong.refl s, hstay, hexits, rfl⟩⟩
    · obtain ⟨t, hr, hroom', hstay', hleads⟩ := tryCommand_stays programs config hroom hstay hexits
      obtain ⟨s', hrest, h⟩ := ih hroom' hstay'
      refine ⟨s', (runCommands_cons_stays programs config hr hstay' rest).trans hrest,
        h.imp (fun h => ⟨halong.trans hleads h.1, h.2⟩) ?_⟩
      rintro ⟨earlier, raw', later, u, rfl, hearlier, hlast⟩
      exact ⟨raw :: earlier, raw', later, u, rfl,
        (runCommands_cons_stays programs config hr hstay' earlier).trans hearlier,
        hlast.behind programs config hleads⟩

end Commands

end Shell

/-! ## Lines of an input -/

namespace Session

open Shell (LeavesAt Exits)

variable (programs : Programs) (config : Config)

variable {mode : SessionMode} {s s' : Shell × List Piece} {body ending rest : Bytes}

/-- Turns are courses of steps. -/
theorem leads_of_reaches (h : Reaches programs config mode s s') :
    Leads programs config s.1 s'.1 :=
  across_reaches (leads_alongRuns programs config) (leads_read programs pieces_onlyRead config) h

/-- What a session makes of the body of a line: a batch session skips the full chunks of white space
that the line begins with. -/
def keptOf (config : Config) : SessionMode → Bytes → Bytes
  | .interactive, body => body
  | .batch, body => body.drop (skippedLength config body)

/-- What a session has to carry out of a line, unless it passes over the line or skips it. -/
def heardOf (config : Config) (mode : SessionMode) (line : Bytes) : Option Bytes :=
  let kept := keptOf config mode (bodyOf line)
  if limitOf config ≤ kept.length ∨ mode = .batch ∧ isBlank kept = true then none else some kept

/-- A session comes to what it makes of a line, and does not skip the beginning of that. -/
theorem reaches_keptOf (mode : SessionMode) (h : LineAhead s body ending rest) :
    ∃ pieces, Reaches programs config mode s (s.1, pieces) ∧
      LineAhead (s.1, pieces) (keptOf config mode body) ending rest ∧
      (limitOf config ≤ (keptOf config mode body).length →
        Heeded mode (firstChunk config (keptOf config mode body))) := by
  cases mode with
  | interactive => exact ⟨s.2, .refl s, h, fun _ => Or.inl rfl⟩
  | batch =>
    obtain ⟨pieces, hreached, hahead⟩ := reaches_kept programs config h
    exact ⟨pieces, hreached, hahead, heeded_kept config⟩

/-- The session comes to a line that it carries out next: the line fits into a read and is not
skipped. -/
structure Readies (programs : Programs) (config : Config) (mode : SessionMode)
    (s : Shell × List Piece) (pieces : List Piece) (body ending rest : Bytes) : Prop where
  reached : Reaches programs config mode s (s.1, pieces)
  ahead : LineAhead (s.1, pieces) body ending rest
  fits : body.length < limitOf config
  ne_nil : body ++ ending ≠ []
  heeded : Heeded mode ⟨body ++ ending, limitOf config⟩

/-- There is something to carry out of a line, or it is skipped or passed over and the shell only
writes. -/
theorem heard_or_behind (mode : SessionMode) (h : LineAhead s body ending rest)
    (hne : body ++ ending ≠ []) :
    (∃ text pieces, heardOf config mode (body ++ ending) = some text ∧
      Readies programs config mode s pieces text ending rest) ∨
    heardOf config mode (body ++ ending) = none ∧
      ∃ s', Reaches programs config mode s s' ∧ Piece.content s'.2 = rest ∧ s'.1.env = s.1.env := by
  have hending : ending = [newline] ∨ ending = [] := h.ending.imp_right And.left
  have hall : mode = .interactive → keptOf config mode body ++ ending ≠ [] := by
    rintro rfl
    exact hne
  obtain ⟨pieces, hreached, hahead, hlong⟩ := reaches_keptOf programs config mode h
  rw [heardOf, bodyOf_line h.noNewline hending]
  generalize keptOf config mode body = kept at hall hahead hlong
  rcases Nat.lt_or_ge kept.length (limitOf config) with hshort | hge
  · by_cases hblank : mode = .batch ∧ isBlank kept = true
    · right
      obtain ⟨rfl, hblank⟩ := hblank
      refine ⟨if_pos (Or.inr ⟨rfl, hblank⟩), ?_⟩
      by_cases hend : kept ++ ending = []
      · -- only skipped white space was left of the input
        obtain ⟨rfl, rfl⟩ := List.append_eq_nil_iff.1 hend
        exact ⟨_, hreached, hahead.content, rfl⟩
      · obtain ⟨left, hread, hc, -⟩ := read_whole config hahead hshort
        rw [if_neg hend] at hread
        have hturn := turn_of_blank programs config hahead.room hread
          ((isBlank_line hending).trans hblank)
        exact ⟨_, hreached.trans (.one hturn), hc, rfl⟩
    · left
      have hheeded : Heeded mode ⟨kept ++ ending, limitOf config⟩ := by
        cases mode with
        | interactive => exact Or.inl rfl
        | batch => exact Or.inr ((isBlank_line hending).trans (by simpa using hblank))
      have hend : kept ++ ending ≠ [] := by
        rcases hheeded with hmode | hfull
        · exact hall hmode
        · intro hend
          rw [Chunk.isBlank, hend] at hfull
          cases hfull
      exact ⟨kept, pieces, if_neg (not_or.2 ⟨Nat.not_le_of_lt hshort, hblank⟩),
        hreached, hahead, hshort, hend, hheeded⟩
  · right
    obtain ⟨chunks, left, hturn, -, hc⟩ :=
      turn_overlong_run programs config hahead hge (hlong hge)
    exact ⟨if_pos (Or.inl hge), _, hreached.trans (.one hturn), hc, rfl⟩

/-- A session has come behind a line, and the shell stays. -/
structure Behind (mode : SessionMode) (s s' : Shell × List Piece) (rest : Bytes) : Prop where
  reached : Reaches programs config mode s s'
  content : Piece.content s'.2 = rest
  stays : s'.1.env.leaving = false

/-- The last line of a session that stands at the beginning of it in the state `t`, with `rest`
behind it. The session skips no more than the white space that it does not hear, and the next turn
is the last one: it echoes what is left of the line and carries out the commands of it up to `raw`,
which in the state `u` makes the shell leave. -/
structure LastLine (mode : SessionMode) (t : Shell × List Piece) (line rest raw : Bytes) (u : Shell)
    (s' : Shell × List Piece) : Prop where
  ahead : Piece.content t.2 = line ++ rest
  stays : t.1.env.leaving = false
  carried : ∃ pieces text ending earlier later,
    Reaches programs config mode t (t.1, pieces) ∧
    Piece.content pieces = text ++ ending ++ rest ∧
    heardOf config mode line = some text ∧ commandsOf text = earlier ++ raw :: later ∧
    Shell.runCommands programs config earlier
      (t.1.noteAll (promptOf config mode ++ [.said (text ++ ending)])) = .ok () u ∧
    turn programs config mode (t.1, pieces) = .ok false s'
  exits : Exits config u raw
  ends : s'.1 = u.exited raw
  left : Piece.content s'.2 = rest

/-- A session ends with its last line. -/
theorem LastLine.run_eq {t s' : Shell × List Piece} {line raw : Bytes} {u : Shell}
    (h : LastLine programs config mode t line rest raw u s') :
    run programs config mode t = .ok () s' := by
  obtain ⟨pieces, text, ending, earlier, later, hreached, -, -, -, -, hturn⟩ := h.carried
  rw [run_eq_of_reaches hreached, run_of_last_turn programs config hturn]

/-- A line that is ready is echoed, and its commands are carried out. The session leaves the line
behind, or it is the last one. -/
theorem ready_leads {line text : Bytes} {pieces : List Piece}
    (hs : Piece.content s.2 = line ++ rest) (hheard : heardOf config mode line = some text)
    (h : Readies programs config mode s pieces text ending rest)
    (hstay : s.1.env.leaving = false) :
    (∃ s', Behind programs config mode s s' rest) ∨
    ∃ u raw s', Leads programs config s.1 u ∧ u.env.leaving = false ∧
      LastLine programs config mode s line rest raw u s' := by
  have hending := h.ahead.ending.imp_right And.left
  obtain ⟨left, hc, -, hturn⟩ := turn_line programs config h.ahead h.fits h.ne_nil h.heeded
  rw [chunk_text_line h.ahead.noNewline hending] at hturn
  obtain ⟨texts, htexts⟩ : ∃ texts : List Bytes,
      promptOf config mode ++ [.said (text ++ ending)] = texts.map .said := by
    cases mode with
    | interactive => exact ⟨[Bytes.ofString config.prompt, text ++ ending], rfl⟩
    | batch => exact ⟨[text ++ ending], rfl⟩
  have hechoed := Shell.leads_said programs config texts h.ahead.room
  rw [← htexts] at hechoed
  obtain ⟨s', hr, ⟨-, -, hstay'⟩ | ⟨earlier, raw, later, u, hcommands, hearlier, hlast⟩⟩ :=
    Shell.runCommands_leads programs config (commandsOf text)
      (s := s.1.noteAll (promptOf config mode ++ [.said (text ++ ending)])) h.ahead.room hstay
  · left
    rw [Shell.runLine, hr] at hturn
    simp only [hstay', Bool.not_false] at hturn
    exact ⟨_, h.reached.trans (.one hturn), hc, hstay'⟩
  · right
    have hleaving : s'.env.leaving = true := by
      rw [hlast.ends]
      rfl
    rw [Shell.runLine, hr] at hturn
    simp only [hleaving, Bool.not_true] at hturn
    exact ⟨u, raw, (s', left), (leads_alongRuns programs config).trans hechoed hlast.leads,
      hlast.stays, hs, hstay, ⟨pieces, text, ending, earlier, later, h.reached, h.ahead.content,
        hheard, hcommands, hearlier, hturn⟩, hlast.exits, hlast.ends, hc⟩

/-- A line is skipped, passed over or carried out. It is left behind, or it is the last one. -/
theorem line_leads (mode : SessionMode) (h : LineAhead s body ending rest)
    (hne : body ++ ending ≠ []) (hstay : s.1.env.leaving = false) :
    (∃ s', Behind programs config mode s s' rest) ∨
    ∃ u raw s', Leads programs config s.1 u ∧ u.env.leaving = false ∧
      LastLine programs config mode s (body ++ ending) rest raw u s' := by
  rcases heard_or_behind programs config mode h hne with
    ⟨text, pieces, hheard, hready⟩ | ⟨-, s', hreached, hc, henv⟩
  · exact ready_leads programs config h.content hheard hready hstay
  · exact Or.inl ⟨s', hreached, hc, henv ▸ hstay⟩

/-! ## Whole inputs -/

/-- The session ends in a line with a command that makes the shell leave, or with the input. -/
theorem run_leads (mode : SessionMode) (n : Nat) : ∀ {s : Shell} {pieces : List Piece},
    (Piece.content pieces).length ≤ n → Piece.Faultless pieces → s.transcript.room = none →
    s.env.leaving = false → ∃ s' left, run programs config mode (s, pieces) = .ok () (s', left) ∧
      ((s'.env.leaving = false ∧ Piece.content left = []) ∨
        ∃ done line ahead t u raw, linesOf (Piece.content pieces) = done ++ line :: ahead ∧
          Reaches programs config mode (s, pieces) t ∧
          Leads programs config s u ∧ u.env.leaving = false ∧
          LastLine programs config mode t line ahead.flatten raw u (s', left)) := by
  -- On a bound for what is left of the input: every line has at least one byte.
  induction n with
  | zero =>
    intro s pieces hn hf hroom hstay
    have hc := List.length_eq_zero_iff.1 (Nat.le_zero.1 hn)
    obtain ⟨left, hrun⟩ := run_closes programs hroom (begins_nil config mode) (.done pieces) hf hc
    obtain ⟨taken, hmoves⟩ := (steady_pervasive programs config).run mode _ _ _ hrun
    have hcontent := hmoves.consumed.content
    rw [hc] at hcontent
    exact ⟨_, left, hrun, Or.inl ⟨hstay, (List.append_eq_nil_iff.1 hcontent.symm).2⟩⟩
  | succ n ih =>
    intro s pieces hn hf hroom hstay
    by_cases hc : Piece.content pieces = []
    · exact ih (by simp [hc]) hf hroom hstay
    obtain ⟨body, ending, rest, hsplit, hb, he, hne⟩ := exists_line hc
    have hlines := linesOf_line hb he hne
    have hahead : LineAhead (s, pieces) body ending rest := ⟨hsplit, hb, he, hf, hroom⟩
    rw [hsplit, hlines]
    rcases line_leads programs config mode hahead hne hstay with
      ⟨⟨s₁, pieces₁⟩, hbehind⟩ | ⟨u, raw, s', hleads, hstays, hlast⟩
    · have hleads := leads_of_reaches programs config hbehind.reached
      obtain ⟨taken, hmoves⟩ := hbehind.reached.moves
      have hshorter : (Piece.content pieces₁).length ≤ n :=
        hbehind.content ▸ length_le_of_append hsplit hne hn
      obtain ⟨s', left, hrun, hend⟩ := ih hshorter (hmoves.consumed.faultless hf)
        (hmoves.continues.room hroom) hbehind.stays
      rw [hbehind.content] at hend
      refine ⟨s', left, (run_eq_of_reaches hbehind.reached).trans hrun, hend.imp_right ?_⟩
      rintro ⟨done, line, ahead, t, u, raw, hsplit', hreached, hleads', hstays, hlast⟩
      exact ⟨(body ++ ending) :: done, line, ahead, t, u, raw, by rw [hsplit']; rfl,
        hbehind.reached.trans hreached, (leads_alongRuns programs config).trans hleads hleads',
        hstays, hlast⟩
    · rw [← linesOf_flatten rest] at hlast
      exact ⟨s'.1, s'.2, hlast.run_eq programs config, Or.inr ⟨[], _, linesOf rest, (s, pieces), u,
        raw, rfl, .refl _, hleads, hstays, hlast⟩⟩

/-- Among the steps stands a command that makes the shell leave, in the state to which the steps
before it have led. -/
structure ExitsIn (s : Shell) (steps before : List Step) (raw : Bytes) (later : List Step) :
    Prop where
  split : steps = before ++ .did config (.command raw) :: later
  exits : Exits config (follow programs before s) raw

variable {programs config}

theorem leaving_of_exitsIn {s : Shell} {steps before later : List Step} {raw : Bytes}
    (h : ExitsIn programs config s steps before raw later) :
    (follow programs steps s).env.leaving = true := by
  rw [h.split, follow_append]
  refine (follow_kept programs later _).2 ?_
  show (stateAfter (Shell.runCommand programs config raw _)).env.leaving = true
  rw [Shell.exits_run programs config h.exits]
  rfl

/-- If the shell stays up to the last step, no step before that makes it leave. -/
theorem last_of_exitsIn {s : Shell} {steps before later : List Step} {raw raw' : Bytes}
    (hstay : (follow programs steps s).env.leaving = false)
    (h : ExitsIn programs config s (steps ++ [.did config (.command raw)]) before raw' later) :
    before = steps ∧ raw' = raw ∧ later = [] := by
  rcases List.eq_nil_or_concat later with rfl | ⟨later, step, rfl⟩
  · obtain ⟨hsteps, hlast⟩ := List.append_inj' h.split rfl
    cases hlast
    exact ⟨hsteps.symm, rfl, rfl⟩
  · have hsplit := h.split
    rw [List.concat_eq_append, ← List.cons_append, ← List.append_assoc] at hsplit
    have hleaving := leaving_of_exitsIn ⟨(List.append_inj' hsplit rfl).1, h.exits⟩
    rw [hstay] at hleaving
    cases hleaving

/-- **Exit is final.** An input without faults, an output without a limit, and a shell that is not
told to leave already. Then a session of either mode ends well, in a course of steps. If one of them
is an `exit` that succeeds, it is the last one: no command is carried out and nothing is written
behind it. By turns that went on the session has come to the beginning of a line of the input, and
from there it has carried out the commands of this line up to the `exit`; the lines behind this line
are left of the input. If no `exit` succeeds, nothing is left of the input. -/
theorem exit_is_final (programs : Programs) (config : Config) (mode : SessionMode) (s : Shell)
    (pieces : List Piece) (hroom : s.transcript.room = none) (hstay : s.env.leaving = false)
    (hfaultless : Piece.Faultless pieces) :
    ∃ s' left steps, run programs config mode (s, pieces) = .ok () (s', left) ∧
      follow programs steps s = s' ∧ (∀ step ∈ steps, Step.Under config step) ∧
      (∀ before raw later, ExitsIn programs config s steps before raw later →
        later = [] ∧ s'.env.leaving = true ∧
        s'.transcript.events =
          (follow programs before s).transcript.events ++ [.carriedOut raw none] ∧
        ∃ done line ahead t, linesOf (Piece.content pieces) = done ++ line :: ahead ∧
          Reaches programs config mode (s, pieces) t ∧
          LastLine programs config mode t line ahead.flatten raw (follow programs before s)
            (s', left)) ∧
      ((∀ before raw later, ¬ ExitsIn programs config s steps before raw later) →
        s'.env.leaving = false ∧ Piece.content left = []) := by
  obtain ⟨s', left, hrun, hends⟩ :=
    run_leads programs config mode _ (Nat.le_refl _) hfaultless hroom hstay
  rcases hends with
    ⟨hstays, hend⟩ | ⟨done, line, ahead, t, u, raw, hlines, hreached, hleads, hstays, hlast⟩
  · have hleads := (leads_alongRuns programs config).session
      (leads_read programs pieces_onlyRead config) mode (s, pieces)
    rw [hrun] at hleads
    obtain ⟨steps, rfl, hunder⟩ := hleads
    refine ⟨_, left, steps, hrun, rfl, hunder, fun before raw later h => ?_,
      fun _ => ⟨hstays, hend⟩⟩
    have hleaving := leaving_of_exitsIn h
    rw [hstays] at hleaving
    cases hleaving
  · obtain ⟨steps, rfl, hunder⟩ := hleads
    obtain rfl : s' = (follow programs steps s).exited raw := hlast.ends
    have hafter : follow programs (steps ++ [.did config (.command raw)]) s =
        (follow programs steps s).exited raw := by
      rw [follow_append]
      show stateAfter (Shell.runCommand programs config raw _) = _
      rw [Shell.exits_run programs config hlast.exits]
      rfl
    refine ⟨_, left, steps ++ [.did config (.command raw)], hrun, hafter, fun step hm => ?_,
      fun before raw' later h => ?_, fun hnone => ?_⟩
    · rcases List.mem_append.1 hm with hm | hm
      · exact hunder step hm
      · rw [List.mem_singleton.1 hm]
        rintro _ _ ⟨⟩
        exact ⟨rfl, raw, rfl⟩
    · obtain ⟨rfl, rfl, rfl⟩ := last_of_exitsIn hstays h
      exact ⟨rfl, rfl, rfl, done, line, ahead, t, hlines, hreached, hlast⟩
    · exact absurd ⟨rfl, hlast.exits⟩ (hnone steps raw [])

section Runs

open Bytes (ofString)
open Shell (idle atRoot)

/-- An `exit` that succeeds, with commands in front of it and behind it, and the same once more on
the next line. -/
def leavingInput : List Piece := (scripted "exit extra; exit ;pwd\n exit \n").2

/-- The first `exit` is refused. Behind the second neither its own line nor the next is gone on
with, and the prompt does not come again. -/
theorem leavingInput_ends :
    Piece.Faultless leavingInput ∧
    ∃ s' left steps before, run idle {} .interactive (atRoot .empty, leavingInput) =
        .ok () (s', left) ∧
      follow idle steps (atRoot .empty) = s' ∧
      ExitsIn idle {} (atRoot .empty) steps before (ofString " exit ") [] ∧
      s'.transcript.shown = ofString "myshell> exit extra; exit ;pwd\nAn error has occurred\n" ∧
      Piece.content left = ofString " exit \n" := by
  have hf := scripted_faultless "exit extra; exit ;pwd\n exit \n"
  obtain ⟨s', left, steps, hrun, hfollow, -, hlast, hnone⟩ :=
    exit_is_final idle {} .interactive (atRoot .empty) leavingInput rfl rfl hf
  have hs' : (stateAfter (run idle {} .interactive (atRoot .empty, leavingInput))).1 = s' := by
    rw [hrun]
    rfl
  have hrest : (stateAfter (run idle {} .interactive (atRoot .empty, leavingInput))).2 = left := by
    rw [hrun]
    rfl
  have hleaving : s'.env.leaving = true := by
    rw [← hs']
    decide +kernel
  have hevent : s'.transcript.events.getLast? = some (.carriedOut (ofString " exit ") none) := by
    rw [← hs']
    decide +kernel
  have hshown : s'.transcript.shown =
      ofString "myshell> exit extra; exit ;pwd\nAn error has occurred\n" := by
    rw [← hs']
    decide +kernel
  have hleft : Piece.content left = ofString " exit \n" := by
    rw [← hrest]
    decide +kernel
  by_cases hexits : ∃ before raw later, ExitsIn idle {} (atRoot .empty) steps before raw later
  · obtain ⟨before, raw, later, h⟩ := hexits
    obtain ⟨rfl, -, hevents, -⟩ := hlast before raw later h
    rw [hevents, List.getLast?_concat] at hevent
    cases hevent
    exact ⟨hf, s', left, steps, before, hrun, hfollow, h, hshown, hleft⟩
  · have hstays := (hnone fun before raw later h => hexits ⟨before, raw, later, h⟩).1
    rw [hleaving] at hstays
    cases hstays

end Runs

end Session

end LineShell
