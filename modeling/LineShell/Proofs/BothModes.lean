import LineShell.Proofs.Grammar
import LineShell.Proofs.ReadFailures

/-!
# Both modes on one input

An interactive session and a batch session of one shell, on the same bytes. The first prompts,
answers blank lines with nothing but their echo, and reports the end of its input; the second skips
blank lines. Otherwise they do the same, unless a blank line is read in pieces or holds white space
that is a word.

* `SameInBoth`: the lines on which the modes differ in nothing else.
* `Exchange`: a line and what came after it; `Exchange.dialogue` and `Exchange.record` are what the
  two sessions make of it.
* `Held`: the two sessions have held the same exchanges.
* `held_line`, `held_run`: one turn of each session holds one exchange, and so the sessions do to
  their ends.
* `both_modes`: the two sessions compared.
-/
namespace LineShell

open Bytes (newline)

/-! ## Lines and exchanges -/

/-- A blank line is read at once and holds only spaces and tabs before its newline, and a line that
is too long does not begin with a blank chunk. -/
structure SameInBoth (config : Config) (line : Bytes) : Prop where
  blank : isBlank line = true → (bodyOf line).length < Session.limitOf config ∧
    ∀ b ∈ bodyOf line, isSpacer b = true
  overlong : Session.limitOf config ≤ (bodyOf line).length →
    isBlank (line.take (Session.limitOf config)) = false

instance (config : Config) (line : Bytes) : Decidable (SameInBoth config line) :=
  decidable_of_iff
    ((isBlank line = true → (bodyOf line).length < Session.limitOf config ∧
        (bodyOf line).all isSpacer = true) ∧
      (Session.limitOf config ≤ (bodyOf line).length →
        isBlank (line.take (Session.limitOf config)) = false))
    ⟨fun h => ⟨fun hb => (h.1 hb).imp_right List.all_eq_true.1, h.2⟩,
      fun h => ⟨fun hb => (h.blank hb).imp_right List.all_eq_true.2, h.overlong⟩⟩

/-- A line of the input, and what happened when it was answered. -/
structure Exchange where
  line : Bytes
  events : List Event

namespace Exchange

/-- The exchange in an interactive session. -/
def dialogue (config : Config) (x : Exchange) : List Event :=
  .said (Bytes.ofString config.prompt) :: .said x.line :: x.events

/-- The exchange in a batch session, which leaves out blank lines. -/
def record (x : Exchange) : List Event :=
  if isBlank x.line then [] else .said x.line :: x.events

end Exchange

/-- The events without what the shell said: programs started, their output, and the commands carried
out, each with its result. -/
def unsaid (events : List Event) : List Event :=
  events.filter fun
    | .said _ => false
    | _ => true

theorem unsaid_append (events events' : List Event) :
    unsaid (events ++ events') = unsaid events ++ unsaid events' := List.filter_append ..

theorem unsaid_spelled (events : List Event) : unsaid (spelled events) = unsaid events := by
  induction events with
  | nil => rfl
  | cons e events ih =>
    have hcons : e :: events = [e] ++ events := rfl
    rw [hcons, spelled_append, unsaid_append, unsaid_append, ih]
    cases e with
    | said bytes => simp [spelled_said, unsaid]
    | printed bytes => rfl
    | launched order started => rfl
    | carriedOut raw failure => rfl

/-- What is done in an exchange is the same in both modes. -/
theorem unsaid_record (config : Config) {x : Exchange}
    (hblank : isBlank x.line = true → x.events = []) :
    unsaid x.record = unsaid (x.dialogue config) := by
  unfold Exchange.record Exchange.dialogue
  cases hb : isBlank x.line with
  | true =>
    rw [hblank hb]
    rfl
  | false => rfl

theorem unsaid_records (config : Config) {exchanges : List Exchange}
    (hblank : ∀ x ∈ exchanges, isBlank x.line = true → x.events = []) :
    unsaid (exchanges.flatMap Exchange.record) =
      unsaid (exchanges.flatMap (Exchange.dialogue config)) := by
  induction exchanges with
  | nil => rfl
  | cons x exchanges ih =>
    obtain ⟨hx, hxs⟩ := List.forall_mem_cons.1 hblank
    rw [List.flatMap_cons, List.flatMap_cons, unsaid_append, unsaid_append, unsaid_record config hx,
      ih hxs]

/-! ## Blank lines -/

/-- Spaces and tabs alone are the empty command. -/
theorem parse_spacers {raw : Bytes} (h : ∀ b ∈ raw, isSpacer b = true) :
    Command.parse raw = .ok .empty := by
  have harrow : arrow ∉ raw := fun hm => absurd (h arrow hm) (by decide)
  rw [Command.parse, find?_none_iff.2 harrow, wordsOf_eq_nil_iff.2 h]

namespace Shell

variable (programs : Programs) (config : Config)

theorem runCommands_empty {commands : List Bytes}
    (h : ∀ raw ∈ commands, Command.parse raw = .ok .empty) (s : Shell) :
    runCommands programs config commands s = .ok () s := by
  induction commands with
  | nil => rfl
  | cons raw rest ih =>
    obtain ⟨hraw, hrest⟩ := List.forall_mem_cons.1 h
    have hrun : tryCommand programs config raw s = .ok () s := by
      rw [tryCommand, runCommand, hraw]
      rfl
    rw [runCommands_cons_run, hrun]
    simp only
    split
    · rfl
    · exact ih hrest

/-- A line of spaces and tabs does nothing. -/
theorem runLine_spacers {line : Bytes} (h : ∀ b ∈ line, isSpacer b = true) (s : Shell) :
    runLine programs config line s = .ok () s := by
  refine runCommands_empty programs config (fun raw hraw => parse_spacers fun b hb => ?_) s
  exact h b ((laidOut_partsOf (· == semicolon) line).mem_text hraw hb)

/-! ## The same events behind different ones -/

/-- The shells are the same but for their transcripts. Neither output has a limit. -/
structure Twins (s t : Shell) : Prop where
  env : s.env = t.env
  system : s.system = t.system
  room : s.transcript.room = none
  room' : t.transcript.room = none

theorem Twins.noteAll {s t : Shell} (h : Twins s t) (events events' : List Event) :
    Twins (s.noteAll events) (t.noteAll events') := ⟨h.env, h.system, h.room, h.room'⟩

/-- And their transcripts have gone on alike behind `a` and `b`. -/
structure Beside (a b : List Event) (s t : Shell) : Prop extends Twins s t where
  more : ∃ more, s.transcript.events = a ++ more ∧ t.transcript.events = b ++ more

theorem Beside.noteAll {a b : List Event} {s t : Shell} (h : Beside a b s t)
    (events : List Event) : Beside a b (s.noteAll events) (t.noteAll events) where
  toTwins := h.toTwins.noteAll events events
  more := by
    obtain ⟨more, hs, ht⟩ := h.more
    exact ⟨more ++ events, by simp [Shell.noteAll, hs], by simp [Shell.noteAll, ht]⟩

/-- All actions keep the shells beside each other. None is ever cut off, for no write fails. -/
theorem beside_pairing (a b : List Event) :
    LastingPairing (Beside a b) (fun _ _ => False) (fun _ _ => False) where
  env h := h.env
  system h := h.system
  withEnv h env := ⟨⟨rfl, h.system, h.room, h.room'⟩, h.more⟩
  withSystem h system := ⟨⟨h.env, rfl, h.room, h.room'⟩, h.more⟩
  note {s t} h e _ := by
    have hnoted : Beside a b (s.noteAll [e]) (t.noteAll [e]) := h.noteAll [e]
    exact hnoted
  say bytes s t h := by
    rw [say_run h.room, say_run h.room']
    exact .ok () (h.noteAll _)
  cutSay h := h.elim
  cutNote h := h.elim
  cutOff h := h
  lasts h := h.elim
  fails h := h.elim

/-- Twins carry out a line alike, and the same happens. -/
theorem Twins.runLine {s t : Shell} (h : Twins s t) (line : Bytes) :
    ∃ s' t' more, Shell.runLine programs config line s = .ok () s' ∧
      Shell.runLine programs config line t = .ok () t' ∧ Twins s' t' ∧
      s'.transcript.events = s.transcript.events ++ more ∧
      t'.transcript.events = t.transcript.events ++ more := by
  have hbeside : Beside s.transcript.events t.transcript.events s t :=
    ⟨h, [], by simp, by simp⟩
  have hline := ((beside_pairing _ _).lastingMatching programs).runLine config line s t hbeside
  obtain ⟨s', hs', -⟩ := runLine_unlimited programs config line h.room
  rw [hs'] at hline
  generalize Shell.runLine programs config line t = r at hline
  cases hline with
  | ok u h' =>
    obtain ⟨more, hs, ht⟩ := h'.more
    exact ⟨s', _, more, hs', rfl, h'.toTwins, hs, ht⟩

end Shell

/-! ## Turns of both sessions -/

namespace Session

open Shell (Twins)

/-- Two sessions have come from `u` and `v` to `u'` and `v'` by the exchanges. Their shells are
twins in the end, and writes may be cut in any way. -/
structure Held (config : Config) (u v u' v' : Shell) (exchanges : List Exchange) : Prop where
  twins : Twins u' v'
  blank : ∀ x ∈ exchanges, isBlank x.line = true → x.events = []
  dialogue : spelled u'.transcript.events =
    spelled (u.transcript.events ++ exchanges.flatMap (Exchange.dialogue config))
  record : spelled v'.transcript.events =
    spelled (v.transcript.events ++ exchanges.flatMap Exchange.record)

variable {config : Config} {u v u' v' u'' v'' : Shell} {x : Exchange}
  {exchanges exchanges' : List Exchange}

theorem Held.nil (h : Twins u v) : Held config u v u v [] :=
  ⟨h, by simp, by simp, by simp⟩

theorem Held.trans (h : Held config u v u' v' exchanges)
    (h' : Held config u' v' u'' v'' exchanges') :
    Held config u v u'' v'' (exchanges ++ exchanges') where
  twins := h'.twins
  blank x hx := by
    rcases List.mem_append.1 hx with hx | hx
    · exact h.blank x hx
    · exact h'.blank x hx
  dialogue := by
    rw [h'.dialogue, spelled_append, h.dialogue, ← spelled_append, List.flatMap_append,
      List.append_assoc]
  record := by
    rw [h'.record, spelled_append, h.record, ← spelled_append, List.flatMap_append,
      List.append_assoc]

/-- One exchange, of which each session has noted its own events. -/
theorem Held.one {events events' : List Event} (htwins : Twins u' v')
    (hblank : isBlank x.line = true → x.events = [])
    (hu : u'.transcript.events = u.transcript.events ++ events)
    (hv : v'.transcript.events = v.transcript.events ++ events')
    (hdialogue : spelled events = spelled (x.dialogue config))
    (hrecord : spelled events' = spelled x.record) : Held config u v u' v' [x] where
  twins := htwins
  blank := by simpa using hblank
  dialogue := by rw [hu, spelled_append, hdialogue, ← spelled_append]; simp
  record := by rw [hv, spelled_append, hrecord, ← spelled_append]; simp

/-- One turn of each session holds the exchange and leaves the rest of the input. -/
structure TurnsHold (programs : Programs) (config : Config) (u v : Shell)
    (pieces pieces' : List Piece) (rest : Bytes) (x : Exchange) (u' v' : Shell)
    (left left' : List Piece) : Prop where
  interactive : turn programs config .interactive (u, pieces) = .ok (!u'.env.leaving) (u', left)
  batch : turn programs config .batch (v, pieces') = .ok (!u'.env.leaving) (v', left')
  content : Piece.content left = rest ∧ Piece.content left' = rest
  faultless : Piece.Faultless left ∧ Piece.Faultless left'
  held : Held config u v u' v' [x]

variable (programs : Programs) {pieces pieces' : List Piece} {body ending rest : Bytes}

/-- A blank line is echoed by one session and skipped by the other. -/
theorem held_blank (hahead : LineAhead (u, pieces) body ending rest)
    (hahead' : LineAhead (v, pieces') body ending rest) (hne : body ++ ending ≠ [])
    (htwins : Twins u v) (hstay : u.env.leaving = false)
    (hblank : isBlank (body ++ ending) = true) (hshort : body.length < limitOf config)
    (hspacers : ∀ b ∈ body, isSpacer b = true) :
    ∃ u' left left', TurnsHold programs config u v pieces pieces' rest ⟨body ++ ending, []⟩ u' v
      left left' := by
  have hending : ending = [newline] ∨ ending = [] := hahead.ending.imp_right And.left
  obtain ⟨left, hc, hf, hturn⟩ := turn_line programs config hahead hshort hne (Or.inl rfl)
  rw [chunk_text_line hahead.noNewline hending, Shell.runLine_spacers programs config hspacers]
    at hturn
  obtain ⟨left', hread, hc', hf'⟩ := read_whole config hahead' hshort
  rw [if_neg hne] at hread
  have hskipped : Chunk.isBlank ⟨body ++ ending, limitOf config⟩ = true := hblank
  have hbatch : turn programs config .batch (v, pieces') = .ok true (v, left') :=
    turn_of_blank programs config hahead'.room hread hskipped
  have htwins' :
      Twins (u.noteAll (promptOf config .interactive ++ [.said (body ++ ending)])) v := by
    have hnoted := htwins.noteAll (promptOf config .interactive ++ [.said (body ++ ending)]) []
    rwa [Shell.noteAll_nil] at hnoted
  refine ⟨_, left, left', hturn, ?_, ⟨hc, hc'⟩, ⟨hf, hf'⟩,
    Held.one htwins' (fun _ => rfl) rfl (List.append_nil _).symm rfl ?_⟩
  · rw [hbatch]
    simp [Shell.noteAll, hstay]
  · simp [Exchange.record, hblank]

/-- A line that fits is carried out by both. -/
theorem held_short (hahead : LineAhead (u, pieces) body ending rest)
    (hahead' : LineAhead (v, pieces') body ending rest) (hne : body ++ ending ≠ [])
    (htwins : Twins u v) (hblank : isBlank (body ++ ending) = false)
    (hshort : body.length < limitOf config) :
    ∃ u' v' left left' events, TurnsHold programs config u v pieces pieces' rest
      ⟨body ++ ending, events⟩ u' v' left left' := by
  obtain ⟨left, hc, hf, hturn⟩ := turn_line programs config hahead hshort hne (Or.inl rfl)
  obtain ⟨left', hc', hf', hturn'⟩ := turn_line programs config hahead' hshort hne (Or.inr hblank)
  obtain ⟨u', v', events, hu, hv, htwins', hu', hv'⟩ :=
    (htwins.noteAll (promptOf config .interactive ++ [.said (body ++ ending)])
      (promptOf config .batch ++ [.said (body ++ ending)])).runLine programs config
      (Chunk.text ⟨body ++ ending, limitOf config⟩)
  rw [hu] at hturn
  rw [hv] at hturn'
  refine ⟨u', v', left, left', events, hturn, ?_, ⟨hc, hc'⟩, ⟨hf, hf'⟩,
    Held.one htwins' (fun hb => ?_) (hu'.trans (List.append_assoc ..))
      (hv'.trans (List.append_assoc ..)) rfl ?_⟩
  · rw [hturn', htwins'.env]
  · rw [hblank] at hb
    cases hb
  · simp [Exchange.record, promptOf, hblank]

/-- A line that is too long is echoed in chunks and reported by both. -/
theorem held_overlong (hahead : LineAhead (u, pieces) body ending rest)
    (hahead' : LineAhead (v, pieces') body ending rest) (htwins : Twins u v)
    (hstay : u.env.leaving = false) (hblank : isBlank (body ++ ending) = false)
    (hlong : limitOf config ≤ body.length)
    (hfirst : isBlank (body.take (limitOf config)) = false) :
    ∃ u' v' left left', TurnsHold programs config u v pieces pieces' rest
      ⟨body ++ ending, [.said errorMessage]⟩ u' v' left left' := by
  have hheeded : Heeded .interactive (firstChunk config body) := Or.inl rfl
  have hheeded' : Heeded .batch (firstChunk config body) := Or.inr hfirst
  obtain ⟨chunks, left, hturn, hch, hc⟩ := turn_overlong_run programs config hahead hlong hheeded
  obtain ⟨chunks', left', hturn', hch', hc'⟩ :=
    turn_overlong_run programs config hahead' hlong hheeded'
  obtain ⟨_, -, hm⟩ := turn_moves programs config hturn
  obtain ⟨_, -, hm'⟩ := turn_moves programs config hturn'
  have hleaving : ∀ events, (!(u.noteAll events).env.leaving) = true := fun _ => by
    show (!u.env.leaving) = true
    rw [hstay]
    rfl
  refine ⟨_, _, left, left', by rw [hleaving]; exact hturn, by rw [hleaving]; exact hturn',
    ⟨hc, hc'⟩, ⟨hm.consumed.faultless hahead.faultless, hm'.consumed.faultless hahead'.faultless⟩,
    Held.one (htwins.noteAll _ _) (fun hb => ?_) rfl rfl ?_ ?_⟩
  · rw [hblank] at hb
    cases hb
  · show spelled ([.said (Bytes.ofString config.prompt)] ++ chunks.map .said ++
        [.said errorMessage]) = spelled ([.said (Bytes.ofString config.prompt)] ++
        [.said (body ++ ending)] ++ [.said errorMessage])
    simp only [spelled_append, spelled_writes, hch]
  · have hrecord : Exchange.record ⟨body ++ ending, [.said errorMessage]⟩ =
        [.said (body ++ ending)] ++ [.said errorMessage] := by simp [Exchange.record, hblank]
    show spelled ([] ++ chunks'.map .said ++ [.said errorMessage]) = _
    rw [hrecord]
    simp only [spelled_append, spelled_writes, hch', List.nil_append]

/-- One turn of each session holds one exchange about the line in front. -/
theorem held_line (hahead : LineAhead (u, pieces) body ending rest)
    (hahead' : LineAhead (v, pieces') body ending rest) (hne : body ++ ending ≠ [])
    (htwins : Twins u v) (hstay : u.env.leaving = false)
    (hsame : SameInBoth config (body ++ ending)) :
    ∃ x u' v' left left', x.line = body ++ ending ∧
      TurnsHold programs config u v pieces pieces' rest x u' v' left left' := by
  have hbody : bodyOf (body ++ ending) = body :=
    bodyOf_line hahead.noNewline (hahead.ending.imp_right And.left)
  cases hblank : isBlank (body ++ ending) with
  | true =>
    obtain ⟨hshort, hspacers⟩ := hsame.blank hblank
    rw [hbody] at hshort hspacers
    obtain ⟨u', left, left', h⟩ :=
      held_blank programs hahead hahead' hne htwins hstay hblank hshort hspacers
    exact ⟨_, u', v, left, left', rfl, h⟩
  | false =>
    rcases Nat.lt_or_ge body.length (limitOf config) with hshort | hlong
    · obtain ⟨u', v', left, left', events, h⟩ :=
        held_short programs hahead hahead' hne htwins hblank hshort
      exact ⟨_, u', v', left, left', rfl, h⟩
    · have hfirst := hsame.overlong (by rw [hbody]; exact hlong)
      rw [List.take_append_of_le_length hlong] at hfirst
      obtain ⟨u', v', left, left', h⟩ :=
        held_overlong programs hahead hahead' htwins hstay hblank hlong hfirst
      exact ⟨_, u', v', left, left', rfl, h⟩

/-! ## Whole sessions -/

/-- What an interactive session says at the end of its input, unless the shell was told to leave. -/
def farewell (config : Config) (s : Shell) : List Event :=
  if s.env.leaving then [] else promptOf config .interactive ++ [.said errorMessage]

/-- The sessions hold exchanges about the lines of the input, in order, and about all of them unless
the shell is told to leave. -/
theorem held_run (n : Nat) : ∀ {u v : Shell} {pieces pieces' : List Piece},
    (Piece.content pieces).length ≤ n → Piece.content pieces' = Piece.content pieces →
    Piece.Faultless pieces → Piece.Faultless pieces' → Twins u v → u.env.leaving = false →
    (∀ line ∈ linesOf (Piece.content pieces), SameInBoth config line) →
    ∃ (exchanges : List Exchange) (u' v' : Shell) (left left' : List Piece),
      run programs config .interactive (u, pieces) =
        .ok () (u'.noteAll (farewell config u'), left) ∧
      run programs config .batch (v, pieces') = .ok () (v', left') ∧
      Held config u v u' v' exchanges ∧
      exchanges.map Exchange.line <+: linesOf (Piece.content pieces) ∧
      (u'.env.leaving = false → exchanges.map Exchange.line = linesOf (Piece.content pieces)) := by
  -- On a bound for what is left of the input: every line has at least one byte.
  induction n with
  | zero =>
    intro u v pieces pieces' hn hcontent hf hf' htwins hstay _
    have hc := List.length_eq_zero_iff.1 (Nat.le_zero.1 hn)
    obtain ⟨left, hrun⟩ := run_closes programs htwins.room (begins_nil config .interactive)
      (.done pieces) hf hc
    obtain ⟨left', hrun'⟩ := run_closes programs htwins.room' (begins_nil config .batch)
      (.done pieces') hf' (hcontent.trans hc)
    refine ⟨[], u, v, left, left', ?_, ?_, .nil htwins, List.nil_prefix, fun _ => ?_⟩
    · rw [hrun]
      simp [farewell, hstay, closing, endOfInput]
    · rw [hrun']
      simp [promptOf, closing, endOfInput]
    · rw [hc]
      rfl
  | succ n ih =>
    intro u v pieces pieces' hn hcontent hf hf' htwins hstay hsame
    by_cases hc : Piece.content pieces = []
    · exact ih (by simp [hc]) hcontent hf hf' htwins hstay hsame
    obtain ⟨body, ending, rest, hsplit, hb, he, hne⟩ := exists_line hc
    have hlines := linesOf_line hb he hne
    rw [hsplit, hlines] at hsame
    obtain ⟨hfirst, hothers⟩ := List.forall_mem_cons.1 hsame
    have hahead : LineAhead (u, pieces) body ending rest := ⟨hsplit, hb, he, hf, htwins.room⟩
    have hahead' : LineAhead (v, pieces') body ending rest :=
      ⟨hcontent.trans hsplit, hb, he, hf', htwins.room'⟩
    obtain ⟨x, u₁, v₁, left, left', hx, hturns⟩ :=
      held_line programs hahead hahead' hne htwins hstay hfirst
    rw [hsplit, hlines]
    cases hl : u₁.env.leaving with
    | true =>
      have hturn := hturns.interactive
      have hturn' := hturns.batch
      rw [hl] at hturn hturn'
      refine ⟨[x], u₁, v₁, left, left', ?_, run_of_last_turn programs config hturn', hturns.held,
        ?_, fun h => ?_⟩
      · rw [run_of_last_turn programs config hturn]
        simp [farewell, hl]
      · rw [List.map_singleton, hx]
        exact ⟨linesOf rest, rfl⟩
      · rw [hl] at h
        cases h
    | false =>
      have hturn := hturns.interactive
      have hturn' := hturns.batch
      rw [hl] at hturn hturn'
      have hshorter : (Piece.content left).length ≤ n :=
        hturns.content.1 ▸ length_le_of_append hsplit hne hn
      have hrest := hturns.content.1
      obtain ⟨exchanges, u', v', left₁, left₁', hrun, hrun', hheld, hprefix, hall⟩ :=
        ih hshorter (hturns.content.2.trans hrest.symm) hturns.faultless.1 hturns.faultless.2
          hturns.held.twins hl (by rw [hrest]; exact hothers)
      rw [hrest] at hprefix hall
      refine ⟨x :: exchanges, u', v', left₁, left₁', ?_, ?_, hturns.held.trans hheld, ?_,
        fun h => ?_⟩
      · rw [run_eq_of_turn hturn, hrun]
      · rw [run_eq_of_turn hturn', hrun']
      · rw [List.map_cons, hx]
        exact (List.prefix_cons_inj _).2 hprefix
      · rw [List.map_cons, hx, hall h]

/-- **Both modes.** An input without faults, an output without a limit, a shell that is not told to
leave already, and lines that are the same in both modes. Then a session of either mode ends well.
Both carry out the same commands with the same results, start the same programs, and leave the same
environment and system behind. They hold the same exchanges, one about each line of the input up to
the one that makes the shell leave. The interactive session has written a prompt and the line before
each and reported the end of the input; the batch session has left out the prompts, the exchanges
about blank lines, of which there is nothing but their echo, and this report. -/
theorem both_modes (programs : Programs) (config : Config) (s : Shell) (pieces : List Piece)
    (hroom : s.transcript.room = none) (hstay : s.env.leaving = false)
    (hfaultless : Piece.Faultless pieces)
    (hsame : ∀ line ∈ linesOf (Piece.content pieces), SameInBoth config line) :
    ∃ (exchanges : List Exchange) (i b : Shell) (left left' : List Piece),
      run programs config .interactive (s, pieces) = .ok () (i, left) ∧
      run programs config .batch (s, pieces) = .ok () (b, left') ∧
      i.env = b.env ∧ i.system = b.system ∧
      unsaid i.transcript.events = unsaid b.transcript.events ∧
      exchanges.map Exchange.line <+: linesOf (Piece.content pieces) ∧
      (i.env.leaving = false → exchanges.map Exchange.line = linesOf (Piece.content pieces)) ∧
      (∀ x ∈ exchanges, isBlank x.line = true → x.events = []) ∧
      spelled i.transcript.events = spelled (s.transcript.events ++
        exchanges.flatMap (Exchange.dialogue config) ++ farewell config i) ∧
      spelled b.transcript.events = spelled (s.transcript.events ++
        exchanges.flatMap Exchange.record) := by
  obtain ⟨exchanges, u, b, left, left', hrun, hrun', hheld, hprefix, hall⟩ :=
    held_run programs _ (Nat.le_refl _) rfl hfaultless hfaultless ⟨rfl, rfl, hroom, hroom⟩ hstay
      hsame
  have hdialogue : spelled (u.noteAll (farewell config u)).transcript.events =
      spelled (s.transcript.events ++ exchanges.flatMap (Exchange.dialogue config) ++
        farewell config u) := by
    show spelled (u.transcript.events ++ farewell config u) = _
    rw [spelled_append, hheld.dialogue, ← spelled_append]
  have hfarewell : unsaid (farewell config u) = [] := by
    unfold farewell
    split <;> simp [unsaid, promptOf]
  refine ⟨exchanges, u.noteAll (farewell config u), b, left, left', hrun, hrun', hheld.twins.env,
    hheld.twins.system, ?_, hprefix, hall, hheld.blank, hdialogue, hheld.record⟩
  rw [← unsaid_spelled, hdialogue, unsaid_spelled, ← unsaid_spelled b.transcript.events,
    hheld.record, unsaid_spelled, unsaid_append, unsaid_append, unsaid_append, hfarewell,
    unsaid_records config hheld.blank, List.append_nil]

section Runs

open Bytes (ofString)
open Shell (idle atRoot)
open LineShell.Action (stateAfter)

/-- A command, a blank line, and a line that is too long for a read of eight bytes. -/
def threeLines : List Piece :=
  [.bytes (ofString "pwd\n \t"), .interruption, .bytes (ofString "\nseveral words\n")]

/-- The batch session leaves out the prompts, the blank line and the last report. -/
theorem threeLines_in_both :
    Piece.Faultless threeLines ∧
    (∀ line ∈ linesOf (Piece.content threeLines), SameInBoth narrow line) ∧
    ∃ (i b : Shell) (left left' : List Piece),
      run idle narrow .interactive (atRoot .empty, threeLines) = .ok () (i, left) ∧
      run idle narrow .batch (atRoot .empty, threeLines) = .ok () (b, left') ∧
      i.env = b.env ∧ i.system = b.system ∧
      unsaid i.transcript.events = unsaid b.transcript.events ∧
      unsaid b.transcript.events = [.carriedOut (ofString "pwd") none] ∧
      i.transcript.shown = ofString ("myshell> pwd\n/\n" ++ "myshell>  \t\n" ++
        "myshell> several words\nAn error has occurred\n" ++ "myshell> An error has occurred\n") ∧
      b.transcript.shown = ofString ("pwd\n/\n" ++ "several words\nAn error has occurred\n") := by
  have hf : Piece.Faultless threeLines := fun cause hm => by simp [threeLines] at hm
  have hsame : ∀ line ∈ linesOf (Piece.content threeLines), SameInBoth narrow line := by
    decide +kernel
  obtain ⟨-, i, b, left, left', hrun, hrun', henv, hsystem, hunsaid, -⟩ :=
    both_modes idle narrow (atRoot .empty) threeLines rfl rfl hf hsame
  have hi : (stateAfter (run idle narrow .interactive (atRoot .empty, threeLines))).1 = i := by
    rw [hrun]
    rfl
  have hb : (stateAfter (run idle narrow .batch (atRoot .empty, threeLines))).1 = b := by
    rw [hrun']
    rfl
  refine ⟨hf, hsame, i, b, left, left', hrun, hrun', henv, hsystem, hunsaid, ?_, ?_, ?_⟩
  · rw [← hb]
    decide +kernel
  · rw [← hi]
    decide +kernel
  · rw [← hb]
    decide +kernel

end Runs

end Session

end LineShell
