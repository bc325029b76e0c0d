import LineShell.Proofs.Turns

/-!
# Overlong lines

A line with at least as many bytes before its newline as a read may take is overlong. It should be
echoed and reported, and nothing of it carried out (`PassesOver`).

* `turn_overlong`: so it is if the first chunk of the line is not skipped.
* `goes_blanks`: a batch session skips a chunk of white space before it asks whether the chunk is
  overlong. So it loses the chunks of white space in front of the line.
* `turn_short`: what is left then may be short, and it is treated as a line of its own.
* `passesOver_iff`: which overlong lines are passed over, and which are not
  (`blanks_let_tail_run`).
-/
namespace LineShell

/-! ## White space in front -/

/-- The number of bytes of white space that a byte string begins with. -/
def leadingBlanks (bs : Bytes) : Nat := (bs.takeWhile isSpace).length

theorem leadingBlanks_le (bs : Bytes) : leadingBlanks bs ≤ bs.length :=
  (List.takeWhile_prefix isSpace).length_le

theorem isBlank_take_iff {bs : Bytes} {n : Nat} (h : n ≤ bs.length) :
    isBlank (bs.take n) = true ↔ n ≤ leadingBlanks bs := by
  induction bs generalizing n with
  | nil =>
    have hn : n = 0 := by simpa using h
    subst hn
    simp [isBlank]
  | cons b bs ih =>
    cases n with
    | zero => simp [isBlank]
    | succ n =>
      have hn : n ≤ bs.length := by simpa using h
      by_cases hb : isSpace b = true
      · have h1 := ih hn
        simp only [isBlank, leadingBlanks] at h1 ⊢
        simp [hb, h1]
      · simp [isBlank, leadingBlanks, hb]

theorem leadingBlanks_drop {bs : Bytes} {n : Nat} (h : n ≤ leadingBlanks bs) :
    leadingBlanks (bs.drop n) = leadingBlanks bs - n := by
  induction bs generalizing n with
  | nil => simp [leadingBlanks]
  | cons b bs ih =>
    cases n with
    | zero => simp
    | succ n =>
      by_cases hb : isSpace b = true
      · have hn : n ≤ leadingBlanks bs := by simpa [leadingBlanks, hb] using h
        rw [List.drop_succ_cons, ih hn]
        simp [leadingBlanks, hb]
      · simp [leadingBlanks, hb] at h

namespace Shell

/-- The shell with more events in its transcript. -/
def noteAll (s : Shell) (events : List Event) : Shell :=
  { s with transcript := { s.transcript with events := s.transcript.events ++ events } }

@[simp] theorem noteAll_nil (s : Shell) : s.noteAll [] = s := by simp [noteAll]

@[simp] theorem noteAll_noteAll (s : Shell) (events events' : List Event) :
    (s.noteAll events).noteAll events' = s.noteAll (events ++ events') := by
  simp [noteAll]

@[simp] theorem noteAll_room (s : Shell) (events : List Event) :
    (s.noteAll events).transcript.room = s.transcript.room := rfl

theorem noteAll_inj {s : Shell} {events events' : List Event}
    (h : s.noteAll events = s.noteAll events') : events = events' := by
  have he := congrArg (fun u => u.transcript.events) h
  simpa [noteAll] using he

theorem say_run {s : Shell} (h : s.transcript.room = none) (bytes : Bytes) :
    say bytes s = .ok () (s.noteAll [.said bytes]) := by
  simp [say, Transcript.say, h, noteAll, Transcript.note]

end Shell

namespace Session

open Bytes (newline)

/-! ## The line in front of the input -/

/-- The input has no faults, the output has no limit, and the input goes on with a line: its body,
the newline unless the input ends, and the rest. -/
structure LineAhead (s : Shell × List Piece) (body ending rest : Bytes) : Prop where
  content : Piece.content s.2 = body ++ ending ++ rest
  noNewline : newline ∉ body
  ending : ending = [newline] ∨ ending = [] ∧ rest = []
  faultless : Piece.Faultless s.2
  room : s.1.transcript.room = none

/-- The most bytes that a read of the session takes. -/
abbrev limitOf (config : Config) : Nat := effectiveLimit config.lineLimit

/-- The chunk that an overlong line begins with. -/
abbrev firstChunk (config : Config) (body : Bytes) : Chunk :=
  ⟨body.take (limitOf config), limitOf config⟩

variable (programs : Programs) (config : Config) {mode : SessionMode}
  {s s' : Shell × List Piece} {body ending rest : Bytes}

theorem LineAhead.noteAll (h : LineAhead s body ending rest) (events : List Event) :
    LineAhead (s.1.noteAll events, s.2) body ending rest :=
  ⟨h.content, h.noNewline, h.ending, h.faultless, h.room⟩

theorem limitOf_pos : 0 < limitOf config := effectiveLimit_pos config.lineLimit

theorem read_run (h : Piece.Faultless s.2) :
    ∃ pieces, read config s =
        .ok (if takeLine (limitOf config) (Piece.content s.2) = [] then none
          else some ⟨takeLine (limitOf config) (Piece.content s.2), limitOf config⟩)
          (s.1, pieces) ∧
      Piece.Consumed s.2 pieces (takeLine (limitOf config) (Piece.content s.2)) := by
  obtain ⟨pieces, hr, hc⟩ := readChunk_eq h config.lineLimit s.1.system
  refine ⟨pieces, ?_, hc⟩
  unfold read
  rw [hr]

/-- An overlong line gives a full chunk without a newline, and goes on behind it. -/
theorem read_cut (h : LineAhead s body ending rest) (hlong : limitOf config ≤ body.length) :
    ∃ pieces, read config s = .ok (some (firstChunk config body)) (s.1, pieces) ∧
      LineAhead (s.1, pieces) (body.drop (limitOf config)) ending rest := by
  obtain ⟨pieces, hr, hc⟩ := read_run config h.faultless
  have ht : takeLine (limitOf config) (Piece.content s.2) = body.take (limitOf config) := by
    rw [h.content, List.append_assoc, takeLine_cut _ h.noNewline hlong]
  have hne : body.take (limitOf config) ≠ [] := by
    intro he
    have hl := congrArg List.length he
    have := limitOf_pos config
    simp only [List.length_take, List.length_nil] at hl
    omega
  rw [ht] at hr hc
  rw [if_neg hne] at hr
  refine ⟨pieces, hr, ?_, fun hm => h.noNewline (List.mem_of_mem_drop hm), h.ending,
    hc.faultless h.faultless, h.room⟩
  have hcontent := hc.content
  rw [h.content, List.append_assoc] at hcontent
  have hsplit : body.take (limitOf config) ++ (body.drop (limitOf config) ++ (ending ++ rest)) =
      body.take (limitOf config) ++ Piece.content pieces := by
    rw [← List.append_assoc, List.take_append_drop]
    exact hcontent
  simpa using (List.append_cancel_left hsplit).symm

/-- A line that fits is read at once. -/
theorem read_whole (h : LineAhead s body ending rest) (hshort : body.length < limitOf config) :
    ∃ pieces, read config s =
        .ok (if body ++ ending = [] then none else some ⟨body ++ ending, limitOf config⟩)
          (s.1, pieces) ∧
      Piece.content pieces = rest ∧ Piece.Faultless pieces := by
  obtain ⟨pieces, hr, hc⟩ := read_run config h.faultless
  have ht : takeLine (limitOf config) (Piece.content s.2) = body ++ ending := by
    rw [h.content, takeLine_whole h.noNewline h.ending hshort]
  rw [ht] at hr hc
  have hcontent := hc.content
  rw [h.content] at hcontent
  exact ⟨pieces, hr, (List.append_cancel_left hcontent).symm, hc.faultless h.faultless⟩

/-! ## Passing over -/

theorem endsLine_cut (hb : newline ∉ body) (n limit : Nat) :
    Chunk.endsLine ⟨body.take n, limit⟩ = false := by
  unfold Chunk.endsLine
  rw [beq_eq_false_iff_ne]
  intro he
  exact hb (List.mem_of_mem_take (List.mem_of_getLast? he))

theorem endsLine_newline (body : Bytes) (limit : Nat) :
    Chunk.endsLine ⟨body ++ [newline], limit⟩ = true := by
  simp [Chunk.endsLine]

theorem onShell_say_run (h : s.1.transcript.room = none) (bytes : Bytes) :
    onShell (Shell.say bytes) s = .ok () (s.1.noteAll [.said bytes], s.2) := by
  unfold onShell
  rw [Shell.say_run h]

theorem onShell_report_run (h : s.1.transcript.room = none) :
    onShell Shell.report s = .ok () (s.1.noteAll [.said errorMessage], s.2) :=
  onShell_say_run h errorMessage

theorem orFail_run {ε δ α : Type} {x : Action (Shell × List Piece) ε α} (f : ε → δ) {a : α}
    (h : x s = .ok a s') : x.orFail f s = .ok a s' := by
  unfold Action.orFail
  rw [h]

/-- The rest of the line is echoed in chunks. -/
theorem echoRest_run (fuel : Nat) : ∀ {s : Shell × List Piece} {body : Bytes},
    LineAhead s body ending rest → (body ++ ending).length < fuel →
    ∃ (chunks : List Bytes) (pieces : List Piece),
      echoRest (read config) (fun bytes => onShell (Shell.say bytes)) fuel s =
        .ok () (s.1.noteAll (chunks.map .said), pieces) ∧
      chunks.flatten = body ++ ending ∧ Piece.content pieces = rest := by
  induction fuel with
  | zero => intro s body _ hf; omega
  | succ fuel ih =>
    intro s body h hf
    have hpos := limitOf_pos config
    have hsay : ∀ (bytes : Bytes) (pieces : List Piece), onShell (Shell.say bytes) (s.1, pieces) =
        .ok () (s.1.noteAll [.said bytes], pieces) :=
      fun bytes pieces => onShell_say_run (s := (s.1, pieces)) h.room bytes
    rw [echoRest, Action.bind_run]
    rcases Nat.lt_or_ge body.length (limitOf config) with hshort | hlong
    · obtain ⟨pieces, hr, hc, hf'⟩ := read_whole config h hshort
      rw [hr]
      by_cases hne : body ++ ending = []
      · rw [if_pos hne]
        exact ⟨[], pieces, by simp, by simp [hne], hc⟩
      rw [if_neg hne]
      simp only [Action.bind_run, hsay]
      rcases h.ending with rfl | ⟨rfl, rfl⟩
      · rw [endsLine_newline]
        exact ⟨[body ++ [newline]], pieces, by simp, by simp, hc⟩
      · -- the input ends without a newline, and one more read finds that out
        have hend : Chunk.endsLine ⟨body ++ [], limitOf config⟩ = false := by
          simpa using endsLine_cut h.noNewline body.length (limitOf config)
        have hahead : LineAhead (s.1.noteAll [.said (body ++ [])], pieces) [] [] [] :=
          ⟨hc, by simp, Or.inr ⟨rfl, rfl⟩, hf', h.room⟩
        have hlen : ([] ++ [] : Bytes).length < fuel := by
          have := List.length_pos_iff.2 hne
          simp only [List.append_nil, List.length_nil]
          omega
        obtain ⟨chunks, pieces', he, hch, hc'⟩ := ih hahead hlen
        rw [hend]
        refine ⟨(body ++ []) :: chunks, pieces', ?_, by simp [hch], hc'⟩
        simpa using he
    · obtain ⟨pieces, hr, hahead⟩ := read_cut config h hlong
      rw [hr]
      simp only [Action.bind_run, hsay, endsLine_cut h.noNewline]
      have hlen : (body.drop (limitOf config) ++ ending).length < fuel := by
        simp only [List.length_append, List.length_drop] at hf ⊢
        omega
      obtain ⟨chunks, pieces', he, hch, hc'⟩ := ih (hahead.noteAll [.said _]) hlen
      refine ⟨body.take (limitOf config) :: chunks, pieces', ?_, ?_, hc'⟩
      · simpa using he
      · rw [List.flatten_cons, hch, ← List.append_assoc, List.take_append_drop]

/-- What a session says before it reads. -/
def promptOf (config : Config) : SessionMode → List Event
  | .interactive => [.said (Bytes.ofString config.prompt)]
  | .batch => []

/-- What a session says when it finds the end of the input. -/
def endOfInput : SessionMode → List Event
  | .interactive => [.said errorMessage]
  | .batch => []

theorem prompted_run (h : s.1.transcript.room = none) :
    prompted config mode s = .ok () (s.1.noteAll (promptOf config mode), s.2) := by
  unfold prompted
  cases mode with
  | batch => simp [promptOf]
  | interactive => simp [promptOf, Action.orFail, onShell, Shell.say_run h]

/-- A turn prompts, reads, and goes on with the chunk that it has read. -/
theorem turn_of_chunk {chunk : Chunk} (hroom : s.1.transcript.room = none)
    (hr : read config (s.1.noteAll (promptOf config mode), s.2) = .ok (some chunk) s') :
    turn programs config mode s = heard programs config mode chunk s' := by
  rw [turn_eq, Action.bind_run, prompted_run config hroom]
  simp only
  rw [Action.bind_run, orFail_run SessionFailure.input hr]

/-- If there was nothing to read, the session is over. -/
theorem turn_of_end {pieces : List Piece} (hroom : s.1.transcript.room = none)
    (hr : read config (s.1.noteAll (promptOf config mode), s.2) =
      .ok none (s.1.noteAll (promptOf config mode), pieces)) :
    turn programs config mode s =
      .ok false (s.1.noteAll (promptOf config mode ++ endOfInput mode), pieces) := by
  rw [turn_eq, Action.bind_run, prompted_run config hroom]
  simp only
  rw [Action.bind_run, orFail_run SessionFailure.input hr]
  cases mode with
  | batch => simp [finished, endOfInput, Action.pure_run]
  | interactive =>
    have hreport :=
      onShell_report_run (s := (s.1.noteAll (promptOf config .interactive), pieces)) hroom
    simp only [finished, if_true, Action.bind_run, orFail_run SessionFailure.output hreport]
    simp [endOfInput, Action.pure_run]

/-- A batch session skips a chunk of white space. -/
theorem turn_of_blank {chunk : Chunk} (hroom : s.1.transcript.room = none)
    (hr : read config s = .ok (some chunk) s') (hb : chunk.isBlank = true) :
    turn programs config .batch s = .ok true s' := by
  have hr' : read config (s.1.noteAll (promptOf config .batch), s.2) = .ok (some chunk) s' := by
    rw [promptOf, Shell.noteAll_nil]
    exact hr
  rw [turn_of_chunk programs config hroom hr', heard_blank programs config hb]
  rfl

theorem passOver_run (h : LineAhead s body ending rest) :
    ∃ (chunks : List Bytes) (pieces : List Piece),
      passOver config s = .ok () (s.1.noteAll (chunks.map .said), pieces) ∧
      chunks.flatten = body ++ ending ∧ Piece.content pieces = rest := by
  refine echoRest_run config _ h ?_
  have hr : remaining s = (body ++ ending ++ rest).length := congrArg List.length h.content
  rw [hr]
  simp only [List.length_append]
  omega

/-- **A line is passed over.** By turns that go on the session comes to what is behind it, and the
shell is the same but for what it has said: the prompt, chunks that end the line, and one error
message. No command has been carried out, and no program launched. -/
structure PassesOver (programs : Programs) (config : Config) (mode : SessionMode)
    (line rest : Bytes) (s s' : Shell × List Piece) : Prop where
  reached : Reaches programs config mode s s'
  rest : Piece.content s'.2 = rest
  said : ∃ chunks : List Bytes, chunks.flatten <:+ line ∧
    s'.1 = s.1.noteAll (promptOf config mode ++ chunks.map .said ++ [.said errorMessage])

/-- A turn echoes all of an overlong line and reports it, unless it skips the first chunk. -/
theorem turn_overlong_run (h : LineAhead s body ending rest)
    (hlong : limitOf config ≤ body.length) (hmode : Heeded mode (firstChunk config body)) :
    ∃ (chunks : List Bytes) (pieces : List Piece),
      turn programs config mode s = .ok true
        (s.1.noteAll (promptOf config mode ++ chunks.map .said ++ [.said errorMessage]), pieces) ∧
      chunks.flatten = body ++ ending ∧ Piece.content pieces = rest := by
  obtain ⟨pieces, hr, hahead⟩ := read_cut config (h.noteAll (promptOf config mode)) hlong
  have hover : (firstChunk config body).isOverlong = true := by
    simp [Chunk.isOverlong, endsLine_cut h.noNewline, hlong]
  obtain ⟨chunks, pieces', hp, hch, hc⟩ := passOver_run config
    (hahead.noteAll [.said (body.take (limitOf config))])
  refine ⟨body.take (limitOf config) :: chunks, pieces', ?_, ?_, hc⟩
  · rw [turn_of_chunk programs config h.room hr, heard_overlong programs config hmode hover,
      Action.bind_run, orFail_run SessionFailure.output (onShell_say_run hahead.room _)]
    simp only
    rw [Action.bind_run, orFail_run SessionFailure.input hp]
    simp only
    rw [Action.bind_run, orFail_run SessionFailure.output (onShell_report_run (by exact h.room))]
    simp
  · rw [List.flatten_cons, hch, ← List.append_assoc, List.take_append_drop]

/-- So the line is passed over. -/
theorem turn_overlong (h : LineAhead s body ending rest)
    (hlong : limitOf config ≤ body.length) (hmode : Heeded mode (firstChunk config body)) :
    ∃ s', turn programs config mode s = .ok true s' ∧
      PassesOver programs config mode (body ++ ending) rest s s' := by
  obtain ⟨chunks, pieces, hturn, hch, hc⟩ := turn_overlong_run programs config h hlong hmode
  exact ⟨_, hturn, .one hturn, hc, chunks, hch ▸ List.suffix_rfl, rfl⟩

/-- Such a chunk of an overlong line leaves the rest of the line in front. -/
theorem turn_blank (h : LineAhead s body ending rest)
    (hlong : limitOf config ≤ body.length) (hb : (firstChunk config body).isBlank = true) :
    ∃ pieces, turn programs config .batch s = .ok true (s.1, pieces) ∧
      LineAhead (s.1, pieces) (body.drop (limitOf config)) ending rest := by
  obtain ⟨pieces, hr, hahead⟩ := read_cut config h hlong
  exact ⟨pieces, turn_of_blank programs config h.room hr hb, hahead⟩

/-- And so all of them, in front of a line. -/
theorem goes_blanks (n : Nat) : ∀ {s : Shell × List Piece} {body : Bytes},
    LineAhead s body ending rest → n * limitOf config ≤ leadingBlanks body →
    ∃ pieces, goes programs config .batch n s = some (s.1, pieces) ∧
      LineAhead (s.1, pieces) (body.drop (n * limitOf config)) ending rest := by
  induction n with
  | zero => intro s body h _; exact ⟨s.2, rfl, by simpa using h⟩
  | succ n ih =>
    intro s body h hn
    rw [Nat.succ_mul] at hn
    have hfirst : limitOf config ≤ leadingBlanks body := by omega
    have hlong := Nat.le_trans hfirst (leadingBlanks_le body)
    obtain ⟨pieces, ht, hahead⟩ := turn_blank programs config h hlong
      ((isBlank_take_iff hlong).2 hfirst)
    have hrest : n * limitOf config ≤ leadingBlanks (body.drop (limitOf config)) := by
      rw [leadingBlanks_drop hfirst]; omega
    obtain ⟨pieces', hg, hahead'⟩ := ih hahead hrest
    refine ⟨pieces', ?_, ?_⟩
    · rw [goes, ht]; exact hg
    · rw [List.drop_drop] at hahead'
      rw [Nat.succ_mul, Nat.add_comm]
      exact hahead'

/-! ## What is left behind white space -/

theorem isOverlong_line (h : LineAhead s body ending rest) (hshort : body.length < limitOf config) :
    Chunk.isOverlong ⟨body ++ ending, limitOf config⟩ = false := by
  rcases h.ending with rfl | ⟨rfl, rfl⟩
  · simp [Chunk.isOverlong, endsLine_newline]
  · simp [Chunk.isOverlong]
    omega

/-- A line that fits is echoed and carried out, unless it is skipped. -/
theorem turn_line (h : LineAhead s body ending rest) (hshort : body.length < limitOf config)
    (hne : body ++ ending ≠ []) (hmode : Heeded mode ⟨body ++ ending, limitOf config⟩) :
    ∃ pieces, Piece.content pieces = rest ∧ Piece.Faultless pieces ∧
      turn programs config mode s =
        match Shell.runLine programs config (Chunk.text ⟨body ++ ending, limitOf config⟩)
            (s.1.noteAll (promptOf config mode ++ [.said (body ++ ending)])) with
        | .ok _ s' => .ok (!s'.env.leaving) (s', pieces)
        | .error e s' => .error (.output e) (s', pieces) := by
  obtain ⟨pieces, hr, hc, hf⟩ := read_whole config (h.noteAll (promptOf config mode)) hshort
  refine ⟨pieces, hc, hf, ?_⟩
  rw [if_neg hne] at hr
  rw [turn_of_chunk programs config h.room hr,
    heard_line programs config hmode (isOverlong_line config h hshort),
    Action.bind_run, orFail_run SessionFailure.output (onShell_say_run (by exact h.room) _)]
  simp only [Shell.noteAll_noteAll, Action.bind_run, Action.orFail, onShell]
  cases Shell.runLine programs config (Chunk.text ⟨body ++ ending, limitOf config⟩)
    (s.1.noteAll (promptOf config mode ++ [.said (body ++ ending)])) <;> rfl

/-- A batch session treats a line that fits as a line of its own: it is skipped, or echoed and
carried out. -/
theorem turn_short (h : LineAhead s body ending rest) (hshort : body.length < limitOf config)
    (ht : turn programs config .batch s = .ok true s') :
    Piece.content s'.2 = rest ∧ (s'.1 = s.1 ∨
      Shell.runLine programs config (Chunk.text ⟨body ++ ending, limitOf config⟩)
          (s.1.noteAll [.said (body ++ ending)]) = .ok () s'.1 ∧ s'.1.env.leaving = false) := by
  by_cases hheeded : body ++ ending ≠ [] ∧
      Chunk.isBlank ⟨body ++ ending, limitOf config⟩ = false
  · obtain ⟨pieces, hc, -, hturn⟩ :=
      turn_line programs config h hshort hheeded.1 (Or.inr hheeded.2)
    rw [hturn] at ht
    simp only [promptOf, List.nil_append] at ht
    cases hx : Shell.runLine programs config (Chunk.text ⟨body ++ ending, limitOf config⟩)
        (s.1.noteAll [.said (body ++ ending)]) with
    | error e s₁ => rw [hx] at ht; cases ht
    | ok u s₁ =>
      rw [hx] at ht
      cases hl : s₁.env.leaving with
      | true => simp only [hl] at ht; cases ht
      | false => simp only [hl] at ht; cases ht; exact ⟨hc, Or.inr ⟨rfl, hl⟩⟩
  · obtain ⟨pieces, hr, hc, -⟩ := read_whole config h hshort
    by_cases hne : body ++ ending = []
    · rw [if_pos hne] at hr
      rw [turn_of_end programs config h.room (by simpa [promptOf] using hr)] at ht
      cases ht
    · have hb : Chunk.isBlank ⟨body ++ ending, limitOf config⟩ = true := by
        rw [← Bool.not_eq_false]
        exact fun hb => hheeded ⟨hne, hb⟩
      rw [if_neg hne] at hr
      rw [turn_of_blank programs config h.room hr hb] at ht
      cases ht
      exact ⟨hc, Or.inl rfl⟩

/-- A line that reads like the error message holds a command. -/
theorem errorMessage_command (limit : Nat) :
    ∃ raw ∈ commandsOf (Chunk.text ⟨errorMessage, limit⟩), Command.parse raw ≠ .ok .empty := by
  have ht : Chunk.text ⟨errorMessage, limit⟩ = Bytes.ofString "An error has occurred" := rfl
  rw [ht]
  refine ⟨Bytes.ofString "An error has occurred", by decide, ?_⟩
  have hp : Command.parse (Bytes.ofString "An error has occurred") =
      .ok (.simple (wordsOf (Bytes.ofString "An error has occurred"))) := rfl
  rw [hp]
  simp

/-- A line that fits, carried out or skipped, does not look as if it had been passed over. -/
theorem not_passed_of_short (line : Bytes) (n : Nat) {chunks : List Bytes}
    (hsaid : s'.1 = s.1.noteAll (chunks.map .said ++ [.said errorMessage]))
    (ht : s'.1 = s.1 ∨
      Shell.runLine programs config (Chunk.text ⟨line, n⟩) (s.1.noteAll [.said line]) =
        .ok () s'.1 ∧ s'.1.env.leaving = false) : False := by
  rcases ht with he | ⟨hrun, hl⟩
  · have hn : s.1.noteAll (chunks.map .said ++ [.said errorMessage]) = s.1.noteAll [] := by
      rw [← hsaid, he, Shell.noteAll_nil]
    simpa using Shell.noteAll_inj hn
  · rcases Shell.runCommands_noted programs config _ hrun hl with
      ⟨he, hempty⟩ | ⟨events, raw, failure, he, hm⟩
    · rw [hsaid] at he
      have hevents := Shell.noteAll_inj he
      have hlast := congrArg List.getLast? hevents
      simp only [List.getLast?_append, List.getLast?_singleton, Option.some_or,
        Option.some.injEq, Event.said.injEq] at hlast
      subst hlast
      obtain ⟨raw, hm, hp⟩ := errorMessage_command n
      exact hp (hempty raw hm)
    · rw [hsaid] at he
      have hevents : chunks.map Event.said ++ [.said errorMessage] = .said line :: events := by
        have h' : s.1.transcript.events ++ (chunks.map Event.said ++ [.said errorMessage]) =
            s.1.transcript.events ++ (.said line :: events) := by
          simpa [Shell.noteAll] using he
        exact List.append_cancel_left h'
      have hmem : Event.carriedOut raw failure ∈ chunks.map Event.said ++ [.said errorMessage] := by
        rw [hevents]
        exact List.mem_cons_of_mem _ hm
      simp at hmem

/-! ## Which lines are passed over -/

/-- The bytes of white space in front of a line that a batch session skips, in full chunks. -/
def skippedLength (config : Config) (body : Bytes) : Nat :=
  leadingBlanks body / limitOf config * limitOf config

/-- The length of what is left of the line then. -/
def keptLength (config : Config) (body : Bytes) : Nat := body.length - skippedLength config body

theorem skippedLength_le (body : Bytes) : skippedLength config body ≤ leadingBlanks body :=
  Nat.div_mul_le_self _ _

/-- The white space that is left in front does not fill a chunk. -/
theorem leadingBlanks_kept (body : Bytes) :
    leadingBlanks (body.drop (skippedLength config body)) < limitOf config := by
  have hmod := Nat.mod_lt (leadingBlanks body) (limitOf_pos config)
  have hdiv := Nat.div_add_mod (leadingBlanks body) (limitOf config)
  rw [leadingBlanks_drop (skippedLength_le config body), skippedLength]
  rw [Nat.mul_comm] at hdiv
  omega

/-- A batch session comes to what is left. -/
theorem reaches_kept (h : LineAhead s body ending rest) :
    ∃ pieces, Reaches programs config .batch s (s.1, pieces) ∧
      LineAhead (s.1, pieces) (body.drop (skippedLength config body)) ending rest := by
  obtain ⟨pieces, hg, hahead⟩ :=
    goes_blanks programs config (leadingBlanks body / limitOf config) h
      (skippedLength_le config body)
  exact ⟨pieces, ⟨_, hg⟩, hahead⟩

/-- What is left does not begin with a chunk that is skipped. -/
theorem heeded_kept (hlong : limitOf config ≤ (body.drop (skippedLength config body)).length) :
    Heeded .batch (firstChunk config (body.drop (skippedLength config body))) := by
  right
  have hnot := Nat.not_le_of_lt (leadingBlanks_kept config body)
  simpa [Chunk.isBlank] using fun hb => hnot ((isBlank_take_iff hlong).1 hb)

/-- If what is left does not fit into a read, the line is passed over. -/
theorem passesOver_of_kept (h : LineAhead s body ending rest)
    (hkept : limitOf config ≤ keptLength config body) :
    ∃ s', PassesOver programs config .batch (body ++ ending) rest s s' := by
  obtain ⟨pieces, hreached, hahead⟩ := reaches_kept programs config h
  have hlong : limitOf config ≤ (body.drop (skippedLength config body)).length := by
    rw [List.length_drop]; exact hkept
  obtain ⟨s', -, hp⟩ := turn_overlong programs config hahead hlong (heeded_kept config hlong)
  obtain ⟨chunks, hch, hsaid⟩ := hp.said
  obtain ⟨front, hfront⟩ := List.drop_suffix (skippedLength config body) body
  refine ⟨s', hreached.trans hp.reached, hp.rest, chunks, hch.trans ⟨front, ?_⟩, hsaid⟩
  rw [← List.append_assoc]
  exact congrArg (· ++ ending) hfront

/-- If what is left fits into a read, the line is not passed over. -/
theorem not_passesOver_of_not_kept (h : LineAhead s body ending rest)
    (hkept : keptLength config body < limitOf config) :
    ¬ PassesOver programs config .batch (body ++ ending) rest s s' := by
  intro hp
  obtain ⟨n, hn⟩ := hp.reached
  obtain ⟨chunks, -, hsaid⟩ := hp.said
  have hsaid' : s'.1 = s.1.noteAll (chunks.map .said ++ [.said errorMessage]) := by
    simpa [promptOf] using hsaid
  have hskipped := skippedLength_le config body
  unfold keptLength at hkept
  unfold skippedLength at hskipped hkept
  generalize leadingBlanks body / limitOf config = k at hskipped hkept
  rcases Nat.lt_or_ge k n with hlt | hge
  · obtain ⟨pieces, hg, hahead⟩ := goes_blanks programs config k h hskipped
    obtain ⟨m, rfl⟩ : ∃ m, n = k + (m + 1) := ⟨n - k - 1, by omega⟩
    rw [goes_add, hg, Option.bind_some, goes] at hn
    split at hn
    · rename_i s₁ ht
      have hshort : (body.drop (k * limitOf config)).length <
          limitOf config := by
        rw [List.length_drop]; exact hkept
      obtain ⟨hc, hshell⟩ := turn_short programs config hahead hshort ht
      -- behind the line the session has not moved on, so this is the state itself
      obtain ⟨taken, hm, hlen⟩ := goes_moves hn
      have hcontent := hm.consumed.content
      rw [hc, hp.rest] at hcontent
      have htaken : taken = [] := List.self_eq_append_left.1 hcontent
      have hm0 : m = 0 := by simpa [htaken] using hlen
      subst hm0
      cases hn
      exact not_passed_of_short programs config _ _ hsaid' hshell
    · cases hn
  · have hskipped' : n * limitOf config ≤ leadingBlanks body :=
      Nat.le_trans (Nat.mul_le_mul_right _ hge) hskipped
    obtain ⟨pieces, hg, -⟩ := goes_blanks programs config n h hskipped'
    rw [hn] at hg
    cases hg
    exact not_passed_of_short programs config [] 0 hsaid' (Or.inl rfl)

/-- **Which overlong lines are passed over.** A session that began with an input without faults and
an output without a limit has come to a line with as many bytes before its end as a read may take,
or more. It passes over the line, and goes on behind it, if and only if it is interactive, or what
is left of the line behind the skipped white space is still overlong. -/
theorem passesOver_iff (programs : Programs) (config : Config) (mode : SessionMode)
    {start s : Shell × List Piece} (body ending rest : Bytes)
    (hroom : start.1.transcript.room = none) (hfaultless : Piece.Faultless start.2)
    (hreached : Reaches programs config mode start s)
    (hcontent : Piece.content s.2 = body ++ ending ++ rest) (hbody : newline ∉ body)
    (hending : ending = [newline] ∨ ending = [] ∧ rest = [])
    (hlong : limitOf config ≤ body.length) :
    (∃ s', PassesOver programs config mode (body ++ ending) rest s s' ∧
      run programs config mode start = run programs config mode s') ↔
    mode = .interactive ∨
      limitOf config ≤ keptLength config body := by
  obtain ⟨n, hn⟩ := hreached
  obtain ⟨taken, hm, -⟩ := goes_moves hn
  have hahead : LineAhead s body ending rest :=
    ⟨hcontent, hbody, hending, hm.consumed.faultless hfaultless, hm.continues.room hroom⟩
  have hrun : ∀ s', PassesOver programs config mode (body ++ ending) rest s s' →
      run programs config mode start = run programs config mode s' :=
    fun s' hp => run_eq_of_reaches (Reaches.trans ⟨n, hn⟩ hp.reached)
  constructor
  · rintro ⟨s', hp, -⟩
    cases mode with
    | interactive => exact Or.inl rfl
    | batch =>
      rcases Nat.lt_or_ge (keptLength config body) (limitOf config)
        with hlt | hge
      · exact absurd hp (not_passesOver_of_not_kept programs config hahead hlt)
      · exact Or.inr hge
  · intro h
    cases mode with
    | interactive =>
      obtain ⟨s', -, hp⟩ := turn_overlong programs config hahead hlong (Or.inl rfl)
      exact ⟨s', hp, hrun s' hp⟩
    | batch =>
      rcases h with h | h
      · cases h
      · obtain ⟨s', hp⟩ := passesOver_of_kept programs config hahead h
        exact ⟨s', hp, hrun s' hp⟩

section Runs

open Bytes (ofString)
open Shell (idle atRoot)

/-- A read takes eight bytes. -/
def narrow : Config := { lineLimit := 8 }

/-- A batch session in an empty directory. -/
def scripted (text : String) : Shell × List Piece := (atRoot .empty, [.bytes (ofString text)])

theorem scripted_faultless (text : String) : Piece.Faultless (scripted text).2 :=
  Piece.faultless_bytes _

/-- Of two overlong lines, one is passed over, and one is not. -/
theorem overlong_words_and_blanks :
    (∃ s', PassesOver idle narrow .batch (ofString "several words\n") (ofString "pwd\n")
        (scripted "several words\npwd\n") s' ∧
      run idle narrow .batch (scripted "several words\npwd\n") = run idle narrow .batch s') ∧
    ¬ ∃ s', PassesOver idle narrow .batch (ofString "        pwd\n") []
        (scripted "        pwd\n") s' ∧
      run idle narrow .batch (scripted "        pwd\n") = run idle narrow .batch s' := by
  constructor
  · exact (passesOver_iff idle narrow .batch (ofString "several words") [newline]
      (ofString "pwd\n") rfl (scripted_faultless _) (.refl _)
      (by decide) (by decide) (Or.inl rfl) (by decide)).2 (Or.inr (by decide))
  · intro h
    have hk := (passesOver_iff idle narrow .batch (ofString "        pwd") [newline] []
      rfl (scripted_faultless _) (.refl _) (by decide) (by decide) (Or.inl rfl) (by decide)).1 h
    revert hk
    decide

/-- **Counterexample**: behind eight blanks, which are skipped, the rest of an overlong line is
echoed and carried out, and nothing is reported. -/
theorem blanks_let_tail_run :
    limitOf narrow ≤ (ofString "        pwd").length ∧
    ∃ s', run idle narrow .batch (scripted "        pwd\n") = .ok () s' ∧
      s'.1.transcript.events =
        [.said (ofString "pwd\n"), .said (ofString "/"), .said (ofString "\n"),
          .carriedOut (ofString "pwd") none] := by
  refine ⟨by decide, _, rfl, by decide⟩

end Runs

end Session

end LineShell
