import LineShell.Proofs.OverlongLines
import LineShell.Proofs.SideBySide

/-!
# Interactive sessions, line by line

A session reads bounded chunks, and passes over the rest of a line that is too long. Seen from
outside, an interactive session does something simpler.

* `linesOf`: the lines of an input, whole.
* `converse`: an answer to each line, until there are no more lines or the shell is to leave. It
  knows nothing of chunks.
* `Alike`: two shells that differ only in the way their output was cut into writes. All actions
  keep them alike (`alike_pairing`).
* `interactive_eq_converse`: an interactive session is a conversation about the lines of its input.
-/
namespace LineShell

open Bytes (newline)

/-! ## Lines -/

/-- The lines of an input, each through its newline, and the last one through the end. -/
def linesOf : Bytes → List Bytes
  | [] => []
  | b :: bs =>
    if b = newline then [b] :: linesOf bs
    else match linesOf bs with
      | [] => [[b]]
      | line :: lines => (b :: line) :: lines

/-- The bytes of a line before its newline. -/
def bodyOf (line : Bytes) : Bytes := line.takeWhile (· != newline)

section Lines

variable {body ending rest : Bytes}

/-- The lines make up the input. -/
theorem linesOf_flatten (bs : Bytes) : (linesOf bs).flatten = bs := by
  induction bs with
  | nil => rfl
  | cons b bs ih =>
    rw [linesOf]
    split
    · rw [List.flatten_cons, ih]
      rfl
    · cases hl : linesOf bs with
      | nil =>
        rw [hl] at ih
        rw [← ih]
        rfl
      | cons line lines =>
        rw [hl, List.flatten_cons] at ih
        rw [List.flatten_cons, List.cons_append, ih]

theorem linesOf_line (hb : newline ∉ body)
    (he : ending = [newline] ∨ ending = [] ∧ rest = []) (hne : body ++ ending ≠ []) :
    linesOf (body ++ ending ++ rest) = (body ++ ending) :: linesOf rest := by
  induction body with
  | nil =>
    rcases he with rfl | ⟨rfl, -⟩
    · simp [linesOf]
    · exact absurd rfl hne
  | cons b body ih =>
    have hb' : newline ∉ body := fun hm => hb (List.mem_cons_of_mem _ hm)
    have hbn : b ≠ newline := fun e => hb (e ▸ List.mem_cons_self)
    rw [List.cons_append, List.cons_append, linesOf, if_neg hbn]
    by_cases hlast : body ++ ending = []
    · rcases he with rfl | ⟨rfl, rfl⟩
      · simp at hlast
      · rw [List.append_nil, hlast]
        rfl
    · rw [ih hb' hlast]

/-- What follows on a part that is not empty is shorter than the whole. -/
theorem length_le_of_append {α : Type} {whole front rest : List α} {n : Nat}
    (hsplit : whole = front ++ rest) (hne : front ≠ []) (hn : whole.length ≤ n + 1) :
    rest.length ≤ n := by
  have hpos := List.length_pos_iff.2 hne
  rw [hsplit, List.length_append] at hn
  omega

/-- An input that is not at its end goes on with a line. -/
theorem exists_line {bs : Bytes} (h : bs ≠ []) :
    ∃ body ending rest : Bytes, bs = body ++ ending ++ rest ∧ newline ∉ body ∧
      (ending = [newline] ∨ ending = [] ∧ rest = []) ∧ body ++ ending ≠ [] := by
  have hb : newline ∉ bs.takeWhile (· != newline) := by
    intro hm
    have hne := (List.all_eq_true.1 List.all_takeWhile) newline hm
    simp at hne
  have hsplit := List.takeWhile_append_dropWhile (p := (· != newline)) (l := bs)
  cases hd : bs.dropWhile (· != newline) with
  | nil =>
    rw [hd, List.append_nil] at hsplit
    exact ⟨bs, [], [], by simp, hsplit ▸ hb, Or.inr ⟨rfl, rfl⟩, by simpa using h⟩
  | cons b rest =>
    have hhead := List.head?_dropWhile_not (· != newline) bs
    rw [hd] at hhead
    obtain rfl : b = newline := by simpa using hhead
    refine ⟨bs.takeWhile (· != newline), [newline], rest, ?_, hb, Or.inl rfl, by simp⟩
    rw [hd] at hsplit
    simpa using hsplit.symm

theorem bodyOf_line (hb : newline ∉ body) (he : ending = [newline] ∨ ending = []) :
    bodyOf (body ++ ending) = body := by
  have hall : ∀ b ∈ body, (b != newline) = true := by
    intro b hm
    rw [bne_iff_ne]
    rintro rfl
    exact hb hm
  unfold bodyOf
  rw [List.takeWhile_append_of_pos hall]
  rcases he with rfl | rfl
  · simp
  · simp

theorem chunk_text_line (hb : newline ∉ body) (he : ending = [newline] ∨ ending = [])
    (limit : Nat) : Chunk.text ⟨body ++ ending, limit⟩ = body := by
  unfold Chunk.text
  rcases he with rfl | rfl
  · rw [Session.endsLine_newline]
    simp
  · have hend := Session.endsLine_cut hb body.length limit
    rw [List.take_length] at hend
    rw [List.append_nil, hend]
    rfl

/-- White space may end in a newline. -/
theorem isBlank_line (hending : ending = [newline] ∨ ending = []) :
    isBlank (body ++ ending) = isBlank body := by
  have hblank : ending.all isSpace = true := by
    rcases hending with rfl | rfl <;> decide
  rw [isBlank, List.all_append, hblank, Bool.and_true]
  rfl

end Lines

/-! ## The same output, cut otherwise -/

/-- The events with every write cut into its bytes. -/
def spelled (events : List Event) : List Event :=
  events.flatMap fun
    | .said bytes => bytes.map fun b => .said [b]
    | e => [e]

theorem spelled_append (events events' : List Event) :
    spelled (events ++ events') = spelled events ++ spelled events' := by
  simp [spelled]

theorem spelled_said (bytes : Bytes) : spelled [.said bytes] = bytes.map fun b => .said [b] := by
  simp [spelled]

/-- It does not matter how many writes bring the bytes. -/
theorem spelled_writes (chunks : List Bytes) :
    spelled (chunks.map .said) = spelled [.said chunks.flatten] := by
  induction chunks with
  | nil => rfl
  | cons bytes chunks ih =>
    have hcons : (bytes :: chunks).map Event.said = [.said bytes] ++ chunks.map .said := rfl
    rw [hcons, spelled_append, ih]
    simp only [spelled_said, List.flatten_cons, List.map_append]

/-- What came out can be read off the single bytes. -/
theorem shownIn_spelled (events : List Event) :
    Transcript.shownIn (spelled events) = Transcript.shownIn events := by
  induction events with
  | nil => rfl
  | cons e events ih =>
    have hone : Transcript.shownIn (spelled [e]) = Transcript.shownIn [e] := by
      cases e with
      | said bytes =>
        rw [spelled_said]
        induction bytes with
        | nil => rfl
        | cons b bytes ih => simpa [Transcript.shownIn] using ih
      | printed bytes => simp [spelled]
      | launched order started => simp [spelled]
      | carriedOut raw failure => simp [spelled]
    have hcons : e :: events = [e] ++ events := rfl
    rw [hcons, spelled_append]
    simp only [Transcript.shownIn, List.flatMap_append] at ih hone ⊢
    rw [ih, hone]

namespace Shell

/-- The shells are the same but for the way in which their output was cut into writes. Neither
output has a limit. -/
structure Alike (s t : Shell) : Prop where
  env : s.env = t.env
  system : s.system = t.system
  room : s.transcript.room = none
  room' : t.transcript.room = none
  events : spelled s.transcript.events = spelled t.transcript.events

theorem Alike.shown {s t : Shell} (h : Alike s t) : s.transcript.shown = t.transcript.shown := by
  unfold Transcript.shown
  rw [← shownIn_spelled, h.events, shownIn_spelled]

/-- The shells stay alike if they say the same, cut otherwise. -/
theorem Alike.noteAll {s t : Shell} (h : Alike s t) {events events' : List Event}
    (he : spelled events = spelled events') : Alike (s.noteAll events) (t.noteAll events') where
  env := h.env
  system := h.system
  room := h.room
  room' := h.room'
  events := by
    show spelled (s.transcript.events ++ events) = spelled (t.transcript.events ++ events')
    rw [spelled_append, spelled_append, h.events, he]

/-- All actions keep shells alike. None is ever cut off, for no write fails. -/
theorem alike_pairing : LastingPairing Alike (fun _ _ => False) (fun _ _ => False) where
  env h := h.env
  system h := h.system
  withEnv h env := ⟨rfl, h.system, h.room, h.room', h.events⟩
  withSystem h system := ⟨h.env, rfl, h.room, h.room', h.events⟩
  note {s t} h e _ := by
    have hnoted : Alike (s.noteAll [e]) (t.noteAll [e]) := h.noteAll rfl
    exact hnoted
  say bytes s t h := by
    rw [say_run h.room, say_run h.room']
    exact .ok () (h.noteAll rfl)
  cutSay h := h.elim
  cutNote h := h.elim
  cutOff h := h
  lasts h := h.elim
  fails h := h.elim

/-- Without a limit on the output a failure can be reported. -/
theorem tryCommand_unlimited (programs : Programs) (config : Config) (raw : Bytes) {s : Shell}
    (h : s.transcript.room = none) :
    ∃ s', tryCommand programs config raw s = .ok () s' ∧ s'.transcript.room = none := by
  have hkeeps := (keeps_runCommand programs config raw s).room h
  unfold tryCommand
  cases hr : runCommand programs config raw s with
  | ok u t =>
    rw [hr] at hkeeps
    exact ⟨t, rfl, hkeeps⟩
  | error e t =>
    rw [hr] at hkeeps
    exact ⟨_, say_run hkeeps errorMessage, hkeeps⟩

/-- So nothing breaks off a list of commands. -/
theorem runCommands_unlimited (programs : Programs) (config : Config) (commands : List Bytes) :
    ∀ {s : Shell}, s.transcript.room = none →
      ∃ s', runCommands programs config commands s = .ok () s' := by
  induction commands with
  | nil => exact fun {s} _ => ⟨s, rfl⟩
  | cons raw rest ih =>
    intro s h
    obtain ⟨t, hr, ht⟩ := tryCommand_unlimited programs config raw h
    rw [runCommands_cons_run, hr]
    simp only
    split
    · exact ⟨t, rfl⟩
    · exact ih ht

/-- Without a limit on the output a line is carried out to its end. -/
theorem runLine_unlimited (programs : Programs) (config : Config) (line : Bytes) {s : Shell}
    (h : s.transcript.room = none) :
    ∃ s', runLine programs config line s = .ok () s' ∧ s'.transcript.room = none := by
  obtain ⟨s', hs⟩ := runCommands_unlimited programs config (commandsOf line) h
  have hroom := (keeps_runLine programs config line s).room h
  unfold runLine at hroom ⊢
  rw [hs] at hroom ⊢
  exact ⟨s', rfl, hroom⟩

end Shell

/-! ## Conversations -/

namespace Session

open Shell (Alike)

variable (programs : Programs) (config : Config)

/-- The answer to a line: the prompt and the line, and then the error message if it is too long,
else what its commands do. -/
def answer (line : Bytes) : Action Shell IoError Unit := do
  Shell.say (Bytes.ofString config.prompt)
  Shell.say line
  if max config.lineLimit 1 ≤ (bodyOf line).length then Shell.say errorMessage
  else Shell.runLine programs config (bodyOf line)

/-- Answers to all lines, until the shell is to leave. When there are no more lines, this is an
error. -/
def converse : List Bytes → Action Shell IoError Unit
  | [] => do
    Shell.say (Bytes.ofString config.prompt)
    Shell.say errorMessage
  | line :: lines => do
    answer programs config line
    unless (← get).env.leaving do converse lines

variable {s t : Shell} {pieces : List Piece} {body ending rest : Bytes}

/-- What is said in answer to a line that is too long. -/
theorem answer_long (ht : t.transcript.room = none) (hb : newline ∉ body)
    (he : ending = [newline] ∨ ending = []) (hlong : limitOf config ≤ body.length) :
    answer programs config (body ++ ending) t =
      .ok () (t.noteAll [.said (Bytes.ofString config.prompt), .said (body ++ ending),
        .said errorMessage]) := by
  have hlong' : max config.lineLimit 1 ≤ body.length := hlong
  unfold answer
  simp [bodyOf_line hb he, hlong', Shell.say_run, ht]

theorem answer_short (ht : t.transcript.room = none) (hb : newline ∉ body)
    (he : ending = [newline] ∨ ending = []) (hshort : body.length < limitOf config) :
    answer programs config (body ++ ending) t =
      Shell.runLine programs config body
        (t.noteAll [.said (Bytes.ofString config.prompt), .said (body ++ ending)]) := by
  have hshort' : ¬ max config.lineLimit 1 ≤ body.length := Nat.not_le_of_lt hshort
  unfold answer
  simp [bodyOf_line hb he, hshort', Shell.say_run, ht]

theorem run_of_last_turn {mode : SessionMode} {s s' : Shell × List Piece}
    (h : turn programs config mode s = .ok false s') :
    run programs config mode s = .ok () s' := by
  unfold run
  rw [turns, Action.bind_run, h]
  rfl

/-- At the end of the input the session prompts once more, reports that, and is over. -/
theorem turn_at_end (hs : s.transcript.room = none) (hf : Piece.Faultless pieces)
    (hc : Piece.content pieces = []) :
    ∃ pieces', turn programs config .interactive (s, pieces) = .ok false
      (s.noteAll [.said (Bytes.ofString config.prompt), .said errorMessage], pieces') := by
  have hread := read_run config (s := (s.noteAll (promptOf config .interactive), pieces)) hf
  simp only [hc, takeLine_nil, if_true] at hread
  obtain ⟨pieces', hr, -⟩ := hread
  exact ⟨pieces', turn_of_end programs config (s := (s, pieces)) hs hr⟩

/-- One turn answers one line. -/
theorem turn_answers (h : LineAhead (s, pieces) body ending rest) (hne : body ++ ending ≠ [])
    (hstay : s.env.leaving = false) (halike : Alike s t) :
    ∃ s' pieces' t', turn programs config .interactive (s, pieces) =
        .ok (!s'.env.leaving) (s', pieces') ∧
      Piece.content pieces' = rest ∧ Piece.Faultless pieces' ∧
      answer programs config (body ++ ending) t = .ok () t' ∧ Alike s' t' := by
  have hending : ending = [newline] ∨ ending = [] := h.ending.imp_right And.left
  rcases Nat.lt_or_ge body.length (limitOf config) with hshort | hlong
  · obtain ⟨pieces', hc, hf, hturn⟩ :=
      turn_line programs config h hshort hne (Or.inl rfl)
    have hsaid : Alike (s.noteAll (promptOf config .interactive ++ [.said (body ++ ending)]))
        (t.noteAll [.said (Bytes.ofString config.prompt), .said (body ++ ending)]) :=
      halike.noteAll rfl
    have hline := (Shell.alike_pairing.lastingMatching programs).runLine config body _ _ hsaid
    obtain ⟨s', hs', -⟩ := Shell.runLine_unlimited programs config body hsaid.room
    rw [chunk_text_line h.noNewline hending, hs'] at hturn
    rw [hs'] at hline
    have hanswer := answer_short programs config halike.room' h.noNewline hending hshort
    generalize Shell.runLine programs config body _ = r at hline hanswer
    cases hline with
    | ok u h' => exact ⟨s', pieces', _, hturn, hc, hf, hanswer, h'⟩
  · obtain ⟨chunks, pieces', hturn, hch, hc⟩ :=
      turn_overlong_run programs config h hlong (Or.inl rfl)
    obtain ⟨taken, -, hm⟩ := turn_moves programs config hturn
    refine ⟨s.noteAll (promptOf config .interactive ++ chunks.map .said ++ [.said errorMessage]),
      pieces', _, ?_, hc, hm.consumed.faultless h.faultless,
      answer_long programs config halike.room' h.noNewline hending hlong, halike.noteAll ?_⟩
    · rw [hturn]
      simp [Shell.noteAll, hstay]
    · show spelled ([.said (Bytes.ofString config.prompt)] ++ chunks.map .said ++
          [.said errorMessage]) = spelled ([.said (Bytes.ofString config.prompt)] ++
          [.said (body ++ ending)] ++ [.said errorMessage])
      simp only [spelled_append, spelled_writes, hch]

/-- A session is a conversation about its lines, from shells that are alike. -/
theorem run_alike (n : Nat) : ∀ {s t : Shell} {pieces : List Piece},
    (Piece.content pieces).length ≤ n → Alike s t → s.env.leaving = false →
    Piece.Faultless pieces →
    ∃ s' pieces' t', run programs config .interactive (s, pieces) = .ok () (s', pieces') ∧
      converse programs config (linesOf (Piece.content pieces)) t = .ok () t' ∧ Alike s' t' := by
  -- On a bound for what is left of the input: every line has at least one byte.
  induction n with
  | zero =>
    intro s t pieces hn halike hstay hf
    have hc := List.length_eq_zero_iff.1 (Nat.le_zero.1 hn)
    obtain ⟨pieces', hturn⟩ := turn_at_end programs config halike.room hf hc
    refine ⟨_, pieces', _, run_of_last_turn programs config hturn, ?_, halike.noteAll rfl⟩
    rw [hc]
    simp [linesOf, converse, Shell.say_run, halike.room']
  | succ n ih =>
    intro s t pieces hn halike hstay hf
    by_cases hc : Piece.content pieces = []
    · exact ih (by simp [hc]) halike hstay hf
    obtain ⟨body, ending, rest, hcontent, hb, he, hne⟩ := exists_line hc
    have hahead : LineAhead (s, pieces) body ending rest := ⟨hcontent, hb, he, hf, halike.room⟩
    obtain ⟨s₁, pieces₁, t₁, hturn, hc₁, hf₁, hanswer, halike₁⟩ :=
      turn_answers programs config hahead hne hstay halike
    rw [hcontent, linesOf_line hb he hne, converse, Action.bind_run, hanswer]
    simp only [Action.bind_run, Action.get_run, ← halike₁.env]
    cases hl : s₁.env.leaving with
    | true =>
      rw [hl] at hturn
      exact ⟨s₁, pieces₁, t₁, run_of_last_turn programs config hturn, rfl, halike₁⟩
    | false =>
      rw [hl] at hturn
      have hshorter : (Piece.content pieces₁).length ≤ n :=
        hc₁ ▸ length_le_of_append hcontent hne hn
      obtain ⟨s', pieces', t', hrun, hconverse, halike'⟩ := ih hshorter halike₁ hl hf₁
      refine ⟨s', pieces', t', ?_, ?_, halike'⟩
      · rw [run_eq_of_turn hturn]
        exact hrun
      · rw [hc₁] at hconverse
        exact hconverse

/-- **Interactive sessions.** On an input without faults and an output without a limit, a session of
a shell that is not told to leave already ends well, and does what the conversation about the
lines of its input does. The environment and the system are the same in the end; so is all that
came out, and, but for the cuts between writes, every event in its order. -/
theorem interactive_eq_converse (programs : Programs) (config : Config) (s : Shell)
    (pieces : List Piece) (hroom : s.transcript.room = none) (hstay : s.env.leaving = false)
    (hfaultless : Piece.Faultless pieces) :
    ∃ (s' : Shell) (rest : List Piece) (t : Shell),
      run programs config .interactive (s, pieces) = .ok () (s', rest) ∧
      converse programs config (linesOf (Piece.content pieces)) s = .ok () t ∧
      s'.env = t.env ∧ s'.system = t.system ∧ s'.transcript.shown = t.transcript.shown ∧
      spelled s'.transcript.events = spelled t.transcript.events := by
  obtain ⟨s', rest, t, hrun, hconverse, halike⟩ :=
    run_alike programs config _ (Nat.le_refl (Piece.content pieces).length)
      ⟨rfl, rfl, hroom, hroom, rfl⟩ hstay hfaultless
  exact ⟨s', rest, t, hrun, hconverse, halike.env, halike.system, halike.shown, halike.events⟩

/-- Four lines in three pieces, the second line too long for a read of eight bytes. -/
def dialogue : List Piece :=
  [.bytes (Bytes.ofString "pw"), .interruption, .bytes (Bytes.ofString "d\nseveral wo"),
    .bytes (Bytes.ofString "rds\nexit\npwd\n")]

/-- The session and the conversation both end behind the third line. -/
theorem dialogue_conversed :
    Piece.Faultless dialogue ∧
    ∃ (s' : Shell) (rest : List Piece) (t : Shell),
      run Shell.idle narrow .interactive (Shell.atRoot .empty, dialogue) = .ok () (s', rest) ∧
      converse Shell.idle narrow (linesOf (Piece.content dialogue)) (Shell.atRoot .empty) =
        .ok () t ∧
      s'.env = t.env ∧ t.env.leaving = true ∧ s'.transcript.shown = t.transcript.shown ∧
      t.transcript.shown = Bytes.ofString ("myshell> pwd\n/\n" ++
        "myshell> several words\nAn error has occurred\n" ++ "myshell> exit\n") := by
  have hf : Piece.Faultless dialogue := fun cause hm => by simp [dialogue] at hm
  obtain ⟨s', rest, t, hrun, hconverse, henv, -, hshown, -⟩ :=
    interactive_eq_converse Shell.idle narrow (Shell.atRoot .empty) dialogue rfl rfl hf
  refine ⟨hf, s', rest, t, hrun, hconverse, henv, ?_, hshown, ?_⟩
  · cases hconverse
    decide
  · cases hconverse
    decide

end Session

end LineShell
