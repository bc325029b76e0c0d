import LineShell.Echo
import LineShell.Proofs.Chunking
import LineShell.Proofs.LogicalLines

/-!
# Reads and discards

A reader of lines is asked for the next chunk, or to echo the rest of the line, in any order. No
byte of its input is lost by that, and none comes out twice.

* `echoPieces_passOver`: the rest of a line is echoed as a session passes over it. So it is echoed
  through the end of the line (`echoPieces_run`).
* `Demand.answer`: the bytes that one demand brings out. `answer_consumes`: just these are gone from
  the input. `answers_consume`: and so it is with demands that follow each other.
* `exists_front`: where in the lines of an input a byte stands.
* `discard_drains`: behind an overlong chunk a discard ends the line, wherever it stands.
* `answers_conserve`: what comes out and what is left make up the input; and behind an overlong
  chunk the rest of its line comes out, and the next read begins with the next line.
-/
namespace LineShell

open Bytes (newline)
open Shell (atRoot idle)

/-! ## The echo of pieces -/

/-- The outcome, with another view of the state. -/
def Action.seenAs {σ τ ε α : Type} (view : σ → τ) :
    EStateM.Result ε σ α → EStateM.Result ε τ α
  | .ok a s => .ok a (view s)
  | .error e s => .error e (view s)

section Echo

open LineShell.Action (seenAs)

/-- A view of the state in which reads and echoes are the same shows the same echo of a rest. -/
theorem echoRest_seenAs {ρ τ : Type} (view : ρ → τ)
    {read : Action ρ IoError (Option Chunk)} {read' : Action τ IoError (Option Chunk)}
    {echo : Bytes → Action ρ IoError Unit} {echo' : Bytes → Action τ IoError Unit}
    (hread : ∀ s, read' (view s) = seenAs view (read s))
    (hecho : ∀ bytes s, echo' bytes (view s) = seenAs view (echo bytes s)) (fuel : Nat) (s : ρ) :
    echoRest read' echo' fuel (view s) = seenAs view (echoRest read echo fuel s) := by
  induction fuel generalizing s with
  | zero => rfl
  | succ fuel ih =>
    rw [echoRest, echoRest, Action.bind_run, Action.bind_run, hread]
    cases read s with
    | error e s₁ => rfl
    | ok chunk s₁ =>
      cases chunk with
      | none => rfl
      | some chunk =>
        simp only [seenAs, Action.bind_run, hecho]
        cases echo chunk.bytes s₁ with
        | error e s₂ => rfl
        | ok u s₂ =>
          cases chunk.endsLine with
          | true => rfl
          | false => exact ih s₂

/-- A read of pieces beside a transcript. -/
def readBeside (limit : Nat) : Action (List Piece × Transcript) IoError (Option Chunk) := fun s =>
  match readChunk limit s.1 with
  | (.ok chunk, rest) => .ok chunk (rest, s.2)
  | (.error e, rest) => .error e (rest, s.2)

/-- An echo into a transcript beside pieces. -/
def echoBeside (bytes : Bytes) : Action (List Piece × Transcript) IoError Unit := fun s =>
  match s.2.say bytes with
  | (.ok (), t) => .ok () (s.1, t)
  | (.error e, t) => .error e (s.1, t)

theorem echoPieces_eq (limit : Nat) (room : Option Nat) (pieces : List Piece) :
    echoPieces limit room pieces =
      match echoRest (readBeside limit) echoBeside (Supply.size pieces + 1) (pieces, { room }) with
      | .ok () (rest, t) => (.ok (), t, rest)
      | .error e (rest, t) => (.error e, t, rest) := rfl

/-- A session in which nothing has happened but the transcript. -/
def scribe (s : List Piece × Transcript) : Shell × List Piece :=
  ({ atRoot .empty with transcript := s.2 }, s.1)

theorem read_scribe (limit : Nat) (s : List Piece × Transcript) :
    Session.read { lineLimit := limit } (scribe s) = seenAs scribe (readBeside limit s) := by
  unfold Session.read readBeside scribe
  simp only [readChunk_beside]
  rcases readChunk limit s.1 with ⟨e | chunk, rest⟩
  · rfl
  · rfl

theorem say_scribe (bytes : Bytes) (s : List Piece × Transcript) :
    Session.onShell (Shell.say bytes) (scribe s) = seenAs scribe (echoBeside bytes s) := by
  unfold Session.onShell Shell.say echoBeside scribe
  rcases s.2.say bytes with ⟨e | u, t⟩
  · rfl
  · rfl

/-- Outside a session the rest of a line is echoed as a session passes over it. -/
theorem echoPieces_passOver (limit : Nat) (room : Option Nat) (pieces : List Piece) :
    Session.passOver { lineLimit := limit } (scribe (pieces, { room })) =
      match echoPieces limit room pieces with
      | (.ok (), t, rest) => .ok () (scribe (rest, t))
      | (.error e, t, rest) => .error e (scribe (rest, t)) := by
  have hpass : Session.passOver { lineLimit := limit } (scribe (pieces, { room })) =
      echoRest (Session.read { lineLimit := limit })
        (fun bytes => Session.onShell (Shell.say bytes)) (Supply.size pieces + 1)
        (scribe (pieces, { room })) := rfl
  rw [hpass, echoRest_seenAs scribe (read_scribe limit) say_scribe, echoPieces_eq]
  rcases echoRest (readBeside limit) echoBeside (Supply.size pieces + 1) (pieces, { room }) with
    ⟨u, rest, t⟩ | ⟨e, rest, t⟩
  · rfl
  · rfl

theorem saidIn_writes (chunks : List Bytes) :
    Transcript.saidIn (chunks.map .said) = chunks.flatten := by
  induction chunks with
  | nil => rfl
  | cons bytes chunks ih => rw [List.map_cons, List.flatten_cons, ← ih]; rfl

/-- Without a limit on the output the rest of a line comes out whole, through its newline or to the
end of the input. -/
theorem echoPieces_run (limit : Nat) {pieces : List Piece} {body ending rest : Bytes}
    (hf : Piece.Faultless pieces) (hc : Piece.content pieces = body ++ ending ++ rest)
    (hb : newline ∉ body) (he : ending = [newline] ∨ ending = [] ∧ rest = []) :
    ∃ t pieces', echoPieces limit none pieces = (.ok (), t, pieces') ∧
      t.said = body ++ ending ∧ Piece.content pieces' = rest ∧ Piece.Faultless pieces' := by
  have hahead : Session.LineAhead (scribe (pieces, {})) body ending rest := ⟨hc, hb, he, hf, rfl⟩
  obtain ⟨chunks, pieces', hpass, hch, hrest⟩ :=
    Session.passOver_run { lineLimit := limit } hahead
  obtain ⟨taken, hmoves⟩ :=
    (Session.steady_pervasive idle { lineLimit := limit }).passOver _ _ _ hpass
  rw [echoPieces_passOver] at hpass
  rcases hecho : echoPieces limit none pieces with ⟨e | u, t, unread⟩
  · rw [hecho] at hpass
    cases hpass
  · rw [hecho] at hpass
    obtain ⟨hshell, rfl⟩ := Prod.mk.inj (EStateM.Result.ok.inj hpass).2
    have hsaid : t.said = Transcript.saidIn (chunks.map .said) :=
      congrArg (fun s => s.transcript.said) hshell
    rw [saidIn_writes, hch] at hsaid
    exact ⟨t, unread, rfl, hsaid, hrest, hmoves.consumed.faultless hf⟩

end Echo

/-! ## Demands -/

/-- What a reader of lines can be asked for. -/
inductive Demand
  /-- The next chunk. -/
  | read
  /-- To echo the rest of the line. -/
  | discard
  deriving DecidableEq, Repr

/-- The bytes of the chunk that was read, or those that were echoed, and what is left of the input.
The echo has no limit. -/
def Demand.answer (limit : Nat) : Demand → List Piece → Except IoError Bytes × List Piece
  | .read, pieces =>
    match readChunk limit pieces with
    | (.ok chunk, rest) => (.ok (chunk.elim [] Chunk.bytes), rest)
    | (.error e, rest) => (.error e, rest)
  | .discard, pieces =>
    match echoPieces limit none pieces with
    | (.ok (), t, rest) => (.ok t.said, rest)
    | (.error e, _, rest) => (.error e, rest)

/-- The answers to demands that follow each other. -/
def answers (limit : Nat) : List Demand → List Piece → List (Except IoError Bytes) × List Piece
  | [], pieces => ([], pieces)
  | demand :: demands, pieces =>
    let (given, rest) := demand.answer limit pieces
    let (more, rest') := answers limit demands rest
    (given :: more, rest')

section Answers

variable {limit : Nat} {pieces : List Piece}

/-- An input goes on with a line, which is empty only at its end. -/
theorem exists_rest (bs : Bytes) :
    ∃ body ending rest : Bytes, bs = body ++ ending ++ rest ∧ newline ∉ body ∧
      (ending = [newline] ∨ ending = [] ∧ rest = []) := by
  by_cases h : bs = []
  · exact ⟨[], [], [], h, by simp, Or.inr ⟨rfl, rfl⟩⟩
  · obtain ⟨body, ending, rest, hbs, hb, he, -⟩ := exists_line h
    exact ⟨body, ending, rest, hbs, hb, he⟩

/-- What a demand brings out is gone from the front of the input. -/
theorem answer_consumes (limit : Nat) (demand : Demand) (hf : Piece.Faultless pieces) :
    ∃ given rest, demand.answer limit pieces = (.ok given, rest) ∧
      Piece.Consumed pieces rest given := by
  cases demand with
  | read =>
    obtain ⟨rest, hr, hc⟩ := readChunk_pieces hf limit
    refine ⟨_, rest, ?_, hc⟩
    simp only [Demand.answer, hr]
    split
    · rename_i h
      rw [h]
      rfl
    · rfl
  | discard =>
    obtain ⟨body, ending, rest, hbs, hb, he⟩ := exists_rest (Piece.content pieces)
    obtain ⟨t, pieces', hecho, hsaid, hrest, hf'⟩ := echoPieces_run limit hf hbs hb he
    refine ⟨body ++ ending, pieces', ?_, by rw [hbs, hrest], fun _ => hf'⟩
    simp only [Demand.answer, hecho, hsaid]

/-- And so is what demands bring out that follow each other. -/
theorem answers_consume (limit : Nat) (demands : List Demand) (hf : Piece.Faultless pieces) :
    ∃ (given : List Bytes) (rest : List Piece),
      answers limit demands pieces = (given.map .ok, rest) ∧
      Piece.Consumed pieces rest given.flatten := by
  induction demands generalizing pieces with
  | nil => exact ⟨[], pieces, rfl, .refl pieces⟩
  | cons demand demands ih =>
    obtain ⟨bytes, rest, ha, hc⟩ := answer_consumes limit demand hf
    obtain ⟨given, rest', has, hcs⟩ := ih (hc.faultless hf)
    refine ⟨bytes :: given, rest', ?_, hc.trans hcs⟩
    rw [answers, ha, List.map_cons]
    simp only [has]

end Answers

/-! ## Lines behind what was read -/

/-- Behind any bytes of an input there is a place in one of its lines: some lines are complete, and
of the next one there is a part, which has no newline. -/
theorem exists_front (bs : Bytes) :
    ∃ (before : List Bytes) (front : Bytes), bs = before.flatten ++ front ∧ newline ∉ front ∧
      ∀ rest, linesOf (bs ++ rest) = before ++ linesOf (front ++ rest) := by
  induction bs with
  | nil => exact ⟨[], [], rfl, by simp, fun rest => rfl⟩
  | cons b bs ih =>
    obtain ⟨before, front, hbs, hfront, hlines⟩ := ih
    by_cases hb : b = newline
    · refine ⟨[b] :: before, front, by simp [hbs], hfront, fun rest => ?_⟩
      rw [List.cons_append, linesOf, if_pos hb, hlines, List.cons_append]
    cases before with
    | nil =>
      refine ⟨[], b :: front, by simp [hbs], ?_, fun rest => by simp [hbs]⟩
      rw [List.mem_cons, not_or]
      exact ⟨fun e => hb e.symm, hfront⟩
    | cons line lines =>
      refine ⟨(b :: line) :: lines, front, by simp [hbs], hfront, fun rest => ?_⟩
      rw [List.cons_append, linesOf, if_neg hb, hlines, List.cons_append, List.cons_append]

/-- A bounded read takes from the first line as much as there is room for. -/
theorem takeLine_first (room : Nat) (bs : Bytes) :
    takeLine room bs = ((linesOf bs).head?.getD []).take room := by
  induction room generalizing bs with
  | zero => rfl
  | succ room ih =>
    cases bs with
    | nil => rfl
    | cons b bs =>
      by_cases hb : b = newline
      · simp [takeLine, linesOf, hb]
      rw [takeLine, linesOf, if_neg hb, if_neg hb, ih]
      cases linesOf bs with
      | nil => rfl
      | cons line lines => rfl

/-- A read gives the first chunk of the first line, or nothing if there is no line. -/
theorem readChunk_first (limit : Nat) {pieces : List Piece} (hf : Piece.Faultless pieces) :
    (readChunk limit pieces).1 = .ok ((linesOf (Piece.content pieces)).head?.map fun line =>
      ⟨line.take (effectiveLimit limit), effectiveLimit limit⟩) := by
  obtain ⟨rest, hr, -⟩ := readChunk_pieces hf limit
  have hfirst := takeLine_first (effectiveLimit limit) (Piece.content pieces)
  rw [hr]
  cases hl : linesOf (Piece.content pieces) with
  | nil =>
    rw [hl] at hfirst
    rw [if_pos (hfirst.trans List.take_nil)]
    rfl
  | cons line lines =>
    have hne : Piece.content pieces ≠ [] := fun e => by rw [e] at hl; cases hl
    rw [if_neg ((takeLine_longestFit _ _).ne_nil (effectiveLimit_pos limit) hne), hfirst, hl]
    rfl

/-! ## Conservation -/

/-- An overlong chunk is full of bytes of its line, and the newline is still to come. -/
theorem readChunk_overlong {limit : Nat} {pieces unread : List Piece} {chunk : Chunk}
    (hf : Piece.Faultless pieces) (hr : readChunk limit pieces = (.ok (some chunk), unread))
    (hover : chunk.isOverlong = true) :
    Piece.Consumed pieces unread chunk.bytes ∧ chunk.bytes ≠ [] ∧ newline ∉ chunk.bytes := by
  obtain ⟨rest, hr', hc⟩ := readChunk_pieces hf limit
  rw [hr] at hr'
  split at hr'
  · cases hr'
  · rename_i hne
    cases hr'
    have hfits := (takeLine_longestFit (effectiveLimit limit) (Piece.content pieces)).fits
    exact ⟨hc, hne, hfits.noNewline ((isOverlong_iff hfits).1 hover).2⟩

/-- Some bytes of the input are gone, and then an overlong chunk is read. A discard ends its
line. -/
theorem discard_drains {limit : Nat} {pieces unread : List Piece} {chunk : Chunk} (gone : Bytes)
    (hf : Piece.Faultless pieces) (hr : readChunk limit pieces = (.ok (some chunk), unread))
    (hover : chunk.isOverlong = true) :
    ∃ (before after : List Bytes) (front echoed : Bytes) (behind : List Piece),
      linesOf (gone ++ Piece.content pieces) =
        before ++ (front ++ chunk.bytes ++ echoed) :: after ∧
      gone = before.flatten ++ front ∧
      Demand.discard.answer limit unread = (.ok echoed, behind) ∧
      Piece.content behind = after.flatten ∧
      (readChunk limit behind).1 = .ok (after.head?.map fun line =>
        ⟨line.take (effectiveLimit limit), effectiveLimit limit⟩) := by
  obtain ⟨hchunk, hne, hnew⟩ := readChunk_overlong hf hr hover
  obtain ⟨before, front, hfront, hnew', hlines⟩ := exists_front gone
  obtain ⟨body, ending, rest, hunread, hb, he⟩ := exists_rest (Piece.content unread)
  obtain ⟨t, behind, hecho, hsaid, hbehind, hf'⟩ :=
    echoPieces_run limit (hchunk.faultless hf) hunread hb he
  -- the part of the line that is gone, the chunk and the echo are the line
  have hline : linesOf (front ++ Piece.content pieces) =
      (front ++ chunk.bytes ++ (body ++ ending)) :: linesOf rest := by
    have hnone : newline ∉ front ++ chunk.bytes ++ body := by
      simp only [List.mem_append, not_or]
      exact ⟨⟨hnew', hnew⟩, hb⟩
    have hfirst : linesOf (front ++ chunk.bytes ++ body ++ ending ++ rest) =
        (front ++ chunk.bytes ++ body ++ ending) :: linesOf rest :=
      linesOf_line hnone he (by simp [hne])
    rw [hchunk.content, hunread]
    simpa only [List.append_assoc] using hfirst
  refine ⟨before, linesOf rest, front, body ++ ending, behind, ?_, hfront, ?_, ?_, ?_⟩
  · rw [hlines, hline]
  · simp only [Demand.answer, hecho, hsaid]
  · rw [hbehind, linesOf_flatten]
  · rw [readChunk_first limit hf', hbehind]

/-- **Nothing is lost, and nothing comes out twice.** Reads and discards of an input without faults
follow each other in any order. What they return and what they echo, in their order, and what is
left behind them, make up the input. If the next read gives an overlong chunk, a discard behind it
echoes just what its line has behind the chunk; what is left then are the lines behind this one;
and so the next read gives the first chunk of the next line, or nothing if there is none. -/
theorem answers_conserve (limit : Nat) (demands : List Demand) {pieces : List Piece}
    (hf : Piece.Faultless pieces) :
    ∃ (given : List Bytes) (rest : List Piece),
      answers limit demands pieces = (given.map .ok, rest) ∧
      given.flatten ++ Piece.content rest = Piece.content pieces ∧
      ∀ chunk unread, readChunk limit rest = (.ok (some chunk), unread) →
        chunk.isOverlong = true →
        ∃ (before after : List Bytes) (front echoed : Bytes) (behind : List Piece),
          linesOf (Piece.content pieces) = before ++ (front ++ chunk.bytes ++ echoed) :: after ∧
          given.flatten = before.flatten ++ front ∧
          Demand.discard.answer limit unread = (.ok echoed, behind) ∧
          Piece.content behind = after.flatten ∧
          (readChunk limit behind).1 = .ok (after.head?.map fun line =>
            ⟨line.take (max limit 1), max limit 1⟩) := by
  obtain ⟨given, rest, hgiven, hc⟩ := answers_consume limit demands hf
  refine ⟨given, rest, hgiven, hc.content.symm, fun chunk unread hr hover => ?_⟩
  have hdrained := discard_drains given.flatten (hc.faultless hf) hr hover
  rw [← hc.content] at hdrained
  exact hdrained

/-- Three lines, the second too long for a read of four bytes, in pieces with interruptions. -/
def tornLines : List Piece :=
  [.interruption, .bytes (Bytes.ofString "a"), .bytes (Bytes.ofString "b\ncd"),
    .interruption, .bytes (Bytes.ofString "efgh\ni"), .bytes (Bytes.ofString "j\n")]

/-- Behind the first line a read is overlong, the rest of its line comes out, and the next read
gives the third line. -/
theorem tornLines_conserved :
    Piece.Faultless tornLines ∧ ∃ rest unread behind : List Piece,
      answers 4 [.read] tornLines = ([.ok (Bytes.ofString "ab\n")], rest) ∧
      readChunk 4 rest = (.ok (some ⟨Bytes.ofString "cdef", 4⟩), unread) ∧
      Chunk.isOverlong ⟨Bytes.ofString "cdef", 4⟩ = true ∧
      Demand.discard.answer 4 unread = (.ok (Bytes.ofString "gh\n"), behind) ∧
      (readChunk 4 behind).1 = .ok (some ⟨Bytes.ofString "ij\n", 4⟩) := by
  have hf : Piece.Faultless tornLines := fun cause hm => by simp [tornLines] at hm
  obtain ⟨given, rest, hgiven, -, hdrained⟩ := answers_conserve 4 [.read] hf
  have hfirst : answers 4 [.read] tornLines = ([.ok (Bytes.ofString "ab\n")],
      [.bytes (Bytes.ofString "cd"), .interruption, .bytes (Bytes.ofString "efgh\ni"),
        .bytes (Bytes.ofString "j\n")]) := rfl
  obtain ⟨-, rfl⟩ := Prod.mk.inj (hfirst.symm.trans hgiven)
  obtain ⟨-, -, -, echoed, behind, -, -, hechoed, -, -⟩ :=
    hdrained ⟨Bytes.ofString "cdef", 4⟩
      [.bytes (Bytes.ofString "gh\ni"), .bytes (Bytes.ofString "j\n")] rfl (by decide)
  cases hechoed
  exact ⟨hf, _, _, _, hfirst, rfl, by decide, rfl, rfl⟩

end LineShell
