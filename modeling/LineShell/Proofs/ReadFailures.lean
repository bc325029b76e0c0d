import LineShell.Proofs.Chunking
import LineShell.Proofs.LogicalLines

/-!
# Reads that fail

An input may fail once, behind some of its bytes. The read that meets the fault gives nothing, and
what it had taken is lost.

* `Complete`, `Unfinished`: the chunks that a read takes whatever follows them, and the bytes behind
  which a read wants more.
* `Gives`: the chunks that reads give one after the other. An input with a fault gives the chunks of
  what stands in front of the fault, and then fails on what is unfinished (`gives_before_fault`). An
  input of just these chunks gives them too, and then nothing (`gives_complete`).
* `turn_takes`, `run_takes`: turns depend on the chunks that they take, and on nothing else of the
  input. So two inputs that give the same chunks have the same session up to their ends.
* `BreaksOff`: where a session stands when a read of its input fails.
* `read_failure`: a session that comes to the fault has done what it does on the input without the
  bytes of the read that failed.
-/
namespace LineShell

open Bytes (newline)

/-! ## Chunks in front of a fault -/

/-- A read takes the chunk whatever follows it: it fits, and is full or ends with a newline. -/
structure Complete (limit : Nat) (c : Bytes) : Prop where
  fits : Fits limit c
  ends : c.length = limit ∨ c.getLast? = some newline

/-- A read that has taken these bytes wants more. -/
structure Unfinished (limit : Nat) (bs : Bytes) : Prop where
  short : bs.length < limit
  noNewline : newline ∉ bs

section Complete

variable {limit : Nat} {c bs : Bytes} {b : UInt8}

theorem Complete.cons (hb : b ≠ newline) (h : Complete limit c) :
    Complete (limit + 1) (b :: c) where
  fits := fits_cons hb h.fits
  ends := by
    rcases h.ends with hfull | hnew
    · exact Or.inl (congrArg (· + 1) hfull)
    · right
      rw [List.getLast?_cons, hnew]
      rfl

theorem Unfinished.cons (hb : b ≠ newline) (h : Unfinished limit bs) :
    Unfinished (limit + 1) (b :: bs) where
  short := Nat.succ_lt_succ h.short
  noNewline := by
    rw [List.mem_cons, not_or]
    exact ⟨fun e => hb e.symm, h.noNewline⟩

/-- A complete chunk is taken whatever follows it. -/
theorem Complete.takeLine (h : Complete limit c) (rest : Bytes) :
    takeLine limit (c ++ rest) = c := by
  refine LongestFit.unique ⟨List.prefix_append c rest, h.fits, fun c' hp hf => ?_⟩
    (takeLine_longestFit limit (c ++ rest))
  rcases h.ends with hfull | hnew
  · exact hfull ▸ hf.1
  · -- a longer beginning has the newline in its middle
    apply Nat.le_of_not_lt
    intro hlt
    obtain ⟨more, rfl⟩ := List.prefix_of_prefix_length_le (List.prefix_append c rest) hp
      (Nat.le_of_lt hlt)
    have hmore : more ≠ [] := by
      rintro rfl
      simp at hlt
    refine hf.2 ?_
    rw [List.dropLast_append_of_ne_nil hmore]
    exact List.mem_append_left _ (List.mem_of_getLast? hnew)

theorem Complete.ne_nil (h : Complete limit c) (hl : 0 < limit) :
    c ≠ [] := by
  rintro rfl
  rcases h.ends with he | he
  · exact absurd he (Nat.ne_of_lt hl)
  · cases he

/-- A complete chunk is overlong unless it ends its line. -/
theorem Complete.isOverlong (h : Complete limit c) :
    Chunk.isOverlong ⟨c, limit⟩ = !Chunk.endsLine ⟨c, limit⟩ := by
  unfold Chunk.isOverlong
  rcases h.ends with he | he
  · simp [he]
  · simp [Chunk.endsLine, he]

end Complete

namespace Piece

variable {before rest : List Piece} {b : UInt8}

theorem next_append_byte (h : next before = .byte b rest) (more : List Piece) :
    next (before ++ more) = .byte b (rest ++ more) := by
  fun_induction next before with
  | case1 => cases h
  | case2 c bs pieces => cases h; cases bs <;> rfl
  | case3 pieces ih => exact ih h
  | case4 cause pieces => cases h

theorem next_append_finish (h : next before = .finish rest) (more : List Piece) :
    next (before ++ more) = next more := by
  fun_induction next before with
  | case1 => rfl
  | case2 c bs pieces => cases h
  | case3 pieces ih => exact ih h
  | case4 cause pieces => cases h

end Piece

section Fault

variable {before : List Piece}

theorem readBytes_fault (cause : IoError) (behind : List Piece) (hf : Piece.Faultless before)
    (room : Nat) :
    (Complete room (takeLine room (Piece.content before)) ∧
      ∃ unread, Piece.Consumed before unread (takeLine room (Piece.content before)) ∧
        readBytes room (before ++ .fault cause :: behind) =
          (.ok (takeLine room (Piece.content before)), unread ++ .fault cause :: behind)) ∨
    (Unfinished room (Piece.content before) ∧
      readBytes room (before ++ .fault cause :: behind) = (.error cause, behind)) := by
  induction room generalizing before with
  | zero => exact Or.inl ⟨⟨fits_nil 0, Or.inl rfl⟩, before, .refl before, rfl⟩
  | succ room ih =>
    simp only [readBytes, Piece.supply_next]
    rcases Piece.next_faultless hf with ⟨b, rest, hn, hf'⟩ | hn
    · have hb := Piece.next_consumed hn
      rw [Piece.next_append_byte hn, Piece.content_byte hn]
      simp only [takeLine]
      by_cases hnew : b = newline
      · rw [if_pos hnew, if_pos hnew, hnew]
        rw [hnew] at hb
        exact Or.inl ⟨⟨⟨by simp, by simp⟩, Or.inr rfl⟩, rest, hb, rfl⟩
      · rw [if_neg hnew, if_neg hnew]
        rcases ih hf' with ⟨hc, unread, hconsumed, hr⟩ | ⟨hu, hr⟩
        · exact Or.inl ⟨hc.cons hnew, unread, hb.trans hconsumed, by rw [hr]⟩
        · exact Or.inr ⟨hu.cons hnew, by rw [hr]⟩
    · rw [Piece.next_append_finish hn, (Piece.finish_eq_nil hn).2]
      exact Or.inr ⟨⟨Nat.succ_pos room, by simp⟩, rfl⟩

/-- A read in front of a fault takes a complete chunk, or it fails and takes the fault away. -/
theorem readChunk_fault (cause : IoError) (behind : List Piece) (hf : Piece.Faultless before)
    (limit : Nat) :
    (∃ c unread, Complete (effectiveLimit limit) c ∧ Piece.Consumed before unread c ∧
      readChunk limit (before ++ .fault cause :: behind) =
        (.ok (some ⟨c, effectiveLimit limit⟩), unread ++ .fault cause :: behind)) ∨
    (Unfinished (effectiveLimit limit) (Piece.content before) ∧
      readChunk limit (before ++ .fault cause :: behind) = (.error cause, behind)) := by
  rw [readChunk_bytewise]
  rcases readBytes_fault cause behind hf (effectiveLimit limit) with
    ⟨hc, unread, hconsumed, hr⟩ | ⟨hu, hr⟩
  · refine Or.inl ⟨_, unread, hc, hconsumed, ?_⟩
    have hne := hc.ne_nil (effectiveLimit_pos limit)
    rw [hr]
    generalize takeLine (effectiveLimit limit) (Piece.content before) = c at hne
    cases c with
    | nil => exact absurd rfl hne
    | cons b c => rfl
  · exact Or.inr ⟨hu, by rw [hr]⟩

end Fault

/-! ## Chunks that reads give -/

/-- Reads of the pieces, one after the other, give the chunks in order and leave `rest`. -/
inductive Gives (limit : Nat) : List Piece → List Bytes → List Piece → Prop
  | done (pieces : List Piece) : Gives limit pieces [] pieces
  | chunk {pieces unread rest : List Piece} {c : Bytes} {cs : List Bytes} :
      readChunk limit pieces = (.ok (some ⟨c, effectiveLimit limit⟩), unread) →
      Gives limit unread cs rest → Gives limit pieces (c :: cs) rest

section Gives

variable {limit : Nat} {pieces before behind rest : List Piece} {cause : IoError}
  {c : Bytes} {cs cs' : List Bytes}

theorem gives_append : Gives limit pieces (cs ++ cs') rest ↔
    ∃ unread, Gives limit pieces cs unread ∧ Gives limit unread cs' rest := by
  constructor
  · intro h
    induction cs generalizing pieces with
    | nil => exact ⟨pieces, .done pieces, h⟩
    | cons c cs ih =>
      cases h with
      | chunk hr h =>
        obtain ⟨unread, h₁, h₂⟩ := ih h
        exact ⟨unread, .chunk hr h₁, h₂⟩
  · rintro ⟨unread, h₁, h₂⟩
    induction h₁ with
    | done pieces => exact h₂
    | chunk hr _ ih => exact .chunk hr (ih h₂)

theorem gives_one : Gives limit pieces [c] rest ↔
    readChunk limit pieces = (.ok (some ⟨c, effectiveLimit limit⟩), rest) := by
  constructor
  · intro h
    cases h with
    | chunk hr hdone =>
      cases hdone with
      | done => exact hr
  · exact fun hr => .chunk hr (.done rest)

/-- A chunk is gone from the front of the pieces. -/
theorem readChunk_content {unread : List Piece}
    (h : readChunk limit pieces = (.ok (some ⟨c, effectiveLimit limit⟩), unread)) :
    Piece.Consumed pieces unread c ∧ c ≠ [] := by
  have hbeside := readChunk_beside limit pieces { files := .empty }
  rw [h] at hbeside
  obtain ⟨-, taken, hconsumed, hchunk⟩ := readChunk_consumes hbeside
  obtain ⟨rfl, hne⟩ := hchunk _ rfl
  exact ⟨hconsumed, hne⟩

theorem Gives.length_le (h : Gives limit pieces cs rest) :
    cs.length ≤ (Piece.content pieces).length := by
  induction h with
  | done pieces => exact Nat.zero_le _
  | chunk hr _ ih =>
    obtain ⟨hconsumed, hne⟩ := readChunk_content hr
    have hpos := List.length_pos_iff.2 hne
    rw [hconsumed.content, List.length_append, List.length_cons]
    omega

/-- In front of a fault reads give complete chunks, and fail on what is left. -/
theorem gives_before_fault (limit : Nat) (cause : IoError) (behind : List Piece)
    (hf : Piece.Faultless before) :
    ∃ cs unread, Gives limit (before ++ .fault cause :: behind) cs
        (unread ++ .fault cause :: behind) ∧
      Piece.Consumed before unread cs.flatten ∧ (∀ c ∈ cs, Complete (effectiveLimit limit) c) ∧
      Unfinished (effectiveLimit limit) (Piece.content unread) ∧
      readChunk limit (unread ++ .fault cause :: behind) = (.error cause, behind) := by
  -- on the length of what stands in front of the fault: a chunk has at least one byte
  induction hn : (Piece.content before).length using Nat.strongRecOn generalizing before with
  | ind n ih =>
    rcases readChunk_fault cause behind hf limit with
      ⟨c, unread, hc, hconsumed, hr⟩ | ⟨hu, hr⟩
    · have hpos := List.length_pos_iff.2 (hc.ne_nil (effectiveLimit_pos limit))
      have hlen := congrArg List.length hconsumed.content
      rw [List.length_append] at hlen
      obtain ⟨cs, unread', hgives, hconsumed', hcs, hu, hlast⟩ :=
        ih (Piece.content unread).length (by omega) (hconsumed.faultless hf) rfl
      refine ⟨c :: cs, unread', .chunk hr hgives, ?_, ?_, hu, hlast⟩
      · exact hconsumed.trans hconsumed'
      · exact List.forall_mem_cons.2 ⟨hc, hcs⟩
    · exact ⟨[], before, .done _, .refl before, by simp, hu, hr⟩

/-- So what is left behind some of the chunks still has the fault. -/
theorem Gives.unread (h : Gives limit (before ++ .fault cause :: behind) cs rest)
    (hf : Piece.Faultless before) :
    ∃ unread, rest = unread ++ .fault cause :: behind ∧
      Piece.Consumed before unread cs.flatten := by
  induction cs generalizing before with
  | nil =>
    cases h with
    | done => exact ⟨before, rfl, .refl before⟩
  | cons c cs ih =>
    cases h with
    | chunk hr h =>
      rcases readChunk_fault cause behind hf limit with
        ⟨c', unread, -, hconsumed, hr'⟩ | ⟨-, hr'⟩
      · rw [hr'] at hr
        cases hr
        obtain ⟨unread', hrest, hconsumed'⟩ := ih h (hconsumed.faultless hf)
        exact ⟨unread', hrest, hconsumed.trans hconsumed'⟩
      · rw [hr'] at hr
        cases hr

/-- An input of complete chunks gives just these, in whatever pieces it comes. -/
theorem gives_complete (hcs : ∀ c ∈ cs, Complete (effectiveLimit limit) c)
    (hf : Piece.Faultless pieces) (hcontent : Piece.content pieces = cs.flatten) :
    ∃ rest, Gives limit pieces cs rest ∧ Piece.Faultless rest ∧ Piece.content rest = [] := by
  induction cs generalizing pieces with
  | nil => exact ⟨pieces, .done pieces, hf, hcontent⟩
  | cons c cs ih =>
    obtain ⟨hc, hcs⟩ := List.forall_mem_cons.1 hcs
    obtain ⟨unread, hr, hconsumed⟩ := readChunk_pieces hf limit
    have htake : takeLine (effectiveLimit limit) (Piece.content pieces) = c := by
      rw [hcontent, List.flatten_cons]
      exact hc.takeLine cs.flatten
    rw [htake] at hr hconsumed
    rw [if_neg (hc.ne_nil (effectiveLimit_pos limit))] at hr
    have hleft : Piece.content unread = cs.flatten := by
      have hsplit := hconsumed.content
      rw [hcontent, List.flatten_cons] at hsplit
      exact (List.append_cancel_left hsplit).symm
    obtain ⟨rest, hgives, hend⟩ := ih hcs (hconsumed.faultless hf) hleft
    exact ⟨rest, .chunk hr hgives, hend⟩

end Gives

/-! ## Turns on chunks -/

namespace Session

variable {programs : Programs} {config : Config} {mode : SessionMode} {u : Shell}
  {pieces rest : List Piece} {c : Bytes} {cs : List Bytes}

theorem read_gives {chunk : Option Chunk}
    (h : readChunk config.lineLimit pieces = (.ok chunk, rest)) (u : Shell) :
    read config (u, pieces) = .ok chunk (u, rest) := by
  unfold read
  rw [readChunk_beside, h]

theorem read_fails {cause : IoError}
    (h : readChunk config.lineLimit pieces = (.error cause, rest)) (u : Shell) :
    read config (u, pieces) = .error cause (u, rest) := by
  unfold read
  rw [readChunk_beside, h]

theorem orFail_error {ε δ α : Type} {x : Action (Shell × List Piece) ε α} (f : ε → δ) {e : ε}
    {s s' : Shell × List Piece} (h : x s = .error e s') : x.orFail f s = .error (f e) s' := by
  unfold Action.orFail
  rw [h]

/-- The rest of a line is echoed, in at most `fuel` chunks. -/
abbrev echoing (config : Config) (fuel : Nat) : Action (Shell × List Piece) IoError Unit :=
  echoRest (read config) (fun bytes => onShell (Shell.say bytes)) fuel

theorem echoing_chunk (hroom : u.transcript.room = none)
    (hr : readChunk config.lineLimit pieces = (.ok (some ⟨c, limitOf config⟩), rest)) (fuel : Nat) :
    echoing config (fuel + 1) (u, pieces) =
      if Chunk.endsLine ⟨c, limitOf config⟩ = true then .ok () (u.noteAll [.said c], rest)
      else echoing config fuel (u.noteAll [.said c], rest) := by
  have hsay : onShell (Shell.say c) (u, rest) = .ok () (u.noteAll [.said c], rest) :=
    onShell_say_run hroom c
  rw [echoing, echoRest, Action.bind_run, read_gives hr]
  simp only [Action.bind_run, hsay]
  cases hc : Chunk.endsLine ⟨c, limitOf config⟩ with
  | true => rfl
  | false => rfl

/-- Chunks that do not end the line are echoed one after the other. -/
theorem echoing_open (h : Gives config.lineLimit pieces cs rest)
    (hopen : ∀ c ∈ cs, Chunk.endsLine ⟨c, limitOf config⟩ = false) (fuel : Nat) :
    ∀ {u : Shell}, u.transcript.room = none →
      echoing config (fuel + cs.length) (u, pieces) =
        echoing config fuel (u.noteAll (cs.map .said), rest) := by
  induction h with
  | done pieces =>
    intro u _
    simp
  | @chunk pieces unread rest c cs hr _ ih =>
    intro u hroom
    obtain ⟨hc, hcs⟩ := List.forall_mem_cons.1 hopen
    rw [List.length_cons, ← Nat.add_assoc, echoing_chunk hroom hr, hc, if_neg Bool.false_ne_true,
      ih hcs (by exact hroom)]
    simp

/-- Behind chunks that do not end the line there is fuel for one more read. -/
theorem passOver_gives (hroom : u.transcript.room = none)
    (h : Gives config.lineLimit pieces cs rest)
    (hopen : ∀ c ∈ cs, Chunk.endsLine ⟨c, limitOf config⟩ = false) :
    ∃ fuel, passOver config (u, pieces) =
      echoing config (fuel + 1) (u.noteAll (cs.map .said), rest) := by
  have hlen : cs.length ≤ remaining (u, pieces) := h.length_le
  have hfuel : remaining (u, pieces) + 1 = remaining (u, pieces) - cs.length + 1 + cs.length := by
    omega
  have hpass : passOver config (u, pieces) =
      echoing config (remaining (u, pieces) + 1) (u, pieces) := rfl
  refine ⟨remaining (u, pieces) - cs.length, ?_⟩
  rw [hpass, hfuel, echoing_open h hopen _ hroom]

/-- The rest of a line is passed over through the chunk that ends it. -/
theorem passOver_closed (hroom : u.transcript.room = none)
    (h : Gives config.lineLimit pieces (cs ++ [c]) rest)
    (hopen : ∀ c ∈ cs, Chunk.endsLine ⟨c, limitOf config⟩ = false)
    (hclosed : Chunk.endsLine ⟨c, limitOf config⟩ = true) :
    passOver config (u, pieces) = .ok () (u.noteAll ((cs ++ [c]).map .said), rest) := by
  obtain ⟨unread, hfront, hlast⟩ := gives_append.1 h
  obtain ⟨fuel, hpass⟩ := passOver_gives hroom hfront hopen
  rw [hpass, echoing_chunk (by exact hroom) (gives_one.1 hlast), if_pos hclosed]
  simp

/-- If the read behind the chunks fails, so does passing over. -/
theorem passOver_fails {cause : IoError} {behind : List Piece} (hroom : u.transcript.room = none)
    (h : Gives config.lineLimit pieces cs rest)
    (hopen : ∀ c ∈ cs, Chunk.endsLine ⟨c, limitOf config⟩ = false)
    (hr : readChunk config.lineLimit rest = (.error cause, behind)) :
    passOver config (u, pieces) = .error cause (u.noteAll (cs.map .said), behind) := by
  obtain ⟨fuel, hpass⟩ := passOver_gives hroom h hopen
  rw [hpass, echoing, echoRest, Action.bind_run, read_fails hr]

/-- If the input ends behind the chunks, so does the line. -/
theorem passOver_ends {behind : List Piece} (hroom : u.transcript.room = none)
    (h : Gives config.lineLimit pieces cs rest)
    (hopen : ∀ c ∈ cs, Chunk.endsLine ⟨c, limitOf config⟩ = false)
    (hr : readChunk config.lineLimit rest = (.ok none, behind)) :
    passOver config (u, pieces) = .ok () (u.noteAll (cs.map .said), behind) := by
  obtain ⟨fuel, hpass⟩ := passOver_gives hroom h hopen
  rw [hpass, echoing, echoRest, Action.bind_run, read_gives hr]
  rfl

theorem turn_fails {cause : IoError} (programs : Programs) (hroom : u.transcript.room = none)
    (hr : readChunk config.lineLimit pieces = (.error cause, rest)) :
    turn programs config mode (u, pieces) =
      .error (.input cause) (u.noteAll (promptOf config mode), rest) := by
  rw [turn_eq, Action.bind_run, prompted_run config (s := (u, pieces)) hroom]
  simp only
  rw [Action.bind_run, orFail_error SessionFailure.input (read_fails hr _)]

theorem turn_ends (programs : Programs) (hroom : u.transcript.room = none)
    (hr : readChunk config.lineLimit pieces = (.ok none, rest)) :
    turn programs config mode (u, pieces) =
      .ok false (u.noteAll (promptOf config mode ++ endOfInput mode), rest) :=
  turn_of_end programs config (s := (u, pieces)) hroom (read_gives hr _)

theorem turn_chunk (programs : Programs) (hroom : u.transcript.room = none)
    (hr : readChunk config.lineLimit pieces = (.ok (some ⟨c, limitOf config⟩), rest)) :
    turn programs config mode (u, pieces) =
      heard programs config mode ⟨c, limitOf config⟩ (u.noteAll (promptOf config mode), rest) :=
  turn_of_chunk programs config (s := (u, pieces)) hroom (read_gives hr _)

/-- A chunk that is not overlong is echoed and carried out. -/
theorem heard_line_run (programs : Programs) (hroom : u.transcript.room = none)
    (hheeded : Heeded mode ⟨c, limitOf config⟩)
    (hshort : Chunk.isOverlong ⟨c, limitOf config⟩ = false) :
    ∃ u', u'.transcript.room = none ∧ ∀ pieces,
      heard programs config mode ⟨c, limitOf config⟩ (u, pieces) =
        .ok (!u'.env.leaving) (u', pieces) := by
  obtain ⟨u', hline, hroom'⟩ := Shell.runLine_unlimited programs config
    (Chunk.text ⟨c, limitOf config⟩) (s := u.noteAll [.said c]) hroom
  refine ⟨u', hroom', fun pieces => ?_⟩
  have hsay := onShell_say_run (s := (u, pieces)) hroom c
  rw [heard_line programs config hheeded hshort, Action.bind_run,
    orFail_run SessionFailure.output hsay]
  simp only [Action.bind_run, Action.orFail, onShell, hline]
  rfl

/-- An overlong chunk is echoed, and the rest of its line is passed over. -/
theorem heard_overlong_eq (hroom : u.transcript.room = none)
    (hheeded : Heeded mode ⟨c, limitOf config⟩)
    (hover : Chunk.isOverlong ⟨c, limitOf config⟩ = true) :
    heard programs config mode ⟨c, limitOf config⟩ (u, pieces) =
      match passOver config (u.noteAll [.said c], pieces) with
      | .ok () s => ((onShell Shell.report).orFail .output >>= fun _ => pure true) s
      | .error cause s => .error (.input cause) s := by
  have hsay := onShell_say_run (s := (u, pieces)) hroom c
  rw [heard_overlong programs config hheeded hover, Action.bind_run,
    orFail_run SessionFailure.output hsay]
  simp only [Action.bind_run, Action.orFail]
  cases passOver config (u.noteAll [.said c], pieces) <;> rfl

/-- The chunks begin a line that is too long, and none of them ends it. -/
structure Begins (config : Config) (mode : SessionMode) (chunks : List Bytes) : Prop where
  overlong : ∀ c ∈ chunks, Chunk.isOverlong ⟨c, limitOf config⟩ = true
  heeded : ∀ c ∈ chunks.head?, Heeded mode ⟨c, limitOf config⟩

theorem begins_nil (config : Config) (mode : SessionMode) : Begins config mode [] :=
  ⟨by simp, by simp⟩

theorem Begins.goesOn (h : Begins config mode cs) :
    ∀ c ∈ cs, Chunk.endsLine ⟨c, limitOf config⟩ = false := by
  intro c hc
  have hover := h.overlong c hc
  simp only [Chunk.isOverlong, Bool.and_eq_true, Bool.not_eq_true'] at hover
  exact hover.2

/-- A batch session skips a chunk of white space. -/
theorem turn_skips (programs : Programs) (hroom : u.transcript.room = none)
    (h : Gives config.lineLimit pieces [c] rest)
    (hskipped : ¬ Heeded mode ⟨c, limitOf config⟩) :
    turn programs config mode (u, pieces) = .ok true (u, rest) := by
  unfold Heeded at hskipped
  cases mode with
  | interactive => simp at hskipped
  | batch =>
    have hblank : Chunk.isBlank ⟨c, limitOf config⟩ = true := by simpa using hskipped
    exact turn_of_blank programs config (s := (u, pieces)) hroom (read_gives (gives_one.1 h) u)
      hblank

/-- The first chunk of an overlong line is echoed, and what follows is passed over. -/
theorem turn_overlong_eq (programs : Programs) (hroom : u.transcript.room = none)
    (hr : readChunk config.lineLimit pieces = (.ok (some ⟨c, limitOf config⟩), rest))
    (hheeded : Heeded mode ⟨c, limitOf config⟩)
    (hover : Chunk.isOverlong ⟨c, limitOf config⟩ = true) :
    turn programs config mode (u, pieces) =
      match passOver config (u.noteAll (promptOf config mode ++ [.said c]), rest) with
      | .ok () s => ((onShell Shell.report).orFail .output >>= fun _ => pure true) s
      | .error cause s => .error (.input cause) s := by
  rw [turn_chunk programs hroom hr, heard_overlong_eq (by exact hroom) hheeded hover,
    Shell.noteAll_noteAll]

theorem reported (hroom : u.transcript.room = none) :
    ((onShell Shell.report).orFail .output >>= fun _ => pure true :
        Action (Shell × List Piece) SessionFailure Bool) (u, pieces) =
      .ok true (u.noteAll [.said errorMessage], pieces) := by
  have hreport := onShell_report_run (s := (u, pieces)) hroom
  rw [Action.bind_run, orFail_run SessionFailure.output hreport]
  rfl

/-- A line that is too long is echoed in chunks and reported. -/
theorem turn_closed {d : Bytes} (programs : Programs) (hroom : u.transcript.room = none)
    (h : Gives config.lineLimit pieces (c :: (cs ++ [d])) rest)
    (hheeded : Heeded mode ⟨c, limitOf config⟩)
    (hover : Chunk.isOverlong ⟨c, limitOf config⟩ = true)
    (hopen : ∀ d ∈ cs, Chunk.endsLine ⟨d, limitOf config⟩ = false)
    (hclosed : Chunk.endsLine ⟨d, limitOf config⟩ = true) :
    turn programs config mode (u, pieces) =
      .ok true (u.noteAll (promptOf config mode ++ (c :: (cs ++ [d])).map .said ++
        [.said errorMessage]), rest) := by
  cases h with
  | chunk hr h =>
    rw [turn_overlong_eq programs hroom hr hheeded hover,
      passOver_closed (by exact hroom) h hopen hclosed]
    simp only
    rw [reported (by exact hroom)]
    simp

/-- A turn takes some of the chunks to come and does not depend on the others, or the chunks begin
a line and do not end it. -/
theorem turn_takes (programs : Programs) (mode : SessionMode) (hroom : u.transcript.room = none)
    (hcs : ∀ d ∈ c :: cs, Complete (limitOf config) d) :
    (∃ taken left u' goOn, c :: cs = taken ++ left ∧ taken ≠ [] ∧ u'.transcript.room = none ∧
      (goOn = false → u'.env.leaving = true) ∧
      ∀ pieces rest, Gives config.lineLimit pieces taken rest →
        turn programs config mode (u, pieces) = .ok goOn (u', rest)) ∨
    Begins config mode (c :: cs) := by
  by_cases hheeded : Heeded mode ⟨c, limitOf config⟩
  · cases hover : Chunk.isOverlong ⟨c, limitOf config⟩ with
    | false =>
      obtain ⟨u', hroom', hheard⟩ := heard_line_run programs
        (u := u.noteAll (promptOf config mode)) hroom hheeded hover
      refine Or.inl ⟨[c], cs, u', !u'.env.leaving, rfl, by simp, hroom', by simp, ?_⟩
      intro pieces rest h
      rw [turn_chunk programs hroom (gives_one.1 h), hheard]
    | true =>
      -- the line goes on to the first chunk that ends it, if there is one
      cases hfind : cs.find? fun d => Chunk.endsLine ⟨d, limitOf config⟩ with
      | none =>
        refine Or.inr ⟨List.forall_mem_cons.2 ⟨hover, fun d hd => ?_⟩, by simpa using hheeded⟩
        rw [(hcs d (List.mem_cons_of_mem c hd)).isOverlong]
        simpa using List.find?_eq_none.1 hfind d hd
      | some d =>
        obtain ⟨hd, between, left, rfl, hopen⟩ := List.find?_eq_some_iff_append.1 hfind
        have hopen' : ∀ d ∈ between, Chunk.endsLine ⟨d, limitOf config⟩ = false := by
          simpa using hopen
        exact Or.inl ⟨c :: (between ++ [d]), left, _, true, by simp, by simp, by exact hroom,
          by simp, fun pieces rest h => turn_closed programs hroom h hheeded hover hopen' hd⟩
  · exact Or.inl ⟨[c], cs, u, true, rfl, by simp, hroom, by simp, fun pieces rest h =>
      turn_skips programs hroom h hheeded⟩

/-- By turns that go on the session comes to its last turn, which leads to `s'`. -/
def Concludes (programs : Programs) (config : Config) (mode : SessionMode)
    (s s' : Shell × List Piece) : Prop :=
  ∃ t, Reaches programs config mode s t ∧ turn programs config mode t = .ok false s'

theorem Concludes.behind {programs : Programs} {mode : SessionMode}
    {s t s' : Shell × List Piece} (ht : Reaches programs config mode s t)
    (h : Concludes programs config mode t s') : Concludes programs config mode s s' := by
  obtain ⟨last, hlast, hturn⟩ := h
  exact ⟨last, ht.trans hlast, hturn⟩

theorem Concludes.run_eq {programs : Programs} {mode : SessionMode} {s s' : Shell × List Piece}
    (h : Concludes programs config mode s s') : run programs config mode s = .ok () s' := by
  obtain ⟨last, hlast, hturn⟩ := h
  rw [run_eq_of_reaches hlast, run_of_last_turn programs config hturn]

/-- So a session either ends before the chunks do, or it comes to the last of them, which begin a
line and do not end it, if there are any. -/
theorem run_takes (programs : Programs) (mode : SessionMode) (n : Nat) : ∀ {u : Shell}
    {cs : List Bytes}, cs.length ≤ n → u.transcript.room = none →
    (∀ c ∈ cs, Complete (limitOf config) c) →
    (∃ taken left u', cs = taken ++ left ∧ u'.env.leaving = true ∧
      ∀ pieces rest, Gives config.lineLimit pieces taken rest →
        Concludes programs config mode (u, pieces) (u', rest)) ∨
    ∃ taken begun u', cs = taken ++ begun ∧ u'.transcript.room = none ∧ Begins config mode begun ∧
      ∀ pieces rest, Gives config.lineLimit pieces taken rest →
        Reaches programs config mode (u, pieces) (u', rest) := by
  have hstart : ∀ {u : Shell} (pieces rest : List Piece), Gives config.lineLimit pieces [] rest →
      Reaches programs config mode (u, pieces) (u, rest) := by
    intro u pieces rest h
    cases h with
    | done => exact .refl (u, pieces)
  -- on the number of chunks: a turn takes at least one
  induction n with
  | zero =>
    intro u cs hn hroom hcs
    obtain rfl := List.length_eq_zero_iff.1 (Nat.le_zero.1 hn)
    exact Or.inr ⟨[], [], u, rfl, hroom, begins_nil config mode, hstart⟩
  | succ n ih =>
    intro u cs hn hroom hcs
    cases cs with
    | nil => exact ih (Nat.zero_le n) hroom hcs
    | cons c cs =>
      rcases turn_takes programs mode hroom hcs with
        ⟨taken, left, u₁, goOn, hsplit, hne, hroom₁, hlast, hturn⟩ | hbegins
      · cases goOn with
        | false =>
          exact Or.inl ⟨taken, left, u₁, hsplit, hlast rfl, fun pieces rest h =>
            ⟨_, .refl _, hturn pieces rest h⟩⟩
        | true =>
          have hshorter : left.length ≤ n := length_le_of_append hsplit hne hn
          have hleft : ∀ d ∈ left, Complete (limitOf config) d := fun d hd =>
            hcs d (hsplit ▸ List.mem_append_right taken hd)
          rcases ih hshorter hroom₁ hleft with
            ⟨taken', left', u', rfl, hleaving, hrun⟩ |
            ⟨taken', begun, u', rfl, hroom', hbegins, hreach⟩
          · refine Or.inl ⟨taken ++ taken', left', u', by rw [hsplit, List.append_assoc], hleaving,
              fun pieces rest h => ?_⟩
            obtain ⟨unread, h₁, h₂⟩ := gives_append.1 h
            exact (hrun unread rest h₂).behind (.one (hturn pieces unread h₁))
          · refine Or.inr ⟨taken ++ taken', begun, u', by rw [hsplit, List.append_assoc], hroom',
              hbegins, fun pieces rest h => ?_⟩
            obtain ⟨unread, h₁, h₂⟩ := gives_append.1 h
            exact (Reaches.one (hturn pieces unread h₁)).trans (hreach unread rest h₂)
      · exact Or.inr ⟨[], c :: cs, u, rfl, hroom, hbegins, hstart⟩

/-! ## The end of the chunks -/

/-- If the read behind the begun line fails, so does the session, and the line is not reported. -/
theorem turn_breaks {cause : IoError} {behind : List Piece} (programs : Programs)
    (hroom : u.transcript.room = none) (hbegins : Begins config mode cs)
    (h : Gives config.lineLimit pieces cs rest)
    (hr : readChunk config.lineLimit rest = (.error cause, behind)) :
    turn programs config mode (u, pieces) =
      .error (.input cause) (u.noteAll (promptOf config mode ++ cs.map .said), behind) := by
  cases h with
  | done =>
    rw [turn_fails programs hroom hr]
    simp
  | @chunk _ _ _ c cs hr' h =>
    have hrest : ∀ d ∈ cs, Chunk.endsLine ⟨d, limitOf config⟩ = false := fun d hd =>
      hbegins.goesOn d (List.mem_cons_of_mem c hd)
    rw [turn_overlong_eq programs hroom hr' (hbegins.heeded c rfl)
      (hbegins.overlong c List.mem_cons_self), passOver_fails (by exact hroom) h hrest hr]
    simp

/-- What a session says when the input ends behind a line that has begun, or between lines. -/
def closing (config : Config) (mode : SessionMode) (begun : List Bytes) : List Event :=
  (if begun = [] then [] else .said errorMessage :: promptOf config mode) ++ endOfInput mode

theorem closing_said (config : Config) (mode : SessionMode) (begun : List Bytes) :
    ∀ e ∈ closing config mode begun, ∃ bytes, e = .said bytes := by
  unfold closing
  cases mode <;> split <;> simp [promptOf, endOfInput]

/-- If the input ends instead, the session ends well, and reports a line that has begun. -/
theorem run_closes (programs : Programs) (hroom : u.transcript.room = none)
    (hbegins : Begins config mode cs) (h : Gives config.lineLimit pieces cs rest)
    (hf : Piece.Faultless rest) (hend : Piece.content rest = []) :
    ∃ rest', run programs config mode (u, pieces) =
      .ok () (u.noteAll (promptOf config mode ++ cs.map .said ++ closing config mode cs),
        rest') := by
  obtain ⟨rest₁, hr, hf₁, hend₁⟩ := readChunk_end config.lineLimit hf hend
  cases h with
  | done =>
    refine ⟨rest₁, ?_⟩
    rw [run_of_last_turn programs config (turn_ends programs hroom hr)]
    simp [closing]
  | @chunk _ _ _ c cs hr' h =>
    obtain ⟨rest₂, hr₁, -, -⟩ := readChunk_end config.lineLimit hf₁ hend₁
    have hrest : ∀ d ∈ cs, Chunk.endsLine ⟨d, limitOf config⟩ = false := fun d hd =>
      hbegins.goesOn d (List.mem_cons_of_mem c hd)
    have hturn : turn programs config mode (u, pieces) =
        .ok true (u.noteAll (promptOf config mode ++ (c :: cs).map .said ++ [.said errorMessage]),
          rest₁) := by
      rw [turn_overlong_eq programs hroom hr' (hbegins.heeded c rfl)
        (hbegins.overlong c List.mem_cons_self), passOver_ends (by exact hroom) h hrest hr]
      simp only
      rw [reported (by exact hroom)]
      simp
    refine ⟨rest₂, ?_⟩
    rw [run_eq_of_turn hturn,
      run_of_last_turn programs config (turn_ends programs (by exact hroom) hr₁)]
    simp [closing]

/-! ## Sessions whose input fails -/

/-- Where a session stands when a read of its input has failed. Turns that went on had come to a
shell; since then there has been the prompt, and the chunks of a line that is too long and has not
ended, if it had begun. The read that failed had taken `lost` behind them. The error is that of the
read, and what stands behind the fault has not been read. -/
structure BreaksOff (programs : Programs) (config : Config) (mode : SessionMode)
    (start : Shell × List Piece) (cause : IoError) (behind : List Piece) (begun : List Bytes)
    (lost : Bytes) (s' : Shell) : Prop where
  outcome : run programs config mode start = .error (.input cause) (s', behind)
  begins : Begins config mode begun
  said : ∃ (u : Shell) (unread : List Piece),
    Reaches programs config mode start (u, unread ++ .fault cause :: behind) ∧
    Piece.content unread = begun.flatten ++ lost ∧
    s' = u.noteAll (promptOf config mode ++ begun.map .said)

theorem run_of_failed_turn {s s' : Shell × List Piece} {e : SessionFailure}
    (h : turn programs config mode s = .error e s') : run programs config mode s = .error e s' := by
  unfold run
  rw [turns, Action.bind_run, h]

/-- **A read that fails.** The input of a session fails once, and its output has no limit. If the
shell is told to leave before, the session does not come to the fault: its last turn leaves the
fault in the input. Else the session breaks off at the fault. The bytes in front of it are chunks
that reads have taken whole, and the bytes that the read had taken when it failed; these have been
neither echoed nor carried out. On any input that has just the chunks and no fault the session does
the same, and then says what it says at the end of its input: the environment, the system and all
events are the same but for these last words. -/
theorem read_failure (programs : Programs) (config : Config) (mode : SessionMode) (s : Shell)
    (before : List Piece) (cause : IoError) (behind : List Piece)
    (hroom : s.transcript.room = none) (hfaultless : Piece.Faultless before) :
    (∃ s' unread, s'.env.leaving = true ∧
      Concludes programs config mode (s, before ++ .fault cause :: behind)
        (s', unread ++ .fault cause :: behind) ∧
      run programs config mode (s, before ++ .fault cause :: behind) =
        .ok () (s', unread ++ .fault cause :: behind)) ∨
    ∃ (taken begun : List Bytes) (lost : Bytes) (s' : Shell),
      Piece.content before = taken.flatten ++ lost ∧
      (∀ c ∈ taken, Complete (limitOf config) c) ∧ Unfinished (limitOf config) lost ∧
      begun <:+ taken ∧
      BreaksOff programs config mode (s, before ++ .fault cause :: behind) cause behind begun lost
        s' ∧
      (∀ pieces, Piece.Faultless pieces → Piece.content pieces = taken.flatten →
        ∃ rest, run programs config mode (s, pieces) =
          .ok () (s'.noteAll (closing config mode begun), rest)) ∧
      ∀ e ∈ closing config mode begun, ∃ bytes, e = .said bytes := by
  obtain ⟨cs, unread, hgives, hconsumed, hcs, hlost, hfails⟩ :=
    gives_before_fault config.lineLimit cause behind hfaultless
  rcases run_takes programs mode cs.length (Nat.le_refl _) hroom hcs with
    ⟨taken, left, s', rfl, hleaving, hrun⟩ | ⟨taken, begun, u, rfl, hroom', hbegins, hreach⟩
  · left
    obtain ⟨middle, hfront, -⟩ := gives_append.1 hgives
    obtain ⟨unread', rfl, -⟩ := hfront.unread hfaultless
    have hconcludes := hrun _ _ hfront
    exact ⟨s', unread', hleaving, hconcludes, hconcludes.run_eq⟩
  · right
    obtain ⟨middle, hfront, hlast⟩ := gives_append.1 hgives
    obtain ⟨unread', rfl, hconsumed'⟩ := hfront.unread hfaultless
    have hreached := hreach _ _ hfront
    have hleft : Piece.content unread' = begun.flatten ++ Piece.content unread := by
      have hsplit := hconsumed.content
      rw [hconsumed'.content, List.flatten_append, List.append_assoc] at hsplit
      exact List.append_cancel_left hsplit
    refine ⟨taken ++ begun, begun, Piece.content unread,
      u.noteAll (promptOf config mode ++ begun.map .said), hconsumed.content, hcs, hlost,
      List.suffix_append taken begun, ⟨?_, hbegins, u, unread', hreached, hleft, rfl⟩, ?_,
      closing_said config mode begun⟩
    · rw [run_eq_of_reaches hreached]
      exact run_of_failed_turn (turn_breaks programs hroom' hbegins hlast hfails)
    · intro pieces hf hcontent
      obtain ⟨rest, hgives', hf', hend⟩ := gives_complete hcs hf hcontent
      obtain ⟨middle', hfront', hlast'⟩ := gives_append.1 hgives'
      obtain ⟨rest', hrun⟩ := run_closes programs hroom' hbegins hlast' hf' hend
      refine ⟨rest', ?_⟩
      rw [run_eq_of_reaches (hreach pieces middle' hfront'), hrun, Shell.noteAll_noteAll]

section Runs

open Bytes (ofString)
open Shell (idle atRoot)

/-- A batch session in an empty directory whose input fails behind the text. -/
def failing (text : String) : Shell × List Piece :=
  (atRoot .empty, [.bytes (ofString text)] ++ .fault .sourceFailed :: [.bytes (ofString "mp\n")])

/-- A read fails in the second line, and the beginning of the command is not carried out. Another
fails in the rest of a line that is too long, whose first eight bytes have been echoed. -/
theorem failing_reads :
    (∃ (begun : List Bytes) (lost : Bytes) (s' : Shell),
      BreaksOff idle narrow .batch (failing "pwd\ncd t") .sourceFailed [.bytes (ofString "mp\n")]
        begun lost s' ∧
      s'.transcript.events = [.said (ofString "pwd\n"), .said (ofString "/"),
        .said (ofString "\n"), .carriedOut (ofString "pwd") none]) ∧
    ∃ (begun : List Bytes) (lost : Bytes) (s' : Shell),
      BreaksOff idle narrow .batch (failing "several words") .sourceFailed
        [.bytes (ofString "mp\n")] begun lost s' ∧
      s'.transcript.events = [.said (ofString "several ")] := by
  have hf : ∀ text, Piece.Faultless [.bytes (ofString text)] := fun text => Piece.faultless_bytes _
  constructor
  · rcases read_failure idle narrow .batch (atRoot .empty) [.bytes (ofString "pwd\ncd t")]
      .sourceFailed [.bytes (ofString "mp\n")] rfl (hf _) with
      ⟨s', unread, -, -, hrun⟩ | ⟨taken, begun, lost, s', -, -, -, -, hbreaks, -⟩
    · cases hrun
    · refine ⟨begun, lost, s', hbreaks, ?_⟩
      cases hbreaks.outcome
      decide
  · rcases read_failure idle narrow .batch (atRoot .empty) [.bytes (ofString "several words")]
      .sourceFailed [.bytes (ofString "mp\n")] rfl (hf _) with
      ⟨s', unread, -, -, hrun⟩ | ⟨taken, begun, lost, s', -, -, -, -, hbreaks, -⟩
    · cases hrun
    · refine ⟨begun, lost, s', hbreaks, ?_⟩
      cases hbreaks.outcome
      decide

end Runs

end Session

end LineShell
