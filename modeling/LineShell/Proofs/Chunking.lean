import LineShell.Proofs.Chunks

/-!
# One chunking for every delivery

Bounded reads, one after the other, cut an input into chunks. Which chunks these are depends on
the bytes and the limit alone, and not on the pieces in which the bytes arrive.

* `LongestFit`: the longest beginning of the bytes to come that one chunk can hold. A bounded read
  takes just this (`takeLine_longestFit`).
* `Chunking`: a byte string cut into longest fits. There is one for each byte string
  (`exists_chunking`, `Chunking.unique`).
* `readAfter_chunking`: reads of any delivery of the bytes give the chunks in order, and then
  nothing for ever.
* `reads_chunking`: the same with what it says about each chunk.
-/
namespace LineShell

open Bytes (newline)

/-! ## What a chunk can hold -/

/-- At most `limit` bytes, and no newline but the last of them. -/
def Fits (limit : Nat) (c : Bytes) : Prop := c.length ≤ limit ∧ newline ∉ c.dropLast

/-- The longest beginning of `bs` that fits. -/
structure LongestFit (limit : Nat) (bs c : Bytes) : Prop where
  beginning : c <+: bs
  fits : Fits limit c
  longest : ∀ c', c' <+: bs → Fits limit c' → c'.length ≤ c.length

section LongestFit

variable {limit : Nat} {bs c c' : Bytes}

theorem fits_nil (limit : Nat) : Fits limit [] := ⟨Nat.zero_le _, by simp⟩

/-- A byte that is no newline may stand in front of what fits. -/
theorem fits_cons {b : UInt8} (hb : b ≠ newline) (h : Fits limit c) :
    Fits (limit + 1) (b :: c) := by
  obtain ⟨hlen, hnew⟩ := h
  refine ⟨by simpa using hlen, ?_⟩
  cases c with
  | nil => simp
  | cons b' c =>
    rw [List.dropLast_cons_of_ne_nil (List.cons_ne_nil b' c)]
    simp only [List.mem_cons, not_or]
    exact ⟨fun e => hb e.symm, hnew⟩

theorem fits_tail {b : UInt8} (h : Fits (limit + 1) (b :: c)) : Fits limit c := by
  obtain ⟨hlen, hnew⟩ := h
  refine ⟨by simpa using hlen, ?_⟩
  cases c with
  | nil => simp
  | cons b' c =>
    rw [List.dropLast_cons_of_ne_nil (List.cons_ne_nil b' c)] at hnew
    exact fun hm => hnew (List.mem_cons_of_mem _ hm)

/-- Nothing that fits goes on behind a newline. -/
theorem fits_newline (h : Fits limit (newline :: c)) : c = [] := by
  cases c with
  | nil => rfl
  | cons b c =>
    have hnew := h.2
    rw [List.dropLast_cons_of_ne_nil (List.cons_ne_nil b c)] at hnew
    exact absurd List.mem_cons_self hnew

/-- What fits and does not end with a newline has none. -/
theorem Fits.noNewline (h : Fits limit c) (hend : c.getLast? ≠ some newline) : newline ∉ c := by
  intro hm
  have hne : c ≠ [] := List.ne_nil_of_mem hm
  rw [← List.dropLast_concat_getLast hne, List.mem_append, List.mem_singleton] at hm
  rcases hm with hm | hm
  · exact h.2 hm
  · exact hend (by rw [List.getLast?_eq_some_getLast hne, ← hm])

/-- A bounded read takes the longest fit. -/
theorem takeLine_longestFit (limit : Nat) (bs : Bytes) :
    LongestFit limit bs (takeLine limit bs) := by
  fun_induction takeLine limit bs with
  | case1 bs =>
    exact ⟨List.nil_prefix, fits_nil _, fun c' _ hf => hf.1⟩
  | case2 room =>
    exact ⟨List.nil_prefix, fits_nil _, fun c' hp _ => by simp [List.prefix_nil.1 hp]⟩
  | case3 room bs =>
    refine ⟨⟨bs, rfl⟩, ⟨by simp, by simp⟩, fun c' hp hf => ?_⟩
    rcases List.prefix_cons_iff.1 hp with rfl | ⟨c'', rfl, -⟩
    · exact Nat.zero_le _
    · exact Nat.le_of_eq (congrArg (fun c => c.length + 1) (fits_newline hf))
  | case4 room b bs hb ih =>
    refine ⟨List.cons_prefix_cons.2 ⟨rfl, ih.beginning⟩, fits_cons hb ih.fits, fun c' hp hf => ?_⟩
    rcases List.prefix_cons_iff.1 hp with rfl | ⟨c'', rfl, hp'⟩
    · exact Nat.zero_le _
    · have := ih.longest c'' hp' (fits_tail hf)
      simp only [List.length_cons]
      omega

theorem LongestFit.unique (h : LongestFit limit bs c) (h' : LongestFit limit bs c') : c' = c := by
  have hle := h.longest c' h'.beginning h'.fits
  have hge := h'.longest c h.beginning h.fits
  exact (List.prefix_of_prefix_length_le h'.beginning h.beginning hle).eq_of_length
    (Nat.le_antisymm hle hge)

/-- With room for a byte, something is taken from what is there. -/
theorem LongestFit.ne_nil (h : LongestFit limit bs c) (hlimit : 0 < limit) (hbs : bs ≠ []) :
    c ≠ [] := by
  rintro rfl
  obtain ⟨b, bs, rfl⟩ := List.exists_cons_of_ne_nil hbs
  have hone := h.longest [b] ⟨bs, rfl⟩ ⟨hlimit, by simp⟩
  simp at hone

/-- A chunk with bytes behind it ends with a newline or is full. -/
theorem LongestFit.ends (h : LongestFit limit bs c) (hbs : c.length < bs.length) :
    c.getLast? = some newline ∨ c.length = limit := by
  by_cases hnew : c.getLast? = some newline
  · exact Or.inl hnew
  right
  obtain ⟨rest, rfl⟩ := h.beginning
  cases rest with
  | nil => simp at hbs
  | cons b rest =>
    -- otherwise the next byte would still fit
    apply Nat.le_antisymm h.fits.1
    apply Nat.le_of_not_lt
    intro hroom
    have hnone := h.fits.noNewline hnew
    have hlonger := h.longest (c ++ [b]) ⟨rest, by simp⟩
      ⟨by simpa [Nat.succ_le_iff] using hroom, by simpa using hnone⟩
    rw [List.length_append, List.length_singleton] at hlonger
    omega

end LongestFit

/-! ## Chunkings -/

/-- The byte string is cut into longest fits. -/
inductive Chunking (limit : Nat) : Bytes → List Bytes → Prop
  | finish : Chunking limit [] []
  | chunk {bs c rest : Bytes} {cs : List Bytes} (hbs : bs ≠ []) (hc : LongestFit limit bs c)
      (hrest : bs = c ++ rest) (h : Chunking limit rest cs) : Chunking limit bs (c :: cs)

section Chunking

variable {limit : Nat} {bs c : Bytes} {cs cs' : List Bytes}

theorem Chunking.unique (h : Chunking limit bs cs) (h' : Chunking limit bs cs') : cs' = cs := by
  induction h generalizing cs' with
  | finish =>
    cases h' with
    | finish => rfl
    | chunk hbs => exact absurd rfl hbs
  | @chunk bs c rest cs hbs hc hrest h ih =>
    cases h' with
    | finish => exact absurd rfl hbs
    | chunk _ hc' hrest' h' =>
      obtain rfl := hc.unique hc'
      obtain rfl := List.append_cancel_left (hrest.symm.trans hrest')
      rw [ih h']

theorem exists_chunking (hlimit : 0 < limit) (bs : Bytes) : ∃ cs, Chunking limit bs cs := by
  induction hn : bs.length using Nat.strongRecOn generalizing bs with
  | ind n ih =>
    by_cases hbs : bs = []
    · exact ⟨[], hbs ▸ .finish⟩
    have hc := takeLine_longestFit limit bs
    obtain ⟨rest, hrest⟩ := hc.beginning
    have hpos := List.length_pos_iff.2 (hc.ne_nil hlimit hbs)
    have hlen := congrArg List.length hrest
    rw [List.length_append] at hlen
    obtain ⟨cs, h⟩ := ih rest.length (by omega) rest rfl
    exact ⟨_, .chunk hbs hc hrest.symm h⟩

theorem Chunking.flatten (h : Chunking limit bs cs) : cs.flatten = bs := by
  induction h with
  | finish => rfl
  | chunk hbs hc hrest h ih => rw [List.flatten_cons, ih, hrest]

theorem Chunking.fits (h : Chunking limit bs cs) : ∀ c ∈ cs, Fits limit c := by
  induction h with
  | finish => simp
  | chunk hbs hc hrest h ih =>
    intro c hm
    rcases List.mem_cons.1 hm with rfl | hm
    · exact hc.fits
    · exact ih c hm

theorem Chunking.ne_nil (h : Chunking limit bs cs) (hlimit : 0 < limit) : ∀ c ∈ cs, c ≠ [] := by
  induction h with
  | finish => simp
  | chunk hbs hc hrest h ih =>
    intro c hm
    rcases List.mem_cons.1 hm with rfl | hm
    · exact hc.ne_nil hlimit hbs
    · exact ih c hm

/-- Every chunk but the last one ends with a newline or is full. -/
theorem Chunking.ends (h : Chunking limit bs cs) {n : Nat} (hn : cs[n]? = some c)
    (hlast : n + 1 < cs.length) : c.getLast? = some newline ∨ c.length = limit := by
  induction h generalizing n with
  | finish => simp at hlast
  | @chunk bs c' rest cs hbs hc hrest h ih =>
    cases n with
    | zero =>
      obtain rfl : c' = c := by simpa using hn
      refine hc.ends ?_
      -- there is a chunk behind, so there are bytes behind
      have hne : rest ≠ [] := by
        rintro rfl
        cases h with
        | finish => simp at hlast
        | chunk hbs' => exact hbs' rfl
      have := List.length_pos_iff.2 hne
      rw [hrest, List.length_append]
      omega
    | succ n =>
      rw [List.getElem?_cons_succ] at hn
      exact ih hn (by simpa using hlast)

end Chunking

/-- What fits is overlong if it is full and does not end with a newline. -/
theorem isOverlong_iff {limit : Nat} {c : Bytes} (h : Fits limit c) :
    Chunk.isOverlong ⟨c, limit⟩ = true ↔ c.length = limit ∧ c.getLast? ≠ some newline := by
  unfold Chunk.isOverlong Chunk.endsLine
  rw [Bool.and_eq_true, decide_eq_true_eq, Bool.not_eq_true', beq_eq_false_iff_ne]
  constructor
  · rintro ⟨hle, hnew⟩
    exact ⟨Nat.le_antisymm h.1 hle, hnew⟩
  · rintro ⟨hlen, hnew⟩
    exact ⟨Nat.le_of_eq hlen.symm, hnew⟩

/-! ## Reads, one after the other -/

/-- What the read behind `n` others gives. -/
def readAfter {σ : Type} [Supply σ] (limit : Nat) : Nat → σ → Except IoError (Option Chunk)
  | 0, s => (readChunk limit s).1
  | n + 1, s => readAfter limit n (readChunk limit s).2

/-- A system beside the pieces plays no part in reading them. -/
theorem readBytes_beside (room : Nat) (pieces : List Piece) (system : System) :
    readBytes room (pieces, system) =
      ((readBytes room pieces).1, (readBytes room pieces).2, system) := by
  induction room generalizing pieces with
  | zero => rfl
  | succ room ih =>
    simp only [readBytes, Piece.supply_next, Piece.supply_next_beside]
    cases Piece.next pieces with
    | finish rest => rfl
    | fault cause rest => rfl
    | byte b rest =>
      simp only [Next.map]
      split
      · rfl
      · rw [ih]
        rcases readBytes room rest with ⟨bs | cause, rest'⟩ <;> rfl

theorem readChunk_beside (limit : Nat) (pieces : List Piece) (system : System) :
    readChunk limit (pieces, system) =
      ((readChunk limit pieces).1, (readChunk limit pieces).2, system) := by
  rw [readChunk_bytewise, readChunk_bytewise, readBytes_beside]
  rcases readBytes (effectiveLimit limit) pieces with ⟨cause | bs, rest⟩
  · rfl
  · cases bs <;> rfl

/-- A read of a delivery takes the longest fit and leaves the rest. -/
theorem readChunk_pieces {pieces : List Piece} (hf : Piece.Faultless pieces) (limit : Nat) :
    ∃ rest, readChunk limit pieces =
        (.ok (if takeLine (effectiveLimit limit) (Piece.content pieces) = [] then none
          else some ⟨takeLine (effectiveLimit limit) (Piece.content pieces), effectiveLimit limit⟩),
          rest) ∧
      Piece.Consumed pieces rest (takeLine (effectiveLimit limit) (Piece.content pieces)) := by
  obtain ⟨rest, hr, hc⟩ := readChunk_eq hf limit { files := .empty }
  rw [readChunk_beside, Prod.mk.injEq, Prod.mk.injEq] at hr
  exact ⟨rest, Prod.ext hr.1 hr.2.1, hc⟩

/-- At its end an input gives nothing, and it stays there. -/
theorem readChunk_end {pieces : List Piece} (limit : Nat) (hf : Piece.Faultless pieces)
    (hend : Piece.content pieces = []) :
    ∃ rest, readChunk limit pieces = (.ok none, rest) ∧ Piece.Faultless rest ∧
      Piece.content rest = [] := by
  obtain ⟨rest, hr, hconsumed⟩ := readChunk_pieces hf limit
  rw [hend, takeLine_nil] at hr hconsumed
  have hcontent := hconsumed.content
  rw [hend, List.nil_append] at hcontent
  exact ⟨rest, hr, hconsumed.faultless hf, hcontent.symm⟩

/-- So it gives nothing, however often it is read. -/
theorem readAfter_nil {pieces : List Piece} (hf : Piece.Faultless pieces)
    (hc : Piece.content pieces = []) (limit n : Nat) : readAfter limit n pieces = .ok none := by
  induction n generalizing pieces with
  | zero =>
    obtain ⟨rest, hr, -⟩ := readChunk_end limit hf hc
    rw [readAfter, hr]
  | succ n ih =>
    obtain ⟨rest, hr, hf', hc'⟩ := readChunk_end limit hf hc
    rw [readAfter, hr]
    exact ih hf' hc'

theorem readAfter_chunking {limit : Nat} {bs : Bytes} {cs : List Bytes}
    (h : Chunking (effectiveLimit limit) bs cs) : ∀ {pieces : List Piece},
    Piece.content pieces = bs → Piece.Faultless pieces → ∀ n,
    readAfter limit n pieces = .ok (cs[n]?.map fun c => ⟨c, effectiveLimit limit⟩) := by
  induction h with
  | finish =>
    intro pieces hc hf n
    rw [readAfter_nil hf hc limit n]
    rfl
  | @chunk bs c rest cs hbs hc hrest h ih =>
    intro pieces hcontent hf n
    obtain ⟨pieces', hr, hconsumed⟩ := readChunk_pieces hf limit
    have htake : takeLine (effectiveLimit limit) (Piece.content pieces) = c := by
      rw [hcontent]
      exact hc.unique (takeLine_longestFit _ bs)
    have hne : c ≠ [] := hc.ne_nil (effectiveLimit_pos limit) hbs
    rw [htake] at hr hconsumed
    rw [if_neg hne] at hr
    cases n with
    | zero => rw [readAfter, hr]; rfl
    | succ n =>
      have hleft : Piece.content pieces' = rest := by
        have hsplit := hconsumed.content
        rw [hcontent, hrest] at hsplit
        exact (List.append_cancel_left hsplit).symm
      rw [readAfter, hr, List.getElem?_cons_succ]
      exact ih hleft (hconsumed.faultless hf) n

/-- **One chunking for every delivery.** To each byte string and limit (zero acts as one) there is
one list of chunks, each the longest fit of what is left. Reads of any delivery of the bytes, in
pieces of any sizes and with interruptions anywhere, give just these chunks and then nothing for
ever. Together the chunks are the bytes; none is empty; each but the last ends with a newline or is
full; and overlong are those that are full without a newline at their end. -/
theorem reads_chunking (limit : Nat) (bs : Bytes) :
    ∃ cs : List Bytes,
      (Chunking (max limit 1) bs cs ∧ ∀ cs', Chunking (max limit 1) bs cs' → cs' = cs) ∧
      (∀ pieces, Piece.content pieces = bs → Piece.Faultless pieces → ∀ n,
        readAfter limit n pieces = .ok (cs[n]?.map fun c => ⟨c, max limit 1⟩)) ∧
      cs.flatten = bs ∧ (∀ c ∈ cs, c ≠ []) ∧
      (∀ n c, cs[n]? = some c → n + 1 < cs.length →
        c.getLast? = some newline ∨ c.length = max limit 1) ∧
      ∀ c ∈ cs, Chunk.isOverlong ⟨c, max limit 1⟩ = true ↔
        c.length = max limit 1 ∧ c.getLast? ≠ some newline := by
  have hlimit : 0 < max limit 1 := by omega
  obtain ⟨cs, h⟩ := exists_chunking hlimit bs
  refine ⟨cs, ⟨h, fun cs' h' => h.unique h'⟩, fun pieces hc hf n => readAfter_chunking h hc hf n,
    h.flatten, h.ne_nil hlimit, fun n c hn hlast => h.ends hn hlast, fun c hm => ?_⟩
  exact isOverlong_iff (h.fits c hm)

/-- Two lines, the second too long for a read of four bytes, in pieces with interruptions. -/
def interrupted : List Piece :=
  [.interruption, .bytes (Bytes.ofString "a"), .interruption, .interruption,
    .bytes (Bytes.ofString "b\ncd"), .interruption, .bytes (Bytes.ofString "efg")]

/-- The reads of the two lines are those of any other delivery of them. -/
theorem interrupted_reads :
    Piece.Faultless interrupted ∧ Piece.content interrupted = Bytes.ofString "ab\ncdefg" ∧
    ∃ cs, Chunking 4 (Bytes.ofString "ab\ncdefg") cs ∧ cs.flatten = Bytes.ofString "ab\ncdefg" ∧
      ∀ n, readAfter 4 n interrupted = .ok (cs[n]?.map fun c => ⟨c, 4⟩) := by
  have hf : Piece.Faultless interrupted := fun cause hm => by simp [interrupted] at hm
  have hc : Piece.content interrupted = Bytes.ofString "ab\ncdefg" := by decide
  obtain ⟨cs, ⟨h, -⟩, hreads, hflat, -⟩ := reads_chunking 4 (Bytes.ofString "ab\ncdefg")
  exact ⟨hf, hc, cs, h, hflat, hreads interrupted hc hf⟩

end LineShell
