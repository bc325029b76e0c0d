import LineShell.Session

/-!
# Windows and single bytes

A bounded read takes what is at hand in windows, and three things can end a window: the bytes at
hand, the room, and a newline. Taking the bytes one by one, only the newline and the end of the input
have to be looked for.

* `LawfulSupply`: what a look has shown is there until it is taken, and takings add up. Pieces and
  open files are lawful.
* `Supply.next`: the next byte of a supply, whatever is at hand with it.
* `readBytes`: a bounded read that takes one byte after the other.
* `readWindows_eq`: the read in windows takes the same bytes and leaves the same behind, so that
  `readChunk_bytewise` reads a chunk byte by byte.
-/
namespace LineShell

/-! ## The next byte -/

/-- What one step of reading finds, and what is left behind it. -/
inductive Next (σ : Type)
  | byte (b : UInt8) (rest : σ)
  | fault (cause : IoError) (rest : σ)
  | finish (rest : σ)
  deriving Repr

def Next.map {σ τ : Type} (f : σ → τ) : Next σ → Next τ
  | byte b rest => .byte b (f rest)
  | fault cause rest => .fault cause (f rest)
  | finish rest => .finish (f rest)

/-- A supply with the laws of a buffer. -/
class LawfulSupply (σ : Type) [Supply σ] : Prop where
  delays_again : ∀ {s rest : σ}, Supply.look s = .again rest → Supply.delays rest < Supply.delays s
  delays_consume : ∀ {s rest : σ} {available : Bytes} {n : Nat},
    Supply.look s = .bytes available rest → Supply.delays (Supply.consume n rest) ≤ Supply.delays s
  look_consume : ∀ {s rest : σ} {available : Bytes} {n : Nat},
    Supply.look s = .bytes available rest → n < available.length →
      Supply.look (Supply.consume n rest) = .bytes (available.drop n) (Supply.consume n rest)
  consume_consume : ∀ {s rest : σ} {available : Bytes} {m n : Nat},
    Supply.look s = .bytes available rest → m + n ≤ available.length →
      Supply.consume n (Supply.consume m rest) = Supply.consume (m + n) rest

section
variable {σ : Type}

/-- The outcome of a read with bytes in front that were taken before it. -/
def inFrontOf (front : Bytes) (r : Except IoError Bytes × σ) : Except IoError Bytes × σ :=
  (r.1.map (front ++ ·), r.2)

@[simp] theorem inFrontOf_ok (front bs : Bytes) (s : σ) :
    inFrontOf front (.ok bs, s) = (.ok (front ++ bs), s) := rfl

@[simp] theorem inFrontOf_error (front : Bytes) (cause : IoError) (s : σ) :
    inFrontOf front (.error cause, s) = (.error cause, s) := rfl

theorem inFrontOf_inFrontOf (front front' : Bytes) (r : Except IoError Bytes × σ) :
    inFrontOf front (inFrontOf front' r) = inFrontOf (front ++ front') r := by
  rcases r with ⟨cause | bs, s⟩ <;> simp

variable [Supply σ]

/-- The next byte, after at most so many looks. -/
def Supply.nextWithin : (looks : Nat) → σ → Next σ
  | 0, s => .finish s
  | looks + 1, s =>
    match Supply.look s with
    | .again rest => nextWithin looks rest
    | .fault cause rest => .fault cause rest
    | .bytes [] rest => .finish rest
    | .bytes (b :: _) rest => .byte b (Supply.consume 1 rest)

/-- The next byte of a supply. -/
def Supply.next (s : σ) : Next σ := Supply.nextWithin (Supply.delays s + 1) s

/-- Up to `room` bytes, through the first newline among them. -/
def readBytes : Nat → σ → Except IoError Bytes × σ
  | 0, s => (.ok [], s)
  | room + 1, s =>
    match Supply.next s with
    | .finish rest => (.ok [], rest)
    | .fault cause rest => (.error cause, rest)
    | .byte b rest =>
      if b = Bytes.newline then (.ok [b], rest)
      else match readBytes room rest with
        | (.ok bs, rest) => (.ok (b :: bs), rest)
        | (.error cause, rest) => (.error cause, rest)

/-! ## One window -/

variable [LawfulSupply σ]

/-- More looks than there are delays change nothing. -/
theorem Supply.nextWithin_enough {m n : Nat} {s : σ} (hm : Supply.delays s < m)
    (hn : Supply.delays s < n) : Supply.nextWithin m s = Supply.nextWithin n s := by
  induction m generalizing n s with
  | zero => omega
  | succ m ih =>
    obtain ⟨n, rfl⟩ : ∃ k, n = k + 1 := ⟨n - 1, by omega⟩
    simp only [Supply.nextWithin]
    cases hl : Supply.look s with
    | bytes available rest => cases available <;> rfl
    | fault cause rest => rfl
    | again rest =>
      have := LawfulSupply.delays_again hl
      exact ih (by omega) (by omega)

/-- The next byte is the one that a look shows, unless the look was interrupted. -/
theorem Supply.next_eq (s : σ) :
    Supply.next s = match Supply.look s with
      | .again rest => Supply.next rest
      | .fault cause rest => .fault cause rest
      | .bytes [] rest => .finish rest
      | .bytes (b :: _) rest => .byte b (Supply.consume 1 rest) := by
  unfold Supply.next
  rw [Supply.nextWithin]
  cases hl : Supply.look s with
  | bytes available rest => cases available <;> rfl
  | fault cause rest => rfl
  | again rest => exact Supply.nextWithin_enough (LawfulSupply.delays_again hl) (Nat.lt_succ_self _)

/-- One window, byte by byte: through its newline if it has one, and then to what is behind it. -/
theorem readBytes_window {available : Bytes} : ∀ {room : Nat} {s rest : σ},
    Supply.look s = .bytes available rest → available ≠ [] → 0 < room →
    readBytes room s =
      match (available.take room).findIdx? (· == Bytes.newline) with
      | some i => (.ok ((available.take room).take (i + 1)), Supply.consume (i + 1) rest)
      | none => inFrontOf (available.take room)
          (readBytes (room - (available.take room).length)
            (Supply.consume (available.take room).length rest)) := by
  induction available with
  | nil => exact fun _ hne _ => absurd rfl hne
  | cons b bs ih =>
    intro room s rest hl _ hroom
    obtain ⟨room, rfl⟩ : ∃ k, room = k + 1 := ⟨room - 1, by omega⟩
    rw [readBytes, Supply.next_eq, hl, List.take_succ_cons, List.findIdx?_cons]
    simp only [beq_iff_eq]
    by_cases hb : b = Bytes.newline
    · simp [hb]
    rw [if_neg hb, if_neg hb]
    by_cases hmore : bs = [] ∨ room = 0
    · -- the window is this byte alone
      have hw : bs.take room = [] := by rcases hmore with rfl | rfl <;> simp
      rw [hw]
      simp only [List.findIdx?_nil, Option.map_none, List.length_cons, List.length_nil,
        Nat.zero_add, Nat.add_sub_cancel]
      rcases readBytes room (Supply.consume 1 rest) with ⟨cause | bs', rest'⟩ <;> rfl
    · rw [not_or] at hmore
      have hlen : 0 < bs.length := List.length_pos_iff.2 hmore.1
      have hl' := LawfulSupply.look_consume hl (n := 1) (by simpa using hlen)
      rw [List.drop_one, List.tail_cons] at hl'
      rw [ih hl' hmore.1 (by omega)]
      cases hi : (bs.take room).findIdx? (· == Bytes.newline) with
      | some i =>
        have hlt : i < (bs.take room).length := (List.findIdx?_eq_some_iff_findIdx_eq.1 hi).1
        rw [List.length_take] at hlt
        have hc := LawfulSupply.consume_consume hl (m := 1) (n := i + 1)
          (by rw [List.length_cons]; omega)
        simp only [Option.map_some, List.take_succ_cons]
        rw [hc, Nat.add_comm 1]
      | none =>
        have hc := LawfulSupply.consume_consume hl (m := 1) (n := (bs.take room).length)
          (by rw [List.length_cons, List.length_take]; omega)
        simp only [Option.map_none, List.length_cons]
        rw [hc, Nat.add_comm 1, Nat.add_sub_add_right]
        rcases readBytes (room - (bs.take room).length) _ with ⟨cause | bs', rest'⟩ <;> simp

/-! ## The read in windows -/

/-- The read in windows takes what the read byte by byte takes, behind what was taken already. -/
theorem readWindows_eq {limit looks : Nat} {taken : Bytes} {s : σ}
    (h : Supply.delays s + (limit - taken.length) < looks) :
    readWindows limit looks taken s = inFrontOf taken (readBytes (limit - taken.length) s) := by
  induction looks generalizing taken s with
  | zero => omega
  | succ looks ih =>
    rw [readWindows]
    by_cases hfull : limit ≤ taken.length
    · rw [if_pos hfull, Nat.sub_eq_zero_of_le hfull, readBytes, inFrontOf_ok, List.append_nil]
    rw [if_neg hfull]
    obtain ⟨room, hroom⟩ : ∃ k, limit - taken.length = k + 1 :=
      ⟨limit - taken.length - 1, by omega⟩
    cases hl : Supply.look s with
    | again rest =>
      have := LawfulSupply.delays_again hl
      simp only
      rw [ih (by omega), hroom, readBytes, readBytes, Supply.next_eq s, hl]
    | fault cause rest => rw [hroom, readBytes, Supply.next_eq, hl, inFrontOf_error]
    | bytes available rest =>
      simp only
      cases available with
      | nil => rw [hroom, readBytes, Supply.next_eq, hl]; simp
      | cons b bs =>
        rw [readBytes_window hl (List.cons_ne_nil b bs) (by omega), List.isEmpty_cons,
          if_neg Bool.false_ne_true]
        generalize hw : (b :: bs).take (limit - taken.length) = window
        have hpos : 0 < window.length := by
          rw [← hw, List.length_take, List.length_cons]
          omega
        cases window.findIdx? (· == Bytes.newline) with
        | some i => rfl
        | none =>
          have := LawfulSupply.delays_consume hl (n := window.length)
          have hleft : limit - (taken ++ window).length = limit - taken.length - window.length := by
            rw [List.length_append]; omega
          simp only
          rw [ih (by rw [hleft]; omega), hleft, inFrontOf_inFrontOf]

/-- **A bounded read, byte by byte.** However what is at hand is cut into windows by the blocks, the
room and the newlines, the read takes the bytes in order through the first newline and stops when
the room is used up. -/
theorem readChunk_bytewise (limit : Nat) (s : σ) :
    readChunk limit s =
      match readBytes (effectiveLimit limit) s with
      | (.error cause, rest) => (.error cause, rest)
      | (.ok [], rest) => (.ok none, rest)
      | (.ok bs, rest) => (.ok (some ⟨bs, effectiveLimit limit⟩), rest) := by
  unfold readChunk
  simp only
  rw [readWindows_eq (by simp only [List.length_nil]; omega), List.length_nil, Nat.sub_zero]
  rcases readBytes (effectiveLimit limit) s with ⟨cause | bs, rest⟩ <;> rfl

end

/-! ## Pieces -/

namespace Piece

@[simp] theorem content_bytes (bs : Bytes) (pieces : List Piece) :
    content (.bytes bs :: pieces) = bs ++ content pieces := by
  cases bs <;> rfl

@[simp] theorem content_leaving (bs : Bytes) (pieces : List Piece) :
    content (leaving bs pieces) = bs ++ content pieces := by
  cases bs <;> rfl

/-- Taken from what is left of a block, bytes leave less of it. -/
theorem consume_leaving {bs : Bytes} {n : Nat} (h : n ≤ bs.length) (pieces : List Piece) :
    consume n (leaving bs pieces) = leaving (bs.drop n) pieces := by
  cases bs with
  | nil =>
    obtain rfl : n = 0 := by simpa using h
    cases pieces with
    | nil => rfl
    | cons p pieces => cases p <;> rfl
  | cons b bs => rfl

theorem look_leaving {bs : Bytes} (h : bs ≠ []) (pieces : List Piece) :
    look (leaving bs pieces) = .bytes bs (leaving bs pieces) := by
  cases bs with
  | nil => exact absurd rfl h
  | cons b bs => rfl

/-- What a look shows is the block at the front, and it stays there. -/
theorem look_bytes {pieces rest : List Piece} {available : Bytes}
    (h : look pieces = .bytes available rest) :
    ∃ behind, pieces = leaving available behind ∧ rest = leaving available behind := by
  cases pieces with
  | nil => cases h; exact ⟨[], rfl, rfl⟩
  | cons p behind =>
    cases p <;> cases h
    exact ⟨behind, rfl, rfl⟩

theorem length_consume_le (n : Nat) (pieces : List Piece) :
    (consume n pieces).length ≤ pieces.length := by
  unfold consume
  split
  · rename_i b bs behind
    cases (b :: bs).drop n <;> simp [leaving]
  · exact Nat.le_refl _

instance : LawfulSupply (List Piece) where
  delays_again {s rest} h := by
    cases s with
    | nil => cases h
    | cons p behind => cases p <;> cases h; exact Nat.lt_succ_self _
  delays_consume {s rest available n} h := by
    obtain ⟨behind, rfl, rfl⟩ := look_bytes h
    exact length_consume_le n _
  look_consume {s rest available n} h hn := by
    obtain ⟨behind, rfl, rfl⟩ := look_bytes h
    show look (consume n _) = .bytes _ (consume n _)
    rw [consume_leaving (Nat.le_of_lt hn)]
    exact look_leaving (by simpa using hn) behind
  consume_consume {s rest available m n} h hmn := by
    obtain ⟨behind, rfl, rfl⟩ := look_bytes h
    show consume n (consume m _) = consume (m + n) _
    rw [consume_leaving (by omega), consume_leaving (by rw [List.length_drop]; omega),
      consume_leaving hmn, List.drop_drop]

/-- The next byte of the pieces. Interruptions are passed over. -/
def next : List Piece → Next (List Piece)
  | [] => .finish []
  | .block b bs :: pieces => .byte b (leaving bs pieces)
  | .interruption :: pieces => next pieces
  | .fault cause :: pieces => .fault cause pieces

theorem supply_next (pieces : List Piece) : Supply.next pieces = next pieces := by
  fun_induction next pieces with
  | case1 => rfl
  | case2 b bs pieces => rfl
  | case3 pieces ih => rw [Supply.next_eq]; exact ih
  | case4 cause pieces => rfl

theorem content_byte {pieces rest : List Piece} {b : UInt8} (h : next pieces = .byte b rest) :
    content pieces = b :: content rest := by
  fun_induction next pieces with
  | case1 => cases h
  | case2 c bs pieces => cases h; simp [content]
  | case3 pieces ih => exact ih h
  | case4 cause pieces => cases h

theorem finish_eq_nil {pieces rest : List Piece} (h : next pieces = .finish rest) :
    rest = [] ∧ content pieces = [] := by
  fun_induction next pieces with
  | case1 => cases h; exact ⟨rfl, rfl⟩
  | case2 c bs pieces => cases h
  | case3 pieces ih => exact ih h
  | case4 cause pieces => cases h

end Piece

/-! ## Pieces and open files beside a system -/

theorem Look.map_eq_bytes {σ τ : Type} {f : σ → τ} {l : Look σ} {available : Bytes} {rest : τ}
    (h : l.map f = .bytes available rest) : ∃ r, l = .bytes available r ∧ f r = rest := by
  cases l <;> cases h
  exact ⟨_, rfl, rfl⟩

theorem Look.map_eq_again {σ τ : Type} {f : σ → τ} {l : Look σ} {rest : τ}
    (h : l.map f = .again rest) : ∃ r, l = .again r ∧ f r = rest := by
  cases l <;> cases h
  exact ⟨_, rfl, rfl⟩

instance : LawfulSupply (List Piece × System) where
  delays_again h := by
    obtain ⟨r, hl, rfl⟩ := Look.map_eq_again h
    exact LawfulSupply.delays_again (σ := List Piece) hl
  delays_consume h := by
    obtain ⟨r, hl, rfl⟩ := Look.map_eq_bytes h
    exact LawfulSupply.delays_consume (σ := List Piece) hl
  look_consume h hn := by
    obtain ⟨r, hl, rfl⟩ := Look.map_eq_bytes h
    exact congrArg (Look.map _) (LawfulSupply.look_consume (σ := List Piece) hl hn)
  consume_consume h hmn := by
    obtain ⟨r, hl, rfl⟩ := Look.map_eq_bytes h
    exact congrArg (·, _) (LawfulSupply.consume_consume (σ := List Piece) hl hmn)

/-- A system beside the pieces plays no part in the next byte. -/
theorem Piece.supply_next_beside (pieces : List Piece) (system : System) :
    Supply.next (pieces, system) = (Piece.next pieces).map fun rest => (rest, system) := by
  fun_induction Piece.next pieces with
  | case1 => rfl
  | case2 b bs pieces => rfl
  | case3 pieces ih => rw [Supply.next_eq]; exact ih
  | case4 cause pieces => rfl

namespace Reader

/-- What a look shows is at the front of the block that was read last. -/
theorem look_bytes {s rest : Reader × System} {available : Bytes}
    (h : Supply.look s = .bytes available rest) :
    available = rest.1.buffer.take rest.1.quota := by
  simp only [Supply.look, look] at h
  split at h
  · rename_i hq
    cases h
    rw [hq, List.take_zero]
  · split at h
    · cases h; rfl
    · split at h <;> cases h
      rfl

instance : LawfulSupply (Reader × System) where
  delays_again {s rest} h := by
    simp only [Supply.look, look] at h
    split at h
    · cases h
    · split at h
      · cases h
      · split at h <;> cases h
  delays_consume _ := Nat.le_refl _
  look_consume {s rest available n} h hn := by
    obtain rfl := look_bytes h
    rw [List.length_take] at hn
    show look (consume n rest.1) rest.2 = .bytes _ (consume n rest.1, rest.2)
    have hquota : (consume n rest.1).quota ≠ 0 := by simp only [consume]; omega
    have hbuffer : (consume n rest.1).buffer ≠ [] := by
      simp only [consume, ne_eq, List.drop_eq_nil_iff]
      omega
    unfold look
    rw [if_neg hquota, if_pos (by simpa using hbuffer), List.drop_take]
    rfl
  consume_consume {s rest available m n} _ _ := by
    show (consume n (consume m rest.1), rest.2) = (consume (m + n) rest.1, rest.2)
    unfold consume
    simp only [List.drop_drop, Nat.sub_sub]

/-- The next byte, from the block read last or from a new one. -/
def next (r : Reader) (system : System) : Next (Reader × System) :=
  match r.quota with
  | 0 => .finish (r, system)
  | quota + 1 =>
    match r.buffer with
    | b :: bs => .byte b ({ r with buffer := bs, quota }, system)
    | [] =>
      match refill r.origin system with
      | (.error e, origin, system) => .fault (.os e) ({ r with origin }, system)
      | (.ok [], origin, system) => .finish ({ r with origin }, system)
      | (.ok (b :: bs), origin, system) => .byte b ({ origin, buffer := bs, quota }, system)

theorem supply_next (r : Reader) (system : System) : Supply.next (r, system) = next r system := by
  obtain ⟨origin, buffer, quota⟩ := r
  rw [Supply.next_eq]
  cases quota with
  | zero => rfl
  | succ quota =>
    cases buffer with
    | cons b bs => rfl
    | nil =>
      simp only [Supply.look, look, next, Nat.add_one_ne_zero, ↓reduceIte, List.isEmpty_nil,
        Bool.not_true, Bool.false_eq_true]
      rcases refill origin system with ⟨e | bs, origin', system'⟩
      · rfl
      · cases bs <;> rfl

end Reader

end LineShell
