import LineShell.Proofs.Windows

/-!
# What a bounded read takes

* `takeLine`: the bytes that one bounded read takes from the bytes still to come.
* `readChunk_eq`: a read takes just these, however the input is cut into pieces, and leaves the
  rest.
* `readChunk_consumes`: and in an input with faults what it takes is gone from the front.
-/
namespace LineShell

theorem effectiveLimit_pos (limit : Nat) : 0 < effectiveLimit limit := by
  unfold effectiveLimit; omega

/-- Up to `room` bytes, through the first newline among them. -/
def takeLine : (room : Nat) → Bytes → Bytes
  | 0, _ => []
  | _ + 1, [] => []
  | room + 1, b :: bs => if b = Bytes.newline then [b] else b :: takeLine room bs

@[simp] theorem takeLine_nil (room : Nat) : takeLine room [] = [] := by
  cases room with
  | zero => rfl
  | succ room => rfl

/-- A line that is longer than the room is cut. -/
theorem takeLine_cut {room : Nat} {body : Bytes} (rest : Bytes) (hb : Bytes.newline ∉ body)
    (h : room ≤ body.length) : takeLine room (body ++ rest) = body.take room := by
  induction room generalizing body with
  | zero => rfl
  | succ room ih =>
    cases body with
    | nil => simp at h
    | cons b body =>
      have hne : b ≠ Bytes.newline := fun e => hb (e ▸ List.mem_cons_self)
      have hb' : Bytes.newline ∉ body := fun hm => hb (List.mem_cons_of_mem _ hm)
      have hlen : room ≤ body.length := by simpa using h
      rw [List.cons_append, takeLine, if_neg hne, ih hb' hlen, List.take_succ_cons]

/-- A line that fits is taken with its newline, and nothing behind it. -/
theorem takeLine_whole {room : Nat} {body ending : Bytes} {rest : Bytes}
    (hb : Bytes.newline ∉ body) (he : ending = [Bytes.newline] ∨ ending = [] ∧ rest = [])
    (h : body.length < room) : takeLine room (body ++ ending ++ rest) = body ++ ending := by
  induction body generalizing room with
  | nil =>
    cases room with
    | zero => simp at h
    | succ room =>
      rcases he with rfl | ⟨rfl, rfl⟩
      · simp [takeLine]
      · simp
  | cons b body ih =>
    cases room with
    | zero => simp at h
    | succ room =>
      have hne : b ≠ Bytes.newline := fun e => hb (e ▸ List.mem_cons_self)
      have hb' : Bytes.newline ∉ body := fun hm => hb (List.mem_cons_of_mem _ hm)
      have hlen : body.length < room := by simpa using h
      rw [List.cons_append, List.cons_append, takeLine, if_neg hne, ih hb' hlen]

namespace Piece

/-- No read of the pieces fails. -/
def Faultless (pieces : List Piece) : Prop := ∀ cause, Piece.fault cause ∉ pieces

@[simp] theorem fault_ne_bytes (cause : IoError) (bs : Bytes) : Piece.fault cause ≠ .bytes bs := by
  cases bs <;> exact Piece.noConfusion

theorem faultless_nil : Faultless [] := fun _ => List.not_mem_nil

theorem faultless_bytes (bs : Bytes) : Faultless [.bytes bs] := by simp [Faultless]

theorem Faultless.tail {p : Piece} {pieces : List Piece} (h : Faultless (p :: pieces)) :
    Faultless pieces := fun cause hm => h cause (List.mem_cons_of_mem _ hm)

theorem Faultless.leaving {pieces : List Piece} (h : Faultless pieces) (bs : Bytes) :
    Faultless (Piece.leaving bs pieces) := by
  cases bs with
  | nil => exact h
  | cons b bs =>
    intro cause hm
    rcases List.mem_cons.1 hm with he | hm
    · cases he
    · exact h cause hm

/-- `rest` is what is left of the pieces when `taken` has been read from them. -/
structure Consumed (pieces rest : List Piece) (taken : Bytes) : Prop where
  content : content pieces = taken ++ content rest
  faultless : Faultless pieces → Faultless rest

theorem Consumed.refl (pieces : List Piece) : Consumed pieces pieces [] := ⟨rfl, fun h => h⟩

theorem Consumed.trans {pieces rest rest' : List Piece} {taken taken' : Bytes}
    (h : Consumed pieces rest taken) (h' : Consumed rest rest' taken') :
    Consumed pieces rest' (taken ++ taken') :=
  ⟨by rw [h.content, h'.content, List.append_assoc], fun hf => h'.faultless (h.faultless hf)⟩

theorem next_faultless {pieces : List Piece} (h : Faultless pieces) :
    (∃ b rest, next pieces = .byte b rest ∧ Faultless rest) ∨ next pieces = .finish [] := by
  fun_induction next pieces with
  | case1 => exact Or.inr rfl
  | case2 b bs pieces => exact Or.inl ⟨b, _, rfl, h.tail.leaving bs⟩
  | case3 pieces ih => exact ih h.tail
  | case4 cause pieces => exact absurd List.mem_cons_self (h cause)

theorem next_consumed {pieces rest : List Piece} {b : UInt8} (h : next pieces = .byte b rest) :
    Consumed pieces rest [b] := by
  refine ⟨content_byte h, fun hf => ?_⟩
  rcases next_faultless hf with ⟨b', rest', hn, hf'⟩ | hn
  · rw [h] at hn; cases hn; exact hf'
  · rw [h] at hn; cases hn

end Piece

section Read

variable {pieces rest : List Piece} {system system' : System}

/-- What a read takes is gone from the front of the pieces. -/
theorem readBytes_consumes {room : Nat} {bs : Bytes}
    (h : readBytes room (pieces, system) = (.ok bs, rest, system')) :
    system' = system ∧ Piece.Consumed pieces rest bs := by
  induction room generalizing pieces bs with
  | zero =>
    simp only [readBytes, Prod.mk.injEq, Except.ok.injEq] at h
    obtain ⟨rfl, rfl, rfl⟩ := h
    exact ⟨rfl, .refl _⟩
  | succ room ih =>
    simp only [readBytes, Piece.supply_next_beside] at h
    cases hn : Piece.next pieces with
    | finish rest' =>
      rw [hn] at h
      simp only [Next.map, Prod.mk.injEq, Except.ok.injEq] at h
      obtain ⟨rfl, rfl, rfl⟩ := h
      obtain ⟨rfl, hc⟩ := Piece.finish_eq_nil hn
      exact ⟨rfl, by rw [hc]; rfl, fun _ cause hm => by cases hm⟩
    | fault cause rest' =>
      rw [hn] at h
      simp [Next.map] at h
    | byte b rest' =>
      rw [hn] at h
      simp only [Next.map] at h
      have hb := Piece.next_consumed hn
      split at h
      · simp only [Prod.mk.injEq, Except.ok.injEq] at h
        obtain ⟨rfl, rfl, rfl⟩ := h
        exact ⟨rfl, hb⟩
      · split at h
        · rename_i bs' rest'' hr
          simp only [Prod.mk.injEq, Except.ok.injEq] at h
          obtain ⟨rfl, rfl⟩ := h
          obtain ⟨hs, hc⟩ := ih hr
          exact ⟨hs, hb.trans hc⟩
        · simp at h

/-- A read of pieces without faults takes the line, or as much of it as there is room for. -/
theorem readBytes_eq (hf : Piece.Faultless pieces) (room : Nat) (system : System) :
    ∃ rest, readBytes room (pieces, system) =
      (.ok (takeLine room (Piece.content pieces)), rest, system) := by
  induction room generalizing pieces with
  | zero => exact ⟨pieces, rfl⟩
  | succ room ih =>
    simp only [readBytes, Piece.supply_next_beside]
    rcases Piece.next_faultless hf with ⟨b, rest, hn, hf'⟩ | hn
    · rw [hn, Piece.content_byte hn]
      simp only [Next.map, takeLine]
      by_cases hb : b = Bytes.newline
      · rw [if_pos hb, if_pos hb]
        exact ⟨rest, rfl⟩
      · obtain ⟨rest', hr⟩ := ih hf'
        rw [if_neg hb, if_neg hb, hr]
        exact ⟨rest', rfl⟩
    · rw [hn, (Piece.finish_eq_nil hn).2]
      exact ⟨[], rfl⟩

theorem readChunk_consumes {limit : Nat} {chunk : Option Chunk}
    (h : readChunk limit (pieces, system) = (.ok chunk, rest, system')) :
    system' = system ∧ ∃ taken, Piece.Consumed pieces rest taken ∧
      ∀ c, chunk = some c → c.bytes = taken ∧ taken ≠ [] := by
  rw [readChunk_bytewise] at h
  cases hr : readBytes (effectiveLimit limit) (pieces, system) with
  | mk r rest' =>
    obtain ⟨rest', system''⟩ := rest'
    rw [hr] at h
    cases r with
    | error cause => simp at h
    | ok bs =>
      obtain ⟨hs, hc⟩ := readBytes_consumes hr
      cases bs with
      | nil =>
        simp only [Prod.mk.injEq, Except.ok.injEq] at h
        obtain ⟨rfl, rfl, rfl⟩ := h
        exact ⟨hs, [], hc, fun c he => by cases he⟩
      | cons b bs =>
        simp only [Prod.mk.injEq, Except.ok.injEq] at h
        obtain ⟨rfl, rfl, rfl⟩ := h
        refine ⟨hs, b :: bs, hc, fun c he => ?_⟩
        cases he
        exact ⟨rfl, by simp⟩

/-- The chunk that the line at the front gives. -/
theorem readChunk_eq (hf : Piece.Faultless pieces) (limit : Nat) (system : System) :
    ∃ rest, readChunk limit (pieces, system) =
        (.ok (if takeLine (effectiveLimit limit) (Piece.content pieces) = [] then none
          else some ⟨takeLine (effectiveLimit limit) (Piece.content pieces), effectiveLimit limit⟩),
          rest, system) ∧
      Piece.Consumed pieces rest (takeLine (effectiveLimit limit) (Piece.content pieces)) := by
  obtain ⟨rest, hr⟩ := readBytes_eq hf (effectiveLimit limit) system
  refine ⟨rest, ?_, (readBytes_consumes hr).2⟩
  rw [readChunk_bytewise, hr]
  cases takeLine (effectiveLimit limit) (Piece.content pieces) <;> rfl

end Read

end LineShell
