/-!
# Byte strings

Lines, words, names of files and file contents are strings of bytes, with no encoding of their
own. Text for people (names inside messages, prompts) is `String`.

* `Bytes.ofString`: the bytes of a text.
* `Bytes.splitOn`: the pieces between two occurrences of a separator, empty ones included;
  `joinWith_splitOn` puts them together again.
* `Bytes.cut`: what stands before and after the first occurrence of a byte string.
* `Bytes.decode`: the text of a byte string; each maximal part that is no UTF-8 becomes one
  replacement character.
-/
namespace LineShell

abbrev Bytes := List UInt8

namespace Bytes

/-- The bytes of a text in UTF-8. -/
def ofString (s : String) : Bytes := s.toUTF8.data.toList

def slash : UInt8 := 47

def newline : UInt8 := 10

/-! ## Pieces -/

/-- The pieces of a byte string between the bytes that satisfy `p`, empty ones included: one more
than there are such bytes. -/
def splitWhen (p : UInt8 → Bool) : Bytes → List Bytes
  | [] => [[]]
  | b :: bs =>
    if p b then [] :: splitWhen p bs
    else match splitWhen p bs with
      | [] => [[b]]
      | piece :: pieces => (b :: piece) :: pieces

/-- The pieces between two occurrences of `sep`. -/
def splitOn (sep : UInt8) (bs : Bytes) : List Bytes := splitWhen (· == sep) bs

/-- The pieces joined again by a separator. -/
def joinWith (sep : UInt8) : List Bytes → Bytes
  | [] => []
  | [piece] => piece
  | piece :: pieces => piece ++ sep :: joinWith sep pieces

theorem splitWhen_ne_nil (p : UInt8 → Bool) (bs : Bytes) : splitWhen p bs ≠ [] := by
  cases bs with
  | nil => simp [splitWhen]
  | cons b bs =>
    rw [splitWhen]
    split
    · simp
    · split <;> simp

/-- Nothing is lost by splitting. -/
theorem joinWith_splitOn (sep : UInt8) (bs : Bytes) : joinWith sep (splitOn sep bs) = bs := by
  induction bs with
  | nil => rfl
  | cons b bs ih =>
    unfold splitOn at ih ⊢
    rw [splitWhen]
    cases hs : splitWhen (· == sep) bs with
    | nil => exact absurd hs (splitWhen_ne_nil _ bs)
    | cons piece pieces =>
      rw [hs] at ih
      split
      · rename_i h
        simp [joinWith, ih, eq_of_beq h]
      · cases pieces <;> simpa [joinWith] using ih

/-- No piece holds a separator. -/
theorem splitWhen_free (p : UInt8 → Bool) (bs : Bytes) :
    ∀ piece ∈ splitWhen p bs, ∀ b ∈ piece, p b = false := by
  induction bs with
  | nil => simp [splitWhen]
  | cons b bs ih =>
    rw [splitWhen]
    split
    · simpa using ih
    · rename_i hb
      split
      · simpa using hb
      · rename_i piece pieces hs
        rw [hs] at ih
        simp only [List.mem_cons, forall_eq_or_imp] at ih ⊢
        exact ⟨⟨by simpa using hb, ih.1⟩, ih.2⟩

/-- A piece without separators in front of others grows the first of them. -/
theorem splitWhen_append {p : UInt8 → Bool} {piece bs first : Bytes} {pieces : List Bytes}
    (h : ∀ b ∈ piece, p b = false) (hs : splitWhen p bs = first :: pieces) :
    splitWhen p (piece ++ bs) = (piece ++ first) :: pieces := by
  induction piece with
  | nil => exact hs
  | cons b piece ih =>
    rw [List.cons_append, splitWhen, if_neg (by simp [h b List.mem_cons_self]),
      ih fun c hc => h c (List.mem_cons_of_mem _ hc)]
    rfl

/-- What stands before and after the first occurrence of a byte string in another. -/
def cut (mark : Bytes) : Bytes → Option (Bytes × Bytes)
  | [] => if mark.isEmpty then some ([], []) else none
  | b :: bs =>
    if mark.isPrefixOf (b :: bs) then some ([], (b :: bs).drop mark.length)
    else (cut mark bs).map fun (before, after) => (b :: before, after)

theorem eq_of_cut {mark bs before after : Bytes} (h : cut mark bs = some (before, after)) :
    bs = before ++ mark ++ after := by
  induction bs generalizing before with
  | nil =>
    simp only [cut] at h
    split at h
    · rename_i he
      simp_all
    · simp at h
  | cons b bs ih =>
    simp only [cut] at h
    split at h
    · rename_i hp
      simp only [Option.some.injEq, Prod.mk.injEq] at h
      obtain ⟨rfl, rfl⟩ := h
      obtain ⟨rest, hr⟩ := List.isPrefixOf_iff_prefix.1 hp
      simp [← hr]
    · simp only [Option.map_eq_some_iff, Prod.exists, Prod.mk.injEq] at h
      obtain ⟨before', after', hc, rfl, rfl⟩ := h
      simp [ih hc]

/-- What occurs in another byte string is found there. -/
theorem isSome_cut (mark before after : Bytes) :
    (cut mark (before ++ mark ++ after)).isSome = true := by
  induction before with
  | nil =>
    cases hm : mark ++ after with
    | nil => simp_all [cut]
    | cons b bs =>
      have hp : mark.isPrefixOf (b :: bs) = true := List.isPrefixOf_iff_prefix.2 ⟨after, hm⟩
      rw [List.nil_append, hm, cut, if_pos hp]
      rfl
  | cons b before ih =>
    rw [List.cons_append, List.cons_append, cut]
    split
    · rfl
    · rw [Option.isSome_map]
      exact ih

/-! ## Decoding -/

/-- The character that stands for bytes that are no UTF-8. -/
def replacement : Char := '\uFFFD'

/-- A character of several bytes that is not complete yet: `owed` bytes are still to come, the
next of them from `low` to `high`, and `value` holds the bits read so far. -/
structure Partial where
  owed : Nat
  low : UInt8
  high : UInt8
  value : Nat
  deriving DecidableEq, Repr

/-- What the first byte of a character says: all of it, nothing valid, or how it goes on. -/
def lead (b : UInt8) : List Char × Option Partial :=
  let n := b.toNat
  if n < 0x80 then ([Char.ofNat n], none)
  else if n < 0xC2 then ([replacement], none)
  else if n < 0xE0 then ([], some ⟨1, 0x80, 0xBF, n - 0xC0⟩)
  else if n = 0xE0 then ([], some ⟨2, 0xA0, 0xBF, 0⟩)
  else if n = 0xED then ([], some ⟨2, 0x80, 0x9F, 0xD⟩)
  else if n < 0xF0 then ([], some ⟨2, 0x80, 0xBF, n - 0xE0⟩)
  else if n = 0xF0 then ([], some ⟨3, 0x90, 0xBF, 0⟩)
  else if n < 0xF4 then ([], some ⟨3, 0x80, 0xBF, n - 0xF0⟩)
  else if n = 0xF4 then ([], some ⟨3, 0x80, 0x8F, 4⟩)
  else ([replacement], none)

/-- The next byte of a character that is not complete. One that cannot follow ends the part read
so far, which is replaced, and begins a character of its own. -/
def follow (p : Partial) (b : UInt8) : List Char × Option Partial :=
  if p.low ≤ b ∧ b ≤ p.high then
    let value := p.value * 64 + (b.toNat - 0x80)
    if p.owed ≤ 1 then ([Char.ofNat value], none)
    else ([], some ⟨p.owed - 1, 0x80, 0xBF, value⟩)
  else
    let (cs, q) := lead b
    (replacement :: cs, q)

/-- The characters of `bs` behind the incomplete character `p`. -/
def decodeFrom : Option Partial → Bytes → List Char
  | none, [] => []
  | some _, [] => [replacement]
  | none, b :: bs => (lead b).1 ++ decodeFrom (lead b).2 bs
  | some p, b :: bs => (follow p b).1 ++ decodeFrom (follow p b).2 bs

/-- The text of a byte string, with a replacement character for each maximal part of it that
begins no character of UTF-8 or breaks one off. -/
def decode (bs : Bytes) : String := String.ofList (decodeFrom none bs)

/-- Bytes below 128 are characters of their own. -/
theorem decodeFrom_ascii (bs : Bytes) (h : ∀ b ∈ bs, b.toNat < 0x80) :
    decodeFrom none bs = bs.map fun b => Char.ofNat b.toNat := by
  induction bs with
  | nil => rfl
  | cons b bs ih =>
    have hb := h b (by simp)
    have hl : lead b = ([Char.ofNat b.toNat], none) := by simp [lead, hb]
    simp [decodeFrom, hl, ih fun c hc => h c (by simp [hc])]

end Bytes

end LineShell
