import LineShell.Proofs.SideBySide
import LineShell.Proofs.Turns

/-!
# Input that is known and input that is read

A session reads its input from an open file, block by block, and so it may read what was written
there meanwhile. Beside it goes a session over the bytes that were in the file at first. The two do
the same as long as these bytes still stand in the file whenever the first session goes on reading.

* `Matched`, `Follows`: actions on states of two kinds, with the same outcomes in matching states.
* `Steps`: what two sessions need to have in common. `Steps.turn`: then their turns match.
* `Coupling`: a way to read a file beside a session that knows it. `Coupling.next_ahead`: both
  sessions find the same byte, whether it was in a block already or not.
* `Coupling.run_matched`: whole sessions match.
-/
namespace LineShell

namespace Action

/-! ## States of two kinds -/

variable {σ τ ε δ α β : Type} {P Q T L : σ → τ → Prop}

/-- The two outcomes are the same, in states that match. -/
inductive Matched (Q L : σ → τ → Prop) : EStateM.Result ε σ α → EStateM.Result ε τ α → Prop
  | ok {s : σ} {t : τ} (a : α) (h : Q s t) : Matched Q L (.ok a s) (.ok a t)
  | error {s : σ} {t : τ} (e : ε) (h : L s t) : Matched Q L (.error e s) (.error e t)

/-- From matching states the two actions have the same outcome. -/
def Follows (P Q L : σ → τ → Prop) (x : Action σ ε α) (y : Action τ ε α) : Prop :=
  ∀ s t, P s t → Matched Q L (x s) (y t)

theorem Matched.of_ok {r : EStateM.Result ε σ α} {r' : EStateM.Result ε τ α} {a : α} {t : τ}
    (h : Matched Q L r r') (hr : r' = .ok a t) : ∃ s, r = .ok a s ∧ Q s t := by
  subst hr
  cases h with
  | ok _ h => exact ⟨_, rfl, h⟩

theorem Matched.of_error {r : EStateM.Result ε σ α} {r' : EStateM.Result ε τ α} {e : ε} {t : τ}
    (h : Matched Q L r r') (hr : r' = .error e t) : ∃ s, r = .error e s ∧ L s t := by
  subst hr
  cases h with
  | error _ h => exact ⟨_, rfl, h⟩

theorem follows_pure (h : ∀ s t, P s t → Q s t) (a : α) :
    Follows P Q L (pure a : Action σ ε α) (pure a) := fun s t hp => .ok a (h s t hp)

theorem Follows.bind {x : Action σ ε α} {y : Action τ ε α} {f : α → Action σ ε β}
    {g : α → Action τ ε β} (hx : Follows P Q L x y) (hf : ∀ a, Follows Q T L (f a) (g a)) :
    Follows P T L (x >>= f) (y >>= g) := by
  intro s t h
  have hxs := hx s t h
  rw [bind_run, bind_run]
  generalize x s = r at hxs
  generalize y t = r' at hxs
  cases hxs with
  | ok a h' => exact hf a _ _ h'
  | error e h' => exact .error e h'

theorem Follows.orFail {x : Action σ ε α} {y : Action τ ε α} (hx : Follows P Q L x y) (f : ε → δ) :
    Follows P Q L (x.orFail f) (y.orFail f) := by
  intro s t h
  have hxs := hx s t h
  unfold Action.orFail
  generalize x s = r at hxs
  generalize y t = r' at hxs
  cases hxs with
  | ok a h' => exact .ok a h'
  | error e h' => exact .error (f e) h'

end Action

namespace Session

open LineShell.Action (Matched Follows follows_pure Abreast)

/-! ## Turns of two sessions -/

section Turns

variable {σ τ : Type} [Supply (σ × System)] [Supply (τ × System)]

/-- The sessions match by `P` before they read, by `Q` when they have read, and by `T` once the
commands of a line have been carried out. -/
structure Steps (programs : Programs) (config : Config) (P Q T L : Shell × σ → Shell × τ → Prop) :
    Prop where
  prompt : ∀ bytes, Follows P P L (onShell (Shell.say bytes)) (onShell (Shell.say bytes))
  read : Follows P Q L (read config) (read config)
  say : ∀ bytes, Follows Q Q L (onShell (Shell.say bytes)) (onShell (Shell.say bytes))
  passOver : Follows Q Q L (passOver config) (passOver config)
  line : ∀ line, Follows Q T L (onShell (Shell.runLine programs config line))
    (onShell (Shell.runLine programs config line))
  env : ∀ s t, T s t → s.1.env = t.1.env
  through : ∀ s t, Q s t → T s t

variable {programs : Programs} {config : Config} {P Q T L : Shell × σ → Shell × τ → Prop}

theorem Steps.turn (h : Steps programs config P Q T L) (mode : SessionMode) :
    Follows P T L (turn programs config mode) (turn programs config mode) := by
  have hstaying : Follows T T L
      (do return !(← get).1.env.leaving : Action (Shell × σ) SessionFailure Bool)
      (do return !(← get).1.env.leaving) := by
    intro s t ht
    simp only [Action.bind_run, Action.get_run, Action.pure_run, h.env s t ht]
    exact .ok _ ht
  have hchunk : ∀ chunk : Chunk, Follows Q T L
      (do
        (onShell (Shell.say chunk.bytes)).orFail .output
        if chunk.isOverlong then
          (Session.passOver config).orFail .input
          (onShell Shell.report).orFail .output
          return true
        (onShell (Shell.runLine programs config chunk.text)).orFail .output
        return !(← get).1.env.leaving : Action (Shell × σ) SessionFailure Bool)
      (do
        (onShell (Shell.say chunk.bytes)).orFail .output
        if chunk.isOverlong then
          (Session.passOver config).orFail .input
          (onShell Shell.report).orFail .output
          return true
        (onShell (Shell.runLine programs config chunk.text)).orFail .output
        return !(← get).1.env.leaving) := by
    intro chunk
    refine ((h.say _).orFail _).bind fun _ => ?_
    split
    · exact (h.passOver.orFail _).bind fun _ => ((h.say _).orFail _).bind fun _ =>
        follows_pure h.through true
    · exact ((h.line _).orFail _).bind fun _ => hstaying
  unfold Session.turn
  cases mode with
  | interactive =>
    refine ((h.prompt _).orFail _).bind fun _ => (h.read.orFail _).bind fun chunk => ?_
    cases chunk with
    | none => exact ((h.say _).orFail _).bind fun _ => follows_pure h.through false
    | some chunk => exact hchunk chunk
  | batch =>
    refine (h.read.orFail _).bind fun chunk => ?_
    cases chunk with
    | none => exact follows_pure h.through false
    | some chunk =>
      by_cases hb : chunk.isBlank = true
      · simp only [hb]
        exact follows_pure h.through true
      · simp only [hb]
        exact hchunk chunk

end Turns

/-! ## A file beside its bytes -/

/-- The next byte of pieces without faults is the first that is left of them. -/
theorem next_of_content {pieces : List Piece} (hf : Piece.Faultless pieces) {b : UInt8} {bs : Bytes}
    (hc : Piece.content pieces = b :: bs) : ∃ rest,
      Piece.next pieces = .byte b rest ∧ Piece.content rest = bs ∧ Piece.Faultless rest := by
  rcases Piece.next_faultless hf with ⟨b', rest, hn, hf'⟩ | hn
  · have hcontent := Piece.content_byte hn
    rw [hc] at hcontent
    cases hcontent
    exact ⟨rest, hn, rfl, hf'⟩
  · rw [(Piece.finish_eq_nil hn).2] at hc
    cases hc

theorem next_of_nil {pieces : List Piece} (hf : Piece.Faultless pieces)
    (hc : Piece.content pieces = []) : Piece.next pieces = .finish [] := by
  rcases Piece.next_faultless hf with ⟨b, rest, hn, -⟩ | hn
  · rw [Piece.content_byte hn] at hc
    cases hc
  · exact hn

/-- The file holds the bytes. Without a file there are none. -/
def Holds (source : Option Ino) (content : Bytes) (t : Tree) : Prop :=
  match source with
  | none => content = []
  | some i => t.read i = .ok content

/-- The shells are the same but for their systems, which match. -/
structure Coupled (S : System → System → Prop) (s t : Shell) : Prop where
  env : s.env = t.env
  transcript : s.transcript = t.transcript
  system : S s.system t.system

/-- A session reads a file from a place that depends on the position, in a system that matches the
one of the other session by `S`. -/
structure Coupling (programs : Programs) (config : Config) (source : Option Ino) (content : Bytes)
    (S : Nat → System → System → Prop) (place : Nat → Origin) : Prop where
  files : ∀ {pos a b}, S pos a b → a.files = b.files
  refill : ∀ {pos a b}, S pos a b → Holds source content a.files → ∃ bs a',
    Reader.refill (place pos) a = (.ok bs, place (pos + bs.length), a') ∧
    S (pos + bs.length) a' b ∧
    bs ++ content.drop (pos + bs.length) = content.drop pos ∧ (bs = [] → content.drop pos = [])
  line : ∀ pos line, Abreast (Coupled (S pos)) (fun _ _ => False)
    (Shell.runLine programs config line)

/-- What the reader still finds is what is left of the pieces. -/
structure Ahead (content : Bytes) (S : Nat → System → System → Prop) (place : Nat → Origin)
    (x : Reader × System) (y : List Piece × System) : Prop where
  found : ∃ pos, S pos x.2 y.2 ∧ x.1.origin = place pos ∧
    x.1.buffer ++ content.drop pos = Piece.content y.1
  faultless : Piece.Faultless y.1
  quota : (Piece.content y.1).length ≤ x.1.quota

/-- The sessions have come to the same point. -/
structure Tracks (content : Bytes) (S : Nat → System → System → Prop) (place : Nat → Origin)
    (s : Shell × Reader) (t : Shell × List Piece) : Prop where
  env : s.1.env = t.1.env
  transcript : s.1.transcript = t.1.transcript
  ahead : Ahead content S place (s.2, s.1.system) (t.2, t.1.system)

/-- And the file still holds its bytes. -/
structure Reads (source : Option Ino) (content : Bytes) (S : Nat → System → System → Prop)
    (place : Nat → Origin) (s : Shell × Reader) (t : Shell × List Piece) : Prop
    extends Tracks content S place s t where
  holds : Holds source content s.1.system.files

/-- The shells are coupled, wherever their inputs are. -/
def Ends (S : Nat → System → System → Prop) (s : Shell × Reader) (t : Shell × List Piece) : Prop :=
  ∃ pos, Coupled (S pos) s.1 t.1

section Sessions

variable {programs : Programs} {config : Config} {source : Option Ino} {content : Bytes}
  {S : Nat → System → System → Prop} {place : Nat → Origin}

/-- What is written depends on the transcript alone. -/
theorem say_follows (bytes : Bytes) : Follows (Reads source content S place)
    (Reads source content S place) (Ends S) (onShell (Shell.say bytes))
    (onShell (Shell.say bytes)) := by
  rintro ⟨s, reader⟩ ⟨t, pieces⟩ h
  obtain ⟨pos, hS, -⟩ := h.ahead.found
  have htranscript : s.transcript = t.transcript := h.transcript
  unfold onShell Shell.say
  simp only [htranscript]
  rcases t.transcript.say bytes with ⟨e | u, transcript⟩
  · exact .error e ⟨pos, h.env, rfl, hS⟩
  · exact .ok u ⟨⟨h.env, rfl, h.ahead⟩, h.holds⟩

namespace Coupling

variable (c : Coupling programs config source content S place)
include c

/-- Both sessions find the same byte, or the end of the input. -/
theorem next_ahead {x : Reader × System} {y : List Piece × System}
    (h : Ahead content S place x y) (hholds : Holds source content x.2.files) :
    (∃ b x' y', Supply.next x = .byte b x' ∧ Supply.next y = .byte b y' ∧
        Ahead content S place x' y' ∧ x'.2.files = x.2.files) ∨
      ∃ x' y', Supply.next x = .finish x' ∧ Supply.next y = .finish y' ∧
        Ahead content S place x' y' ∧ x'.2.files = x.2.files := by
  obtain ⟨⟨origin, buffer, quota⟩, system⟩ := x
  obtain ⟨pieces, system'⟩ := y
  obtain ⟨⟨pos, hS, rfl, hfound⟩, hfaultless, hquota⟩ := h
  simp only at hS hfound hfaultless hquota hholds
  simp only [Reader.supply_next, Piece.supply_next_beside, Reader.next]
  cases quota with
  | zero =>
    have hc : Piece.content pieces = [] := List.eq_nil_of_length_eq_zero (Nat.le_zero.1 hquota)
    rw [next_of_nil hfaultless hc]
    rw [hc] at hfound
    exact Or.inr ⟨_, _, rfl, rfl, ⟨⟨pos, hS, rfl, hfound⟩, Piece.faultless_nil, Nat.zero_le _⟩, rfl⟩
  | succ quota =>
    cases buffer with
    | cons b bs =>
      obtain ⟨rest, hnext, hrest, hf⟩ := next_of_content hfaultless hfound.symm
      rw [← hfound] at hquota
      rw [hnext]
      refine Or.inl ⟨b, _, _, rfl, rfl, ⟨⟨pos, hS, rfl, hrest.symm⟩, hf, ?_⟩, rfl⟩
      rw [hrest]
      exact Nat.le_of_succ_le_succ hquota
    | nil =>
      obtain ⟨bs, a', hrefill, hS', hsplit, hend⟩ := c.refill hS hholds
      have hfiles : a'.files = system.files := (c.files hS').trans (c.files hS).symm
      rw [List.nil_append] at hfound
      rw [hfound] at hsplit hend
      simp only [hrefill]
      cases bs with
      | nil =>
        rw [next_of_nil hfaultless (hend rfl)]
        rw [hend rfl] at hsplit
        exact Or.inr ⟨_, _, rfl, rfl,
          ⟨⟨_, hS', rfl, hsplit⟩, Piece.faultless_nil, Nat.zero_le _⟩, hfiles⟩
      | cons b bs =>
        obtain ⟨rest, hnext, hrest, hf⟩ := next_of_content hfaultless hsplit.symm
        rw [← hsplit] at hquota
        rw [hnext]
        refine Or.inl ⟨b, _, _, rfl, rfl, ⟨⟨_, hS', rfl, hrest.symm⟩, hf, ?_⟩, hfiles⟩
        rw [hrest]
        exact Nat.le_of_succ_le_succ hquota

/-- So one bounded read takes the same from both. -/
theorem readBytes_ahead (room : Nat) {x : Reader × System} {y : List Piece × System}
    (h : Ahead content S place x y) (hholds : Holds source content x.2.files) :
    ∃ bs x' y', readBytes room x = (.ok bs, x') ∧ readBytes room y = (.ok bs, y') ∧
      Ahead content S place x' y' ∧ x'.2.files = x.2.files := by
  induction room generalizing x y with
  | zero => exact ⟨[], x, y, rfl, rfl, h, rfl⟩
  | succ room ih =>
    simp only [readBytes]
    rcases c.next_ahead h hholds with ⟨b, x', y', hx, hy, h', hfiles⟩ | ⟨x', y', hx, hy, h', hfiles⟩
    · rw [hx, hy]
      simp only
      by_cases hb : b = Bytes.newline
      · rw [if_pos hb, if_pos hb]
        exact ⟨[b], x', y', rfl, rfl, h', hfiles⟩
      · rw [← hfiles] at hholds
        obtain ⟨bs, x'', y'', hx', hy', h'', hfiles'⟩ := ih h' hholds
        rw [if_neg hb, if_neg hb, hx', hy']
        exact ⟨b :: bs, x'', y'', rfl, rfl, h'', hfiles'.trans hfiles⟩
    · rw [hx, hy]
      exact ⟨[], x', y', rfl, rfl, h', hfiles⟩

theorem readChunk_ahead (limit : Nat) {x : Reader × System} {y : List Piece × System}
    (h : Ahead content S place x y) (hholds : Holds source content x.2.files) :
    ∃ chunk x' y', readChunk limit x = (.ok chunk, x') ∧ readChunk limit y = (.ok chunk, y') ∧
      Ahead content S place x' y' ∧ x'.2.files = x.2.files := by
  obtain ⟨bs, x', y', hx, hy, h', hfiles⟩ := c.readBytes_ahead (effectiveLimit limit) h hholds
  rw [readChunk_bytewise, readChunk_bytewise, hx, hy]
  cases bs with
  | nil => exact ⟨none, x', y', rfl, rfl, h', hfiles⟩
  | cons b bs => exact ⟨_, x', y', rfl, rfl, h', hfiles⟩

/-! ## Sessions side by side -/

theorem read_follows : Follows (Reads source content S place) (Reads source content S place)
    (Ends S) (read config) (read config) := by
  rintro ⟨s, reader⟩ ⟨t, pieces⟩ h
  obtain ⟨chunk, ⟨reader', system⟩, ⟨pieces', system'⟩, hx, hy, hahead, hfiles⟩ :=
    c.readChunk_ahead config.lineLimit h.ahead h.holds
  unfold read
  simp only [hx, hy]
  refine .ok chunk ⟨⟨h.env, h.transcript, hahead⟩, ?_⟩
  show Holds source content system.files
  rw [hfiles]
  exact h.holds

/-- Any fuel that is enough for the bytes to come is enough on both sides. -/
theorem echoRest_matched (m n : Nat) {s : Shell × Reader} {t : Shell × List Piece}
    (h : Reads source content S place s t) (hm : remaining t < m) (hn : remaining t < n) :
    Matched (Reads source content S place) (Ends S)
      (echoRest (read config) (fun bytes => onShell (Shell.say bytes)) m s)
      (echoRest (read config) (fun bytes => onShell (Shell.say bytes)) n t) := by
  induction m generalizing n s t with
  | zero => cases hm
  | succ m ih =>
    cases n with
    | zero => cases hn
    | succ n =>
      rw [echoRest, echoRest, Action.bind_run, Action.bind_run]
      cases hr : read config t with
      | error e t' =>
        obtain ⟨s', hs, h'⟩ := (c.read_follows s t h).of_error hr
        rw [hs]
        exact .error e h'
      | ok chunk t' =>
        obtain ⟨s', hs, h'⟩ := (c.read_follows s t h).of_ok hr
        rw [hs]
        cases chunk with
        | none => exact .ok () h'
        | some chunk =>
          simp only
          rw [Action.bind_run, Action.bind_run]
          cases hsay : (onShell (Shell.say chunk.bytes) : Action _ IoError Unit) t' with
          | error e t'' =>
            obtain ⟨s'', hs', h''⟩ := (say_follows chunk.bytes s' t' h').of_error hsay
            rw [hs']
            exact .error e h''
          | ok u t'' =>
            obtain ⟨s'', hs', h''⟩ := (say_follows chunk.bytes s' t' h').of_ok hsay
            rw [hs']
            -- the chunk is gone from the front of the input
            obtain ⟨-, taken, hconsumed, htaken⟩ := read_moves config hr
            have hleft : remaining t = taken.length + remaining t'' := by
              show (Piece.content t.2).length = _ + (Piece.content t''.2).length
              rw [(onShell_ok hsay).2, hconsumed.content, List.length_append]
            have hpos := List.length_pos_iff.2 (htaken chunk rfl).2
            cases hends : chunk.endsLine with
            | true => exact .ok () h''
            | false => exact ih n h'' (by omega) (by omega)

theorem passOver_follows : Follows (Reads source content S place) (Reads source content S place)
    (Ends S) (passOver config) (passOver config) := by
  intro s t h
  have hquota : remaining t ≤ remaining s := h.ahead.quota
  exact c.echoRest_matched _ _ h (Nat.lt_succ_of_le hquota) (Nat.lt_succ_self _)

/-- Commands may change the file. -/
theorem line_follows (line : Bytes) : Follows (Reads source content S place)
    (Tracks content S place) (Ends S) (onShell (Shell.runLine programs config line))
    (onShell (Shell.runLine programs config line)) := by
  rintro ⟨s, reader⟩ ⟨t, pieces⟩ h
  obtain ⟨pos, hS, horigin, hfound⟩ := h.ahead.found
  have hline := c.line pos line s t ⟨h.env, h.transcript, hS⟩
  unfold onShell
  simp only
  generalize Shell.runLine programs config line s = r at hline
  generalize Shell.runLine programs config line t = r' at hline
  cases hline with
  | ok u h' =>
    exact .ok u ⟨h'.env, h'.transcript,
      ⟨pos, h'.system, horigin, hfound⟩, h.ahead.faultless, h.ahead.quota⟩
  | error e h' => exact .error e ⟨pos, h'⟩
  | cut e h' => exact h'.elim

theorem steps : Steps programs config (Reads source content S place)
    (Reads source content S place) (Tracks content S place) (Ends S) where
  prompt := say_follows
  read := c.read_follows
  say := say_follows
  passOver := c.passOver_follows
  line := c.line_follows
  env _ _ h := h.env
  through _ _ h := h.toTracks

/-- Any fuel that is enough for the bytes to come is enough on both sides. The file is looked at
again after each turn. -/
theorem turns_matched (mode : SessionMode) {t₀ : Shell × List Piece}
    (hstill : ∀ t, Reaches programs config mode t₀ t → Holds source content t.1.system.files)
    (m n : Nat) {s : Shell × Reader} {t : Shell × List Piece}
    (h : Reads source content S place s t) (hreached : Reaches programs config mode t₀ t)
    (hm : remaining t < m) (hn : remaining t < n) :
    Matched (Tracks content S place) (Ends S) (turns programs config mode m s)
      (turns programs config mode n t) := by
  induction m generalizing n s t with
  | zero => cases hm
  | succ m ih =>
    cases n with
    | zero => cases hn
    | succ n =>
      rw [turns, turns, Action.bind_run, Action.bind_run]
      cases ht : turn programs config mode t with
      | error e t' =>
        obtain ⟨s', hs, h'⟩ := (c.steps.turn mode s t h).of_error ht
        rw [hs]
        exact .error e h'
      | ok goOn t' =>
        obtain ⟨s', hs, h'⟩ := (c.steps.turn mode s t h).of_ok ht
        rw [hs]
        cases goOn with
        | false => exact .ok () h'
        | true =>
          have hlt := remaining_lt ht
          have hreached' := hreached.trans (.one ht)
          obtain ⟨pos, hS, -⟩ := h'.ahead.found
          have hholds : Holds source content s'.1.system.files := by
            rw [c.files hS]
            exact hstill t' hreached'
          exact ih n ⟨h', hholds⟩ hreached' (by omega) (by omega)

/-- **A file is read as it was.** If the file holds the same bytes whenever the session that knows
them goes on, the session that reads the file does the same. -/
theorem run_matched (mode : SessionMode) {s : Shell × Reader} {t : Shell × List Piece}
    (h : Reads source content S place s t)
    (hstill : ∀ t', Reaches programs config mode t t' → Holds source content t'.1.system.files) :
    Matched (Tracks content S place) (Ends S) (run programs config mode s)
      (run programs config mode t) := by
  have hquota : remaining t ≤ remaining s := h.ahead.quota
  exact c.turns_matched mode hstill _ _ h (.refl t) (Nat.lt_succ_of_le hquota)
    (Nat.lt_succ_self _)

end Coupling

end Sessions

end Session

end LineShell
