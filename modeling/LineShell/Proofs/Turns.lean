import LineShell.Proofs.Chunks
import LineShell.Proofs.Transcripts

/-!
# Turns of a session

The input of a session is a list of pieces here, known beforehand.

* `turn_eq`: a turn in its parts.
* `turn_moves`: a turn that goes on takes at least one byte from the front of the input, and only
  continues the transcript.
* `Reaches`: one state of a session comes after another by turns that go on. `run_eq_of_reaches`:
  the session is the same from either of them.
-/
namespace LineShell.Session

variable (programs : Programs) (config : Config)

/-! ## The parts of a turn -/

/-- The prompt, if the session has one. -/
def prompted (mode : SessionMode) : Action (Shell × List Piece) SessionFailure Unit :=
  if mode = .interactive then
    (onShell (Shell.say (Bytes.ofString config.prompt))).orFail .output
  else pure ()

/-- What follows on a chunk. -/
def heard (mode : SessionMode) (chunk : Chunk) :
    Action (Shell × List Piece) SessionFailure Bool := do
  if mode = .batch && chunk.isBlank then return true
  (onShell (Shell.say chunk.bytes)).orFail .output
  if chunk.isOverlong then
    (passOver config).orFail .input
    (onShell Shell.report).orFail .output
    return true
  (onShell (Shell.runLine programs config chunk.text)).orFail .output
  return !(← get).1.env.leaving

/-- What follows on the end of the input. -/
def finished (mode : SessionMode) : Action (Shell × List Piece) SessionFailure Bool := do
  if mode = .interactive then (onShell Shell.report).orFail .output
  return false

theorem turn_eq (mode : SessionMode) :
    turn programs config mode = (do
      prompted config mode
      match ← (read config).orFail .input with
      | none => finished mode
      | some chunk => heard programs config mode chunk) := by
  unfold turn prompted heard finished
  cases mode
  · rfl
  · rfl

/-- A batch session skips a chunk of white space. -/
theorem heard_blank {chunk : Chunk} (hb : chunk.isBlank = true) :
    heard programs config .batch chunk = pure true := by
  simp [heard, hb]

/-- A chunk that is skipped by no session of the mode. -/
def Heeded (mode : SessionMode) (chunk : Chunk) : Prop :=
  mode = .interactive ∨ chunk.isBlank = false

theorem heard_overlong {mode : SessionMode} {chunk : Chunk} (hm : Heeded mode chunk)
    (ho : chunk.isOverlong = true) :
    heard programs config mode chunk = (do
      (onShell (Shell.say chunk.bytes)).orFail .output
      (passOver config).orFail .input
      (onShell Shell.report).orFail .output
      return true) := by
  rcases hm with rfl | hb
  · simp [heard, ho]
  · simp [heard, ho, hb]

theorem heard_line {mode : SessionMode} {chunk : Chunk} (hm : Heeded mode chunk)
    (ho : chunk.isOverlong = false) :
    heard programs config mode chunk = (do
      (onShell (Shell.say chunk.bytes)).orFail .output
      (onShell (Shell.runLine programs config chunk.text)).orFail .output
      return !(← get).1.env.leaving) := by
  rcases hm with rfl | hb
  · simp [heard, ho]
  · simp [heard, ho, hb]

/-! ## What a turn takes -/

/-- `taken` has been read from the input, and the transcript has been continued. -/
structure Moves (s s' : Shell × List Piece) (taken : Bytes) : Prop where
  consumed : Piece.Consumed s.2 s'.2 taken
  continues : Continues s.1.transcript s'.1.transcript

theorem Moves.refl (s : Shell × List Piece) : Moves s s [] := ⟨.refl _, .refl _⟩

theorem Moves.trans {s s' s'' : Shell × List Piece} {taken taken' : Bytes} (h : Moves s s' taken)
    (h' : Moves s' s'' taken') : Moves s s'' (taken ++ taken') :=
  ⟨h.consumed.trans h'.consumed, h.continues.trans h'.continues⟩

/-- Whether it fails or not, the action only moves on. -/
def Steady {ε α : Type} (x : Action (Shell × List Piece) ε α) : Prop :=
  ∀ s a s', x s = .ok a s' → ∃ taken, Moves s s' taken

section Steady

variable {ε δ α β : Type}

theorem steady_pure (a : α) : Steady (pure a : Action (Shell × List Piece) ε α) := by
  intro s a' s' h
  cases h
  exact ⟨[], .refl s⟩

theorem steady_get : Steady (get : Action (Shell × List Piece) ε (Shell × List Piece)) := by
  intro s a' s' h
  cases h
  exact ⟨[], .refl s⟩

theorem steady_bind {x : Action (Shell × List Piece) ε α}
    {f : α → Action (Shell × List Piece) ε β} (hx : Steady x) (hf : ∀ a, Steady (f a)) :
    Steady (x >>= f) := by
  intro s b s' h
  rw [Action.bind_run] at h
  cases hr : x s with
  | ok a s₁ =>
    rw [hr] at h
    obtain ⟨taken, hm⟩ := hx s a s₁ hr
    obtain ⟨taken', hm'⟩ := hf a s₁ b s' h
    exact ⟨_, hm.trans hm'⟩
  | error e s₁ => rw [hr] at h; cases h

theorem orFail_ok {x : Action (Shell × List Piece) ε α} {f : ε → δ} {s s' : Shell × List Piece}
    {a : α} (h : x.orFail f s = .ok a s') : x s = .ok a s' := by
  unfold Action.orFail at h
  cases hr : x s with
  | ok b s₁ => rw [hr] at h; cases h; rfl
  | error e s₁ => rw [hr] at h; cases h

theorem steady_orFail {x : Action (Shell × List Piece) ε α} (f : ε → δ) (hx : Steady x) :
    Steady (x.orFail f) := fun s a s' h => hx s a s' (orFail_ok h)

theorem onShell_ok {x : Action Shell ε α} {s s' : Shell × List Piece} {a : α}
    (h : onShell x s = .ok a s') : x s.1 = .ok a s'.1 ∧ s'.2 = s.2 := by
  unfold onShell at h
  cases hr : x s.1 with
  | ok b s₁ => rw [hr] at h; cases h; exact ⟨rfl, rfl⟩
  | error e s₁ => rw [hr] at h; cases h

theorem steady_onShell {x : Action Shell ε α} (hx : Shell.Keeps x) :
    Steady (onShell x) := by
  intro s a s' h
  obtain ⟨hr, hp⟩ := onShell_ok h
  have hk := hx s.1
  rw [hr] at hk
  exact ⟨[], by rw [hp]; exact .refl _, hk⟩

end Steady

/-- What is read is gone from the input, and nothing else is different. -/
theorem read_moves {s s' : Shell × List Piece} {chunk : Option Chunk}
    (h : read config s = .ok chunk s') :
    s'.1 = s.1 ∧ ∃ taken, Piece.Consumed s.2 s'.2 taken ∧
      ∀ c, chunk = some c → c.bytes = taken ∧ taken ≠ [] := by
  unfold read at h
  cases hr : readChunk config.lineLimit (s.2, s.1.system) with
  | mk r rest =>
    obtain ⟨input, system⟩ := rest
    rw [hr] at h
    cases r with
    | error e => cases h
    | ok c =>
      cases h
      obtain ⟨hs, hc⟩ := readChunk_consumes hr
      exact ⟨by rw [hs], hc⟩

theorem steady_read :
    Steady (read config : Action (Shell × List Piece) IoError (Option Chunk)) := by
  intro s chunk s' h
  obtain ⟨hs, taken, hc, -⟩ := read_moves config h
  exact ⟨taken, hc, by rw [hs]; exact .refl _⟩

/-- So whatever a session does moves on. -/
theorem steady_pervasive : Pervasive programs config fun {ε α}
    (x : Action (Shell × List Piece) ε α) => Steady x where
  pure := steady_pure
  bind := steady_bind
  orFail hx f := steady_orFail f hx
  say bytes := steady_onShell (Shell.keeps_say bytes)
  line line := steady_onShell (Shell.keeps_runLine programs config line)
  read := steady_read config
  staying := steady_bind steady_get fun _ => steady_pure _
  enough hx s := hx _ s

theorem steady_prompted (mode : SessionMode) : Steady (prompted config mode) := by
  unfold prompted
  split
  · exact steady_orFail _ (steady_onShell (Shell.keeps_say _))
  · exact steady_pure ()

theorem steady_heard (mode : SessionMode) (chunk : Chunk) :
    Steady (heard programs config mode chunk) := by
  unfold heard
  split
  · exact steady_pure true
  refine steady_bind (steady_orFail _ (steady_onShell (Shell.keeps_say _))) fun _ => ?_
  split
  · exact steady_bind (steady_orFail _ (steady_pervasive programs config).passOver) fun _ =>
      steady_bind (steady_orFail _ (steady_onShell (Shell.keeps_say _))) fun _ => steady_pure true
  · exact steady_bind (steady_orFail _ (steady_onShell (Shell.keeps_runLine programs config _)))
      fun _ => steady_bind steady_get fun _ => steady_pure _

theorem finished_ne_true (mode : SessionMode) (s s' : Shell × List Piece) :
    finished mode s ≠ .ok true s' := by
  intro h
  unfold finished at h
  cases mode with
  | batch => cases h
  | interactive =>
    simp only [if_true, Action.bind_run] at h
    split at h
    · cases h
    · cases h

/-- A turn that does not end the session takes at least one byte. -/
theorem turn_moves {mode : SessionMode} {s s' : Shell × List Piece}
    (h : turn programs config mode s = .ok true s') : ∃ taken, taken ≠ [] ∧ Moves s s' taken := by
  rw [turn_eq, Action.bind_run] at h
  cases hp : prompted config mode s with
  | error e s₁ => rw [hp] at h; cases h
  | ok u s₁ =>
    rw [hp] at h
    simp only [Action.bind_run] at h
    obtain ⟨taken₁, hm₁⟩ := steady_prompted config mode s u s₁ hp
    cases hr : ((read config).orFail .input : Action _ SessionFailure _) s₁ with
    | error e s₂ => rw [hr] at h; cases h
    | ok chunk s₂ =>
      rw [hr] at h
      obtain ⟨hs, taken₂, hc, hchunk⟩ := read_moves config (orFail_ok hr)
      have hm₂ : Moves s₁ s₂ taken₂ := ⟨hc, by rw [hs]; exact .refl _⟩
      cases chunk with
      | none =>
        exact absurd h (finished_ne_true mode s₂ s')
      | some chunk =>
        obtain ⟨taken₃, hm₃⟩ := steady_heard programs config mode chunk s₂ true s' h
        refine ⟨_, ?_, hm₁.trans (hm₂.trans hm₃)⟩
        simp [(hchunk chunk rfl).2]

/-! ## Reaching a state -/

/-- The state after `n` turns, if all of them go on. -/
def goes (mode : SessionMode) : Nat → Shell × List Piece → Option (Shell × List Piece)
  | 0, s => some s
  | n + 1, s =>
    match turn programs config mode s with
    | .ok true s' => goes mode n s'
    | _ => none

/-- By turns that go on the session comes from one state to another. -/
def Reaches (mode : SessionMode) (s s' : Shell × List Piece) : Prop :=
  ∃ n, goes programs config mode n s = some s'

variable {programs config} {mode : SessionMode} {s s' s'' : Shell × List Piece}

theorem goes_add (m n : Nat) (s : Shell × List Piece) :
    goes programs config mode (m + n) s =
      (goes programs config mode m s).bind (goes programs config mode n) := by
  induction m generalizing s with
  | zero => simp [goes]
  | succ m ih =>
    rw [Nat.add_right_comm, goes, goes]
    split
    · exact ih _
    · rfl

theorem goes_one (h : turn programs config mode s = .ok true s') :
    goes programs config mode 1 s = some s' := by
  rw [goes, h]
  rfl

theorem Reaches.refl (s : Shell × List Piece) : Reaches programs config mode s s := ⟨0, rfl⟩

theorem Reaches.trans (h : Reaches programs config mode s s')
    (h' : Reaches programs config mode s' s'') : Reaches programs config mode s s'' := by
  obtain ⟨m, hm⟩ := h
  obtain ⟨n, hn⟩ := h'
  exact ⟨m + n, by rw [goes_add, hm]; exact hn⟩

theorem Reaches.one (h : turn programs config mode s = .ok true s') :
    Reaches programs config mode s s' := ⟨1, goes_one h⟩

/-- What holds across a turn holds between the states that a session comes to. -/
theorem across_reaches {Q : Shell → Shell → Prop} (h : Shell.AlongRuns programs config Q)
    (hread : Action.Across (OnShells Q) (read config : Action (Shell × List Piece) IoError _))
    (hreached : Reaches programs config mode s s') : Q s.1 s'.1 := by
  have hturn := (across_pervasive h hread).turn mode
  obtain ⟨n, hn⟩ := hreached
  induction n generalizing s with
  | zero =>
    cases hn
    exact h.refl _
  | succ n ih =>
    rw [goes] at hn
    split at hn
    · rename_i t ht
      have hone := hturn s
      rw [ht] at hone
      exact h.trans hone (ih hn)
    · cases hn

/-- Turns that go on take bytes from the front of the input, each at least one. -/
theorem goes_moves {n : Nat} (h : goes programs config mode n s = some s') :
    ∃ taken, Moves s s' taken ∧ n ≤ taken.length := by
  induction n generalizing s with
  | zero => cases h; exact ⟨[], .refl _, Nat.le_refl 0⟩
  | succ n ih =>
    rw [goes] at h
    split at h
    · rename_i s₁ ht
      obtain ⟨taken, hne, hm⟩ := turn_moves programs config ht
      obtain ⟨taken', hm', hn⟩ := ih h
      refine ⟨_, hm.trans hm', ?_⟩
      have := List.length_pos_iff.2 hne
      rw [List.length_append]
      omega
    · cases h

theorem Reaches.moves (h : Reaches programs config mode s s') : ∃ taken, Moves s s' taken := by
  obtain ⟨n, hn⟩ := h
  obtain ⟨taken, hm, -⟩ := goes_moves hn
  exact ⟨taken, hm⟩

theorem remaining_lt (h : turn programs config mode s = .ok true s') :
    remaining s' < remaining s := by
  obtain ⟨taken, hne, hm⟩ := turn_moves programs config h
  have hl : (Piece.content s.2).length = taken.length + (Piece.content s'.2).length := by
    rw [hm.consumed.content, List.length_append]
  have := List.length_pos_iff.2 hne
  show (Piece.content s'.2).length < (Piece.content s.2).length
  omega

/-- There are never more turns than bytes, and one. -/
theorem turns_enough {fuel fuel' : Nat} (h : remaining s < fuel) (h' : remaining s < fuel') :
    turns programs config mode fuel s = turns programs config mode fuel' s := by
  induction fuel generalizing s fuel' with
  | zero => omega
  | succ fuel ih =>
    cases fuel' with
    | zero => omega
    | succ fuel' =>
      rw [turns, turns, Action.bind_run, Action.bind_run]
      cases ht : Session.turn programs config mode s with
      | error e s₁ => rfl
      | ok goOn s₁ =>
        cases goOn with
        | false => rfl
        | true =>
          have hlt := remaining_lt ht
          exact ih (by omega) (by omega)

theorem run_eq_of_turn (h : turn programs config mode s = .ok true s') :
    run programs config mode s = run programs config mode s' := by
  unfold run
  rw [turns, Action.bind_run, h]
  have hlt := remaining_lt h
  exact turns_enough hlt (Nat.lt_succ_self _)

/-- The session is the same from every state that it reaches. -/
theorem run_eq_of_reaches (h : Reaches programs config mode s s') :
    run programs config mode s = run programs config mode s' := by
  obtain ⟨n, hn⟩ := h
  induction n generalizing s with
  | zero => cases hn; rfl
  | succ n ih =>
    rw [goes] at hn
    split at hn
    · rename_i s₁ ht
      rw [run_eq_of_turn ht]
      exact ih hn
    · cases hn

end LineShell.Session
