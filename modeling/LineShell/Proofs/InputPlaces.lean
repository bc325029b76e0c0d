import LineShell.Invocation
import LineShell.Proofs.KnownInput

/-!
# Where a session reads

A session reads a batch file that it alone has open, or standard input, whose position it shares
with its programs. Of standard input it is assumed that no program reads it (`IgnoresInput`), so
that a shell does the same whatever is there.

* `inputFrom`: what a session would read at a place if the file never changed.
* `file_coupling`, `standard_coupling`: both ways to read a file go beside a session that knows it.
* `unreadable_matched`: a file that cannot be read ends both sessions in the same way.
* `StandsStill`: the file is not changed while it is read. `runOn_file`, `runOn_standard`: then the
  whole run is that of the session that knows the file.
-/
namespace LineShell

open LineShell.Action (Matched Follows Abreast)

/-- What is read at a place of a file, if the file stays as it is. Without a file it is nothing, and
a file that cannot be read makes the first read fail. -/
def inputFrom (t : Tree) : Option (Ino × Nat) → List Piece
  | none => []
  | some (i, pos) =>
    match t.read i with
    | .ok content => [.bytes (content.drop pos)]
    | .error e => [.fault (.os e)]

theorem inputFrom_readable {t : Tree} {i : Ino} {content : Bytes} (h : t.read i = .ok content)
    (pos : Nat) : inputFrom t (some (i, pos)) = [.bytes (content.drop pos)] := by
  simp only [inputFrom, h]

theorem inputFrom_unreadable {t : Tree} {i : Ino} {e : OsError} (h : t.read i = .error e)
    (pos : Nat) : inputFrom t (some (i, pos)) = [.fault (.os e)] := by
  simp only [inputFrom, h]

/-- No program reads standard input: what is there makes no difference to them, and they leave it as
it is. -/
def IgnoresInput (programs : Programs) : Prop :=
  ∀ order output held system input, programs.run order output held { system with input } =
    (programs.run order output held system).map fun ended =>
      { ended with system := { ended.system with input } }

namespace Session

variable {programs : Programs} {config : Config} {mode : SessionMode}

/-- A file that only the shell has open. -/
theorem file_coupling (programs : Programs) (config : Config) (i : Ino) (content : Bytes) :
    Coupling programs config (some i) content (fun _ a b => a = b) (.file i) where
  files h := congrArg System.files h
  refill := by
    rintro pos a _ rfl hholds
    refine ⟨_, a, ?_, rfl, System.block_split content pos Tree.blockSize,
      System.block_nil⟩
    have hread : a.files.read i = .ok content := hholds
    simp only [Reader.refill, Tree.readBlock, hread, Except.map]
  line pos line := by
    rintro ⟨env, system, transcript⟩ ⟨_, _, _⟩ ⟨rfl, rfl, rfl⟩
    cases Shell.runLine programs config line ⟨env, system, transcript⟩ with
    | ok u s => exact .ok u ⟨rfl, rfl, rfl⟩
    | error e s => exact .error e ⟨rfl, rfl, rfl⟩

/-- Shells that differ in what is on standard input do the same. -/
theorem input_matching (h : IgnoresInput programs) (input : Option (Ino × Nat)) :
    Shell.LastingMatching programs (Coupled fun a b => a = { b with input })
      (fun _ _ => False) (fun _ _ => False) where
  env hs := hs.env
  system hs := by rw [hs.system]
  withEnv hs env := ⟨rfl, hs.transcript, hs.system⟩
  withSystem {s t} hs system := ⟨hs.env, hs.transcript, by
    show ({ system with input := s.system.input } : System) = _
    rw [hs.system]
    rfl⟩
  ran {s t} hs order output held := by
    rw [hs.system, h]
    cases programs.run order output held t.system with
    | error e => exact .refused e
    | ok ended => exact .ended ended.printed ⟨hs.env, hs.transcript, rfl⟩
  note hs e _ := ⟨hs.env, congrArg (Transcript.note · e) hs.transcript, hs.system⟩
  say bytes s t hs := by
    unfold Shell.say
    rw [hs.transcript]
    rcases t.transcript.say bytes with ⟨e | u, transcript⟩
    · exact .error e ⟨hs.env, rfl, hs.system⟩
    · exact .ok u ⟨hs.env, rfl, hs.system⟩
  cutSay := False.elim
  cutNote := False.elim
  cutOff := False.elim
  lasts := False.elim
  fails := False.elim

/-- Standard input, if no program reads it. -/
theorem standard_coupling (h : IgnoresInput programs) (config : Config) (source : Option Ino)
    (content : Bytes) : Coupling programs config source content
      (fun pos a b => a = { b with input := source.map (·, pos) }) (fun _ => .standard) where
  files hS := by rw [hS]
  refill := by
    rintro pos _ b rfl hholds
    cases source with
    | none =>
      have hnil : content = [] := hholds
      subst hnil
      exact ⟨[], _, rfl, rfl, by simp, fun _ => List.drop_nil⟩
    | some i =>
      have hread : b.files.read i = .ok content := hholds
      refine ⟨_, _, ?_, rfl, System.block_split content pos Tree.blockSize,
      System.block_nil⟩
      simp only [Reader.refill, Tree.readBlock, hread, Option.map, Except.map]
  line pos line := (input_matching h (source.map (·, pos))).runLine config line

/-! ## A file that cannot be read -/

/-- The next read of the file fails, and so does that of the session beside it. -/
structure Unreadable (e : OsError) (s : Shell × Reader) (t : Shell × List Piece) : Prop where
  shell : s.1 = t.1
  refused : Reader.refill s.2.origin s.1.system = (.error e, s.2.origin, s.1.system)
  buffer : s.2.buffer = []
  quota : 0 < s.2.quota
  pieces : t.2 = [.fault (.os e)]

/-- The shells are the same, whatever their inputs are. -/
def SameShell (s : Shell × Reader) (t : Shell × List Piece) : Prop := s.1 = t.1

/-- A fault at the first byte is what a bounded read finds. -/
theorem readChunk_of_fault {σ : Type} [Supply σ] [LawfulSupply σ] {s rest : σ} {cause : IoError}
    (limit : Nat) (h : Supply.next s = .fault cause rest) :
    readChunk limit s = (.error cause, rest) := by
  obtain ⟨room, hroom⟩ := Nat.exists_eq_succ_of_ne_zero (Nat.ne_of_gt (effectiveLimit_pos limit))
  rw [readChunk_bytewise, hroom, readBytes, h]

theorem read_unreadable (config : Config) (e : OsError) :
    Follows (Unreadable e) (fun _ _ => False) SameShell (read config) (read config) := by
  rintro ⟨s, ⟨origin, buffer, quota⟩⟩ ⟨_, _⟩ ⟨rfl, hrefused, rfl, hquota, rfl⟩
  obtain ⟨quota, rfl⟩ := Nat.exists_eq_succ_of_ne_zero (Nat.ne_of_gt hquota)
  have hreader : Supply.next (({ origin, quota := quota.succ } : Reader), s.system) =
      .fault (.os e) (({ origin, quota := quota.succ } : Reader), s.system) := by
    simp only at hrefused
    simp only [Reader.supply_next, Reader.next, hrefused]
  have hpieces : Supply.next ([Piece.fault (.os e)], s.system) =
      .fault (.os e) (([] : List Piece), s.system) := rfl
  unfold read
  simp only [readChunk_of_fault _ hreader, readChunk_of_fault _ hpieces]
  exact .error _ rfl

theorem unreadable_steps (programs : Programs) (config : Config) (e : OsError) :
    Steps programs config (Unreadable e) (fun _ _ => False) (fun _ _ => False) SameShell where
  prompt bytes := by
    rintro ⟨s, reader⟩ ⟨_, pieces⟩ ⟨rfl, hrefused, hbuffer, hquota, hpieces⟩
    unfold onShell Shell.say
    simp only
    rcases s.transcript.say bytes with ⟨cause | u, transcript⟩
    · exact .error cause rfl
    · exact .ok u ⟨rfl, hrefused, hbuffer, hquota, hpieces⟩
  read := read_unreadable config e
  say _ _ _ h := h.elim
  passOver _ _ h := h.elim
  line _ _ _ h := h.elim
  env _ _ h := h.elim
  through _ _ h := h

/-- Both sessions break off in their first turn. -/
theorem unreadable_matched (mode : SessionMode) {e : OsError} {s : Shell × Reader}
    {t : Shell × List Piece} (h : Unreadable e s t) :
    Matched (fun _ _ => False) SameShell (run programs config mode s)
      (run programs config mode t) := by
  have hturn := (unreadable_steps programs config e).turn mode s t h
  unfold run
  rw [turns, turns, Action.bind_run, Action.bind_run]
  generalize turn programs config mode s = r at hturn
  generalize turn programs config mode t = r' at hturn
  cases hturn with
  | ok _ h => exact h.elim
  | error cause h => exact .error cause h

/-! ## Whole runs -/

/-- At each moment at which a session that knows the file goes on, the file holds what it held at
first. -/
def StandsStill (programs : Programs) (config : Config) (mode : SessionMode) (s : Shell)
    (place : Option (Ino × Nat)) : Prop :=
  ∀ i ∈ place.map Prod.fst, ∀ s', Reaches programs config mode
    (s, inputFrom s.system.files place) s' → s'.1.system.files.read i = s.system.files.read i

theorem StandsStill.holds {s : Shell} {i : Ino} {pos : Nat} {content : Bytes}
    (h : StandsStill programs config mode s (some (i, pos)))
    (hread : s.system.files.read i = .ok content) (t : Shell × List Piece)
    (hreached : Reaches programs config mode (s, [.bytes (content.drop pos)]) t) :
    Holds (some i) content t.1.system.files := by
  rw [← inputFrom_readable hread pos] at hreached
  exact (h i rfl t hreached).trans hread

/-- Two runs end with the same status, and their shells are the same but for their systems, which
match by `E`. -/
structure Agrees (E : System → System → Prop) (r r' : Nat × Shell) : Prop where
  status : r.1 = r'.1
  shell : Coupled E r.2 r'.2

theorem Agrees.eq {r r' : Nat × Shell} (h : Agrees Eq r r') : r = r' := by
  obtain ⟨status, env, system, transcript⟩ := r
  obtain ⟨status', env', system', transcript'⟩ := r'
  obtain ⟨rfl, rfl, rfl, rfl⟩ := h
  rfl

variable {s : Shell} {E : System → System → Prop}

theorem closing_agrees {Q L : Shell × Reader → Shell × List Piece → Prop}
    {r : EStateM.Result SessionFailure (Shell × Reader) Unit}
    {r' : EStateM.Result SessionFailure (Shell × List Piece) Unit} (h : Matched Q L r r')
    (hQ : ∀ s t, Q s t → Coupled E s.1 t.1) (hL : ∀ s t, L s t → Coupled E s.1 t.1) :
    Agrees E (Invocation.closing r) (Invocation.closing r') := by
  cases h with
  | ok u h => exact ⟨rfl, hQ _ _ h⟩
  | error e h => exact ⟨rfl, hL _ _ h⟩

/-- The run on a file that holds the same bytes all the time. -/
theorem runOn_holds {source : Option Ino} {content : Bytes} {S : Nat → System → System → Prop}
    {place : Nat → Origin} (c : Coupling programs config source content S place)
    (hE : ∀ pos a b, S pos a b → E a b) {pos : Nat} (hS : S pos s.system s.system)
    (hholds : Holds source content s.system.files)
    (hquota : (content.drop pos).length ≤ Invocation.quotaFor s.system (place pos))
    {pieces : List Piece} (hfaultless : Piece.Faultless pieces)
    (hcontent : Piece.content pieces = content.drop pos)
    (hstill : ∀ t, Reaches programs config mode (s, pieces) t →
      Holds source content t.1.system.files) :
    Agrees E (Invocation.runOn programs config mode (place pos) s)
      (Invocation.closing (run programs config mode (s, pieces))) := by
  have hstart : Reads source content S place
      (s, { origin := place pos, quota := Invocation.quotaFor s.system (place pos) })
      (s, pieces) :=
    ⟨⟨rfl, rfl, ⟨pos, hS, rfl, hcontent.symm⟩, hfaultless, by rw [hcontent]; exact hquota⟩, hholds⟩
  refine closing_agrees (c.run_matched mode hstart hstill) ?_ ?_
  · intro s' t h
    obtain ⟨pos', hS', -⟩ := h.ahead.found
    exact ⟨h.env, h.transcript, hE pos' _ _ hS'⟩
  · rintro s' t ⟨pos', h⟩
    exact ⟨h.env, h.transcript, hE pos' _ _ h.system⟩

/-- The run on a file that cannot be read. -/
theorem runOn_unreadable (hE : ∀ a, E a a) {origin : Origin} {e : OsError}
    (hrefused : Reader.refill origin s.system = (.error e, origin, s.system)) :
    Agrees E (Invocation.runOn programs config mode origin s)
      (Invocation.closing (run programs config mode (s, [Piece.fault (.os e)]))) := by
  have hpos : 0 < Invocation.quotaFor s.system origin :=
    Nat.lt_of_lt_of_le (by decide) (Nat.le_add_left Invocation.maxGrowth _)
  have hfails : Unreadable e (s, { origin, quota := Invocation.quotaFor s.system origin })
      (s, [Piece.fault (.os e)]) := ⟨rfl, hrefused, rfl, hpos, rfl⟩
  refine closing_agrees (unreadable_matched mode hfails) (fun _ _ h => h.elim) ?_
  rintro ⟨s', reader⟩ ⟨t, pieces⟩ rfl
  exact ⟨rfl, rfl, hE _⟩

/-- What a file holds fits into the quota of the session that reads it. -/
theorem length_le_quotaFor {system : System} {origin : Origin} {i : Ino} {content : Bytes}
    (hi : Invocation.inputFile? system origin = some i) (hread : system.files.read i = .ok content)
    (pos : Nat) : (content.drop pos).length ≤ Invocation.quotaFor system origin := by
  have hcontents : system.files.contents i = content := by
    unfold Tree.read at hread
    split at hread
    · cases hread
    · cases hread
      rfl
  rw [Invocation.quotaFor, hi, Option.map_some, Option.getD_some, hcontents, List.length_drop]
  omega

/-- A session reads a file that stands still as if it knew it. -/
theorem runOn_file {i : Ino} {pos : Nat}
    (hstill : StandsStill programs config mode s (some (i, pos))) :
    Agrees Eq (Invocation.runOn programs config mode (.file i pos) s)
      (Invocation.closing (run programs config mode
        (s, inputFrom s.system.files (some (i, pos))))) := by
  cases hread : s.system.files.read i with
  | ok content =>
    rw [inputFrom_readable hread]
    exact runOn_holds (file_coupling programs config i content) (fun _ _ _ h => h) rfl hread
      (length_le_quotaFor rfl hread pos) (Piece.faultless_bytes _) (by simp [Piece.content])
      (hstill.holds hread)
  | error e =>
    rw [inputFrom_unreadable hread]
    refine runOn_unreadable (fun _ => rfl) ?_
    simp only [Reader.refill, Tree.readBlock, hread, Except.map]

/-- And so it reads standard input, which makes no difference to anything but the position there. -/
theorem runOn_standard (hignore : IgnoresInput programs)
    (hstill : StandsStill programs config mode s s.system.input) :
    Agrees (fun a b => a.files = b.files) (Invocation.runOn programs config mode .standard s)
      (Invocation.closing (run programs config mode
        (s, inputFrom s.system.files s.system.input))) := by
  have hfiles : ∀ (source : Option Ino) (pos : Nat) (a b : System),
      a = { b with input := source.map (·, pos) } → a.files = b.files := by
    rintro _ _ _ _ rfl
    rfl
  cases hinput : s.system.input with
  | none =>
    have hS : s.system = { s.system with input := none } := by rw [← hinput]
    have hquota : ([].drop 0 : Bytes).length ≤ Invocation.quotaFor s.system .standard :=
      Nat.zero_le _
    exact runOn_holds (standard_coupling hignore config none []) (hfiles none) hS rfl
      hquota Piece.faultless_nil rfl fun _ _ => rfl
  | some place =>
    obtain ⟨i, pos⟩ := place
    have hS : s.system = { s.system with input := some (i, pos) } := by rw [← hinput]
    rw [hinput] at hstill
    cases hread : s.system.files.read i with
    | ok content =>
      rw [inputFrom_readable hread]
      exact runOn_holds (standard_coupling hignore config (some i) content) (hfiles (some i)) hS
        hread (length_le_quotaFor (by rw [Invocation.inputFile?, hinput]; rfl) hread pos)
        (Piece.faultless_bytes _) (by simp [Piece.content]) (hstill.holds hread)
    | error e =>
      rw [inputFrom_unreadable hread]
      refine runOn_unreadable (E := fun a b => a.files = b.files) (fun _ => rfl) ?_
      simp only [Reader.refill, hinput, Tree.readBlock, hread, Except.map]

end Session

end LineShell
