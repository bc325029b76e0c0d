import LineShell.Proofs.NamelessFiles

/-!
# What the shell is started with

The words behind the program's own name decide which session is run, and nothing else about them
matters: no word is an option, whatever it looks like.

* `parse_words`: how the words are read.
* `closing_readable`, `run_unreadable`: the status at the end of a session that knows its input.
* `run_sessions`: which session is run for which words, and what comes of it.
-/
namespace LineShell.Invocation

open LineShell.Session (StandsStill Agrees)
open LineShell.Tree (Nameless)

variable {programs : Programs} {config : Config} {mode : SessionMode} {s : Shell}

/-! ## The words -/

/-- One word is a batch file, whatever it is, and two are too many. -/
theorem parse_words (program : Bytes) (words : List Bytes) :
    parse (program :: words) =
      if words.length < 2 then .ok words.head? else .error (.usage program.decode) := by
  rw [parse, operandsUpTo, operands_endOfOptions, Option.filter]
  by_cases h : words.length < 2
  · have hle : (words.map Bytes.decode).length ≤ 1 := by
      rw [List.length_map]
      omega
    simp only [hle, decide_true, if_true, if_pos h]
  · have hgt : ¬ (words.map Bytes.decode).length ≤ 1 := by
      rw [List.length_map]
      omega
    simp only [hgt, decide_false, Bool.false_eq_true, if_false, if_neg h]

theorem refuse_eq (hroom : s.transcript.room = none) :
    refuse s = (0, s.noteAll [.said errorMessage]) := by
  rw [refuse, Shell.report, Shell.say_run hroom]

/-! ## The status -/

/-- The file at the place, if there is one, can be read. -/
def Readable (t : Tree) (place : Option (Ino × Nat)) : Prop :=
  ∀ i ∈ place.map Prod.fst, ∃ content, t.read i = .ok content

theorem Readable.faultless {t : Tree} {place : Option (Ino × Nat)} (h : Readable t place) :
    Piece.Faultless (inputFrom t place) := by
  cases place with
  | none => exact Piece.faultless_nil
  | some place =>
    obtain ⟨content, hread⟩ := h place.1 rfl
    rw [inputFrom_readable hread]
    exact Piece.faultless_bytes _

/-- A session on an input that can be read ends well if its output takes everything. -/
theorem closing_readable (hroom : s.transcript.room = none) {place : Option (Ino × Nat)}
    (h : Readable s.system.files place) :
    (closing (Session.run programs config mode (s, inputFrom s.system.files place))).1 = 0 := by
  obtain ⟨u, s', hr, -⟩ :=
    (Session.succeeds_pervasive programs config).run mode (s, inputFrom s.system.files place) hroom
      h.faultless
  rw [hr]
  rfl

/-- Otherwise it breaks off when it reads. -/
theorem run_unreadable (hroom : s.transcript.room = none) {place : Option (Ino × Nat)}
    (h : ¬ Readable s.system.files place) : ∃ cause s',
      Session.run programs config mode (s, inputFrom s.system.files place) =
        .error (.input cause) s' := by
  cases place with
  | none => exact absurd nofun h
  | some place =>
    obtain ⟨i, pos⟩ := place
    cases hread : s.system.files.read i with
    | ok content =>
      refine absurd ?_ h
      rintro _ ⟨⟩
      exact ⟨content, hread⟩
    | error e =>
      have hfails : readChunk config.lineLimit [Piece.fault (.os e)] = (.error (.os e), []) :=
        Session.readChunk_of_fault config.lineLimit rfl
      rw [inputFrom_unreadable hread]
      exact ⟨.os e, _, Session.run_of_failed_turn (Session.turn_fails programs hroom hfails)⟩

/-! ## The sessions -/

theorem run_refused {words : List Bytes} {e : Failure} (hroom : s.transcript.room = none)
    (h : parse words = .error e) :
    run programs config words s = (0, s.noteAll [.said errorMessage]) := by
  rw [run, h]
  exact refuse_eq hroom

theorem run_standard (hignore : IgnoresInput programs)
    (hstill : StandsStill programs config .interactive s s.system.input) (program : Bytes) :
    Agrees (fun a b => a.files = b.files) (run programs config [program] s)
      (closing (Session.run programs config .interactive
        (s, inputFrom s.system.files s.system.input))) := by
  rw [run, parse_words]
  exact Session.runOn_standard hignore hstill

theorem run_batch {path : Bytes} {i : Ino} (hopen : openBatch s path = .ok i)
    (hstill : StandsStill programs config .batch s (some (i, 0))) (program : Bytes) :
    run programs config [program, path] s =
      closing (Session.run programs config .batch
        (s, inputFrom s.system.files (some (i, 0)))) := by
  have hruns : run programs config [program, path] s =
      runOn programs config .batch (.file i 0) s := by
    rw [run, parse_words]
    simp only [List.length_singleton, Nat.one_lt_two, if_true, List.head?_cons, hopen]
  rw [hruns]
  exact (Session.runOn_file hstill).eq

theorem run_unopened {path : Bytes} {e : OsError} (hroom : s.transcript.room = none)
    (hopen : openBatch s path = .error e) (program : Bytes) :
    run programs config [program, path] s = (0, s.noteAll [.said errorMessage]) := by
  rw [run, parse_words]
  simp only [List.length_singleton, Nat.one_lt_two, if_true, List.head?_cons, hopen]
  exact refuse_eq hroom

/-- **The words decide on the session.** Let the output take everything. Behind the program's own
name at most one word is taken, and it is the batch file as it stands, whatever it looks like.

* Without a word, and if no program reads standard input, the status, the transcript and the files
  are those of an interactive session that knows what standard input gives.
* With a word that can be opened, all is as in a batch session that knows the file.
* With a word that cannot be opened, or more than one, there is the message and nothing else.

Here the file that is read stands still, which standard input does if it has no name and programs
leave it alone. The status of a session is zero if its input can be read; else it breaks off. -/
theorem run_sessions (programs : Programs) (config : Config) (program : Bytes) {s : Shell}
    (hroom : s.transcript.room = none) :
    (∀ words, parse (program :: words) =
      if words.length < 2 then .ok words.head? else .error (.usage program.decode)) ∧
    (IgnoresInput programs → StandsStill programs config .interactive s s.system.input →
      Agrees (fun a b => a.files = b.files) (run programs config [program] s)
        (closing (Session.run programs config .interactive
          (s, inputFrom s.system.files s.system.input)))) ∧
    (∀ path i, openBatch s path = .ok i → StandsStill programs config .batch s (some (i, 0)) →
      run programs config [program, path] s =
        closing (Session.run programs config .batch
          (s, inputFrom s.system.files (some (i, 0))))) ∧
    (∀ path e, openBatch s path = .error e →
      run programs config [program, path] s = (0, s.noteAll [.said errorMessage])) ∧
    (∀ words, 2 ≤ words.length →
      run programs config (program :: words) s = (0, s.noteAll [.said errorMessage])) ∧
    (∀ mode place, (Readable s.system.files place →
        (closing (Session.run programs config mode
          (s, inputFrom s.system.files place))).1 = 0) ∧
      (¬ Readable s.system.files place → ∃ cause s', Session.run programs config mode
        (s, inputFrom s.system.files place) = .error (.input cause) s')) ∧
    ∀ mode i n pos, s.system.files.Nameless i n → LeavesNameless programs i n →
      StandsStill programs config mode s (some (i, pos)) := by
  refine ⟨parse_words program, fun hignore hstill => run_standard hignore hstill program,
    fun _ _ hopen hstill => run_batch hopen hstill program,
    fun _ _ hopen => run_unopened hroom hopen program, fun words hwords => ?_,
    fun _ _ => ⟨closing_readable hroom, run_unreadable hroom⟩,
    fun mode _ _ pos hnameless hleaves =>
      Session.nameless_standsStill config mode hleaves hnameless pos⟩
  have herror : parse (program :: words) = .error (.usage program.decode) := by
    rw [parse_words, if_neg (Nat.not_lt.2 hwords)]
  exact run_refused hroom herror

section Runs

open Bytes (ofString)
open Shell (idle atRoot)

theorem idle_ignoresInput : IgnoresInput idle := fun _ _ _ _ _ => rfl

theorem idle_leavesNameless (i : Ino) (n : Node) : LeavesNameless idle i n := by
  rintro _ _ _ system _ h - - ⟨⟩
  exact h

/-- A batch file whose name looks like an option, and standard input without a name. -/
def started : Shell :=
  { atRoot ⟨[.directory 0o755 [(ofString "--help", 1)], .file 0o644 (ofString "pwd\n"),
      .file 0o600 (ofString "exit\n")]⟩ with
    system.input := some (2, 0) }

theorem started_nameless :
    started.system.files.Nameless 2 (.file 0o600 (ofString "exit\n")) where
  node := rfl
  notRoot := by decide
  unnamed dir mode es name hd := by
    match dir with
    | 0 =>
      cases hd
      rw [List.lookup_cons]
      split
      · nofun
      · nofun
    | 1 => cases hd
    | 2 => cases hd
    | n + 3 => cases hd

/-- The name of the program itself. -/
def lineShell : Bytes := ofString "line-shell"

/-- What a run has said, and its status. -/
def told (r : Nat × Shell) : Nat × Bytes := (r.1, r.2.transcript.said)

set_option maxRecDepth 2000 in
theorem started_runs :
    started.transcript.room = none ∧ IgnoresInput idle ∧
    StandsStill idle {} .interactive started (some (2, 0)) ∧
    StandsStill idle {} .batch started (some (1, 0)) ∧
    told (run idle {} [lineShell] started) = (0, ofString "myshell> exit\n") ∧
    told (run idle {} [lineShell, ofString "--help"] started) = (0, ofString "pwd\n/\n") ∧
    told (run idle {} [lineShell, ofString "help"] started) = (0, errorMessage) ∧
    told (run idle {} [lineShell, ofString "--", ofString "--help"] started) =
      (0, errorMessage) := by
  have hroom : started.transcript.room = none := rfl
  obtain ⟨-, hstandard, hbatch, hunopened, hsurplus, -, hnameless⟩ :=
    run_sessions idle {} lineShell hroom
  have hinput : StandsStill idle {} .interactive started (some (2, 0)) :=
    hnameless .interactive 2 (.file 0o600 (ofString "exit\n")) 0 started_nameless
      (idle_leavesNameless _ _)
  have hfile : StandsStill idle {} .batch started (some (1, 0)) := by
    rintro _ ⟨⟩ s' ⟨n, hn⟩
    match n with
    | 0 =>
      cases hn
      rfl
    | 1 =>
      cases hn
      rfl
    | n + 2 => cases hn
  have hfirst := hstandard idle_ignoresInput hinput
  refine ⟨hroom, idle_ignoresInput, hinput, hfile, ?_, ?_, ?_, ?_⟩
  · rw [told, hfirst.status, hfirst.shell.transcript]
    decide +kernel
  · rw [hbatch (ofString "--help") 1 rfl hfile]
    decide +kernel
  · rw [hunopened (ofString "help") .noEntry rfl]
    decide
  · rw [hsurplus [ofString "--", ofString "--help"] (by decide)]
    decide

/-- The script prepends the message to itself, so that its last bytes come to stand behind the place
up to which it has been read. -/
def growing : Shell :=
  atRoot ⟨[.directory 0o755 [(ofString "script", 1)],
    .file 0o644 (ofString "nosuch >+ script\npwd\n" ++ List.replicate 18 Bytes.newline)]⟩

/-- **Counterexample**: no program changes anything, but the session does not do what it would do on
the bytes that the script held when it was opened. It comes upon `pwd` twice. -/
theorem growing_read_again :
    growing.transcript.room = none ∧ IgnoresInput idle ∧
    openBatch growing (ofString "script") = .ok 1 ∧
    told (closing (Session.run idle {} .batch
      (growing, inputFrom growing.system.files (some (1, 0))))) =
      (0, ofString "nosuch >+ script\npwd\n/\n") ∧
    told (run idle {} [lineShell, ofString "script"] growing) =
      (0, ofString "nosuch >+ script\npwd\n/\npwd\n/\n") := by
  refine ⟨rfl, idle_ignoresInput, rfl, ?_, ?_⟩
  · decide +kernel
  · decide +kernel

end Runs

end LineShell.Invocation
