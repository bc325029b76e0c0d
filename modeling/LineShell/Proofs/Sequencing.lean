import LineShell.Proofs.Grammar
import LineShell.Proofs.Stages

/-!
# Lines in sequence

A semicolon puts two lines in sequence. Whatever stands on either side of it, the line does what
the two sides do one after the other, with the same output and the same files.

* `commandsOf_semicolon`: the commands of both sides are the commands of the line.
* `followedBy`: one action after another, unless the first one fails or the shell is to leave
  behind it.
* `runCommands_append`: commands in front of others are carried out before them.
* `runLine_joinWith`: a line is carried out piece by piece.
* `semicolon_sequences`: the semicolon against `followedBy`, for any output and any state in which
  the shell stays.
-/
namespace LineShell

/-! ## Pieces of a line -/

/-- A separator ends a piece and begins the next one. -/
theorem Bytes.splitWhen_separator {p : UInt8 → Bool} {b : UInt8} (hb : p b = true)
    (left right : Bytes) :
    splitWhen p (left ++ b :: right) = splitWhen p left ++ splitWhen p right := by
  induction left with
  | nil =>
    show (if p b then [] :: splitWhen p right else _) = _
    rw [if_pos hb]
    rfl
  | cons c left ih =>
    rw [List.cons_append, splitWhen, splitWhen, ih]
    split
    · rfl
    · obtain ⟨piece, pieces, hs⟩ := List.exists_cons_of_ne_nil (splitWhen_ne_nil p left)
      rw [hs]
      rfl

/-- No part reaches across a separator. -/
theorem partsOf_append {sep : UInt8 → Bool} {b : UInt8} (hb : sep b = true) (left right : Bytes) :
    partsOf sep (left ++ b :: right) = partsOf sep left ++ partsOf sep right := by
  rw [partsOf, Bytes.splitWhen_separator hb, List.filter_append]
  rfl

theorem commandsOf_semicolon (left right : Bytes) :
    commandsOf (left ++ semicolon :: right) = commandsOf left ++ commandsOf right := by
  rw [commandsOf_eq, commandsOf_eq, commandsOf_eq]
  refine partsOf_append ?_ left right
  exact beq_self_eq_true semicolon

namespace Shell

/-! ## Commands in front of others -/

/-- One action after another. The second one is not begun if the first one has failed, or if the
shell is to leave then. -/
def followedBy (first second : Action Shell IoError Unit) : Action Shell IoError Unit := fun s =>
  match first s with
  | .ok () s' => if s'.env.leaving then .ok () s' else second s'
  | .error e s' => .error e s'

/-- It matters only what the second action does to a shell that stays. -/
theorem followedBy_congr {first second second' : Action Shell IoError Unit}
    (h : ∀ s : Shell, s.env.leaving = false → second s = second' s) :
    followedBy first second = followedBy first second' := by
  funext s
  unfold followedBy
  cases first s with
  | error e s' => rfl
  | ok u s' =>
    simp only
    split
    · rfl
    · rename_i hl
      exact h s' (Bool.eq_false_iff.2 hl)

theorem followedBy_assoc (first second third : Action Shell IoError Unit) :
    followedBy (followedBy first second) third = followedBy first (followedBy second third) := by
  funext s
  unfold followedBy
  cases first s with
  | error e s' => rfl
  | ok u s' =>
    simp only
    by_cases hl : s'.env.leaving = true
    · simp only [if_pos hl]
    · simp only [if_neg hl]

/-- With nothing behind it an action is as it was. -/
theorem followedBy_pure (first : Action Shell IoError Unit) :
    followedBy first (pure ()) = first := by
  funext s
  unfold followedBy
  cases first s with
  | error e s' => rfl
  | ok u s' => exact ite_self _

/-- With nothing in front of it an action is as it was, unless the shell is to leave already. -/
theorem pure_followedBy (second : Action Shell IoError Unit) {s : Shell}
    (hstay : s.env.leaving = false) : followedBy (pure ()) second s = second s := by
  show (if s.env.leaving then _ else _) = _
  rw [hstay]
  rfl

variable (programs : Programs) (config : Config)

theorem runCommands_cons_eq (raw : Bytes) (rest : List Bytes) :
    runCommands programs config (raw :: rest) =
      followedBy (tryCommand programs config raw) (runCommands programs config rest) := by
  funext s
  exact runCommands_cons_run programs config raw rest s

/-- Commands are carried out before those behind them, which begin in the state that they leave. -/
theorem runCommands_append (before later : List Bytes) {s : Shell}
    (hstay : s.env.leaving = false) :
    runCommands programs config (before ++ later) s =
      followedBy (runCommands programs config before) (runCommands programs config later) s := by
  induction before generalizing s with
  | nil => exact (pure_followedBy (runCommands programs config later) hstay).symm
  | cons raw rest ih =>
    rw [List.cons_append, runCommands_cons_eq, runCommands_cons_eq, followedBy_assoc,
      followedBy_congr fun s' => ih (s := s')]

/-- Lines one after the other, as long as the shell stays. -/
def inTurn : List Bytes → Action Shell IoError Unit
  | [] => pure ()
  | line :: lines => followedBy (runLine programs config line) (inTurn lines)

/-- A line is carried out piece by piece: lines joined by semicolons are the lines in turn. -/
theorem runLine_joinWith (lines : List Bytes) {s : Shell} (hstay : s.env.leaving = false) :
    runLine programs config (Bytes.joinWith semicolon lines) s = inTurn programs config lines s := by
  induction lines generalizing s with
  | nil => rfl
  | cons line lines ih =>
    rw [inTurn]
    cases lines with
    | nil =>
      rw [inTurn, followedBy_pure]
      rfl
    | cons next lines =>
      have hjoin : Bytes.joinWith semicolon (line :: next :: lines) =
          line ++ semicolon :: Bytes.joinWith semicolon (next :: lines) := by
        simp [Bytes.joinWith]
      rw [hjoin, ← followedBy_congr fun s' => ih (s := s'), runLine, commandsOf_semicolon]
      exact runCommands_append programs config _ _ hstay

/-! ## Two sides of a semicolon -/

/-- **The semicolon.** A line of two sides does what its sides do as two lines, one after the other:
the outcome is the same, and so are the environment, the system with its files and the whole
transcript, whatever room the output has. The second side is carried out only if the first one could
report its failures and the shell stays. -/
theorem semicolon_sequences (first second : Bytes) {s : Shell} (hstay : s.env.leaving = false) :
    runLine programs config (first ++ semicolon :: second) s =
      followedBy (runLine programs config first) (runLine programs config second) s := by
  rw [runLine, commandsOf_semicolon]
  exact runCommands_append programs config (commandsOf first) (commandsOf second) hstay

section Runs

open Bytes (ofString)

/-- An output that takes four bytes: the second side fails to report its first command, and its
second command is not carried out. With an `exit` on the first side nothing of the second is. -/
theorem sides_cut_off :
    let s : Shell := { atRoot .empty with transcript := { room := some 4 } }
    s.env.leaving = false ∧
    runLine idle {} (ofString "pwd; ;nosuch;pwd") s =
      followedBy (runLine idle {} (ofString "pwd; ")) (runLine idle {} (ofString "nosuch;pwd")) s ∧
    (∃ s', runLine idle {} (ofString "pwd; ;nosuch;pwd") s = .error .sinkFull s' ∧
      s'.transcript.said = ofString "/\nAn") ∧
    runLine idle {} (ofString ";exit;;pwd;nosuch") s = runLine idle {} (ofString ";exit;") s := by
  intro s
  have hstay : s.env.leaving = false := rfl
  refine ⟨hstay,
    semicolon_sequences idle {} (ofString "pwd; ") (ofString "nosuch;pwd") hstay,
    ⟨_, rfl, by decide⟩, ?_⟩
  exact semicolon_sequences idle {} (ofString ";exit;") (ofString "pwd;nosuch") hstay

end Runs

end Shell

end LineShell
