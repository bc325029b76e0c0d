import LineShell.Proofs.BothModes
import LineShell.Proofs.Stages

/-!
# Blank input

Blank input should do nothing, as a command, as a line and in a session. White space is more than
what separates words, though: a newline, a vertical tab, a form feed or a carriage return is blank
and is a word. So blank input does nothing just if it is made of spaces and tabs.

* `parse_blank_iff`: the blank commands in which there is nothing.
* `turn_blank_iff`: the blank lines to which an interactive session answers with their echo alone.
  `reaches_behind_blank`: a batch session skips them all.
* `blank_does_nothing_iff`: commands, lines and sessions together.
  `carriage_return_is_a_command` is a blank line that is carried out.
-/
namespace LineShell

open Bytes (newline)
open LineShell.Action (stateAfter)

/-! ## Commands and lines -/

theorem notMem_of_isBlank {bs : Bytes} {b : UInt8} (h : isBlank bs = true)
    (hb : isSpace b = false) : b ∉ bs := by
  intro hm
  have hs := List.all_eq_true.1 h b hm
  rw [hb] at hs
  cases hs

/-- In a blank command there is nothing just if it is made of spaces and tabs. -/
theorem parse_blank_iff {blank : Bytes} (h : isBlank blank = true) :
    Command.parse blank = .ok .empty ↔ ∀ b ∈ blank, isSpacer b = true := by
  refine ⟨fun hp => ?_, parse_spacers⟩
  rw [Command.parse, find?_none_iff.2 (notMem_of_isBlank h (by decide))] at hp
  rw [← wordsOf_eq_nil_iff]
  cases hw : wordsOf blank with
  | nil => rfl
  | cons word words =>
    rw [hw] at hp
    cases hp

namespace Shell

variable (programs : Programs) (config : Config) {blank : Bytes}

theorem tryCommand_blank_iff (h : isBlank blank = true) (s : Shell) :
    stateAfter (tryCommand programs config blank s) = s ↔ ∀ b ∈ blank, isSpacer b = true :=
  (tryCommand_same_iff programs config blank s).trans (parse_blank_iff h)

/-- A blank line is one blank command, unless it is empty. -/
theorem runLine_blank_iff (h : isBlank blank = true) (s : Shell) :
    runLine programs config blank s = .ok () s ↔ ∀ b ∈ blank, isSpacer b = true := by
  refine ⟨fun hr => ?_, fun hs => runLine_spacers programs config hs s⟩
  by_cases hne : blank = []
  · simp [hne]
  have hone : commandsOf blank = [blank] := by
    refine partsOf_solid ⟨hne, fun b hb => ?_⟩
    rw [beq_eq_false_iff_ne]
    rintro rfl
    exact notMem_of_isBlank h (by decide) hb
  rw [runLine, hone] at hr
  rw [← tryCommand_blank_iff programs config h s, ← runCommands_one, hr]
  rfl

end Shell

/-! ## Sessions -/

namespace Session

variable (programs : Programs) (config : Config) {s : Shell × List Piece}
  {blank ending rest : Bytes}

/-- An interactive session answers a blank line with its echo alone just if the line fits into a
read and is made of spaces and tabs. -/
theorem turn_blank_iff (hahead : LineAhead s blank ending rest) (hne : blank ++ ending ≠ [])
    (h : isBlank blank = true) :
    (∃ left, turn programs config .interactive s = .ok (!s.1.env.leaving)
        (s.1.noteAll (promptOf config .interactive ++ [.said (blank ++ ending)]), left) ∧
      Piece.content left = rest) ↔
    blank.length < limitOf config ∧ ∀ b ∈ blank, isSpacer b = true := by
  have hending : ending = [newline] ∨ ending = [] := hahead.ending.imp_right And.left
  rcases Nat.lt_or_ge blank.length (limitOf config) with hshort | hlong
  · rw [and_iff_right hshort]
    obtain ⟨left, hc, -, hturn⟩ := turn_line programs config hahead hshort hne (Or.inl rfl)
    rw [chunk_text_line hahead.noNewline hending] at hturn
    rw [← Shell.runLine_blank_iff programs config h
      (s.1.noteAll (promptOf config .interactive ++ [.said (blank ++ ending)]))]
    constructor
    · rintro ⟨left', hecho, -⟩
      rw [hturn] at hecho
      split at hecho
      · rename_i u s' hr
        simp only [EStateM.Result.ok.injEq, Prod.mk.injEq] at hecho
        rw [hr, hecho.2.1]
      · cases hecho
    · intro hr
      rw [hr] at hturn
      exact ⟨left, hturn, hc⟩
  · refine iff_of_false ?_ fun hs => Nat.not_lt_of_ge hlong hs.1
    rintro ⟨left', hecho, -⟩
    obtain ⟨chunks, left, hturn, hch, -⟩ :=
      turn_overlong_run programs config hahead hlong (Or.inl rfl)
    rw [hturn] at hecho
    -- the report comes on top of at least one chunk
    have hsame : s.1.noteAll (promptOf config .interactive ++ chunks.map .said ++
        [.said errorMessage]) =
        s.1.noteAll (promptOf config .interactive ++ [.said (blank ++ ending)]) := by
      simp only [EStateM.Result.ok.injEq, Prod.mk.injEq] at hecho
      exact hecho.2.1
    have hlength := congrArg List.length (Shell.noteAll_inj hsame)
    obtain rfl : chunks = [] := by
      rw [← List.length_eq_zero_iff]
      simp only [List.length_append, List.length_map, List.length_singleton] at hlength
      omega
    exact hne hch.symm

theorem leadingBlanks_of_isBlank (h : isBlank blank = true) :
    leadingBlanks blank = blank.length := by
  refine Nat.le_antisymm (leadingBlanks_le blank) ((isBlank_take_iff (Nat.le_refl _)).1 ?_)
  rw [List.take_length]
  exact h

/-- A batch session skips a blank line, be it in one chunk or in many. -/
theorem reaches_behind_blank (hahead : LineAhead s blank ending rest) (h : isBlank blank = true) :
    ∃ left, Reaches programs config .batch s (s.1, left) ∧ Piece.content left = rest := by
  obtain ⟨pieces, hreached, hahead'⟩ := reaches_kept programs config hahead
  have hfits := leadingBlanks_kept config blank
  generalize hkept : blank.drop (skippedLength config blank) = kept at hahead' hfits
  have hblank : isBlank kept = true :=
    List.all_eq_true.2 fun b hb => List.all_eq_true.1 h b (List.mem_of_mem_drop (hkept ▸ hb))
  have hshort : kept.length < limitOf config := by
    rw [← leadingBlanks_of_isBlank hblank]
    exact hfits
  by_cases hne : kept ++ ending = []
  · obtain ⟨rfl, rfl⟩ := List.append_eq_nil_iff.1 hne
    exact ⟨pieces, hreached, hahead'.content⟩
  · obtain ⟨left, hread, hc, -⟩ := read_whole config hahead' hshort
    rw [if_neg hne] at hread
    have hchunk : Chunk.isBlank ⟨kept ++ ending, limitOf config⟩ = true :=
      (isBlank_line (hahead'.ending.imp_right And.left)).trans hblank
    exact ⟨left, hreached.trans (.one (turn_of_blank programs config hahead'.room hread hchunk)),
      hc⟩

end Session

open Session Shell in
/-- **Blank input.** A blank line does nothing at all just if it is made of spaces and tabs. So it
is with a blank command that is tried in any line. An interactive session answers a blank line with
its echo alone just if, besides, the line fits into a read. A batch session skips every blank line.
-/
theorem blank_does_nothing_iff (programs : Programs) (config : Config) {blank : Bytes}
    (h : isBlank blank = true) :
    (∀ s, runLine programs config blank s = .ok () s ↔ ∀ b ∈ blank, isSpacer b = true) ∧
    (∀ line s, ∀ stage ∈ stagesOf programs config (commandsOf line) s, stage.raw = blank →
      (stage.after = stage.before ↔ ∀ b ∈ blank, isSpacer b = true)) ∧
    ∀ s ending rest, LineAhead s blank ending rest → blank ++ ending ≠ [] →
      ((∃ left, turn programs config .interactive s = .ok (!s.1.env.leaving)
          (s.1.noteAll (promptOf config .interactive ++ [.said (blank ++ ending)]), left) ∧
        Piece.content left = rest) ↔
        blank.length < limitOf config ∧ ∀ b ∈ blank, isSpacer b = true) ∧
      ∃ left, Reaches programs config .batch s (s.1, left) ∧ Piece.content left = rest := by
  refine ⟨runLine_blank_iff programs config h, fun line s stage hm hraw => ?_,
    fun s ending rest hahead hne => ⟨turn_blank_iff programs config hahead hne h,
      reaches_behind_blank programs config hahead h⟩⟩
  rw [stagesOf_try programs config _ hm, hraw]
  exact tryCommand_blank_iff programs config h stage.before

section Runs

open Bytes (ofString)
open Session Shell

/-- A space and a tab: as a line, between two commands, and at a prompt. -/
theorem spaces_and_tabs_do_nothing :
    isBlank (ofString " \t") = true ∧
    runLine idle {} (ofString " \t") (atRoot .empty) = .ok () (atRoot .empty) ∧
    (∀ stage ∈ stagesOf idle {} (commandsOf (ofString "pwd; \t;pwd")) (atRoot .empty),
      stage.raw = ofString " \t" → stage.after = stage.before) ∧
    ∃ left, turn idle {} .interactive (scripted " \t\npwd\n") =
        .ok true ((atRoot .empty).noteAll
          [.said (ofString "myshell> "), .said (ofString " \t\n")], left) ∧
      Piece.content left = ofString "pwd\n" := by
  have hall : (ofString " \t").all isSpacer = true := by decide
  have hspacers : ∀ b ∈ ofString " \t", isSpacer b = true := List.all_eq_true.1 hall
  have hahead : LineAhead (scripted " \t\npwd\n") (ofString " \t") [newline] (ofString "pwd\n") :=
    ⟨by decide, by decide, Or.inl rfl, scripted_faultless _, rfl⟩
  have hblank : isBlank (ofString " \t") = true := by decide
  obtain ⟨hline, hstage, hsession⟩ := blank_does_nothing_iff idle {} hblank
  exact ⟨hblank, (hline _).2 hspacers,
    fun stage hm hraw => (hstage _ _ stage hm hraw).2 hspacers,
    (hsession _ _ _ hahead (by decide)).1.2 ⟨by decide, hspacers⟩⟩

/-- **Counterexample**: a line that is a carriage return is blank, and the command that it is cannot
be found. -/
theorem carriage_return_is_a_command :
    isBlank (ofString "\r") = true ∧
    ∃ s', runLine idle {} (ofString "\r") (atRoot .empty) = .ok () s' ∧
      s'.transcript.events =
        [.carriedOut (ofString "\r") (some (.commandNotFound "\r")), .said errorMessage] :=
  ⟨by decide, _, rfl, by decide⟩

end Runs

end LineShell
