import Mathlib.Logic.Basic
import LineShell.Proofs.LastCommand

/-!
# The words behind a built-in command

A built-in command judges the words behind its name by their text, decoded with replacement. The
first `--` among them is dropped, and what stands behind it is not looked at.

* `Bytes.decode_eq_iff`: what is decoded as plain text is this text, byte for byte.
* `ordinary_iff`: a word is an operand wherever it stands if it does not begin with a dash and is
  not `help`.
* `Parted`: the operands among words as they stand. The parser of operands finds their texts
  (`operands_decode_iff`).
* `exit_pwd_refuse_iff`: `exit` and `pwd` refuse every list of words but `--`, as
  `dashes_end_the_shell` shows.
* `cd_takes_operand_iff`: `cd` goes to its operand just if this is the last word.
  `dashes_behind_operand_taken` is a run in which it is not.
-/
namespace LineShell

open Bytes (ofString)
open LineShell.Action (stateAfter)

/-! ## Plain text -/

namespace Bytes

/-- A character of one byte that is not zero. -/
def IsPlain (c : Char) : Prop := 0 < c.toNat ∧ c.toNat < 0x80

instance (c : Char) : Decidable (IsPlain c) := inferInstanceAs (Decidable (_ ∧ _))

theorem not_isPlain_replacement : ¬ IsPlain replacement := by
  intro h
  exact absurd h.2 (by decide)

theorem toNat_ofNat {n : Nat} (h : n.isValidChar) : (Char.ofNat n).toNat = n := by
  unfold Char.ofNat
  rw [dif_pos h]
  rfl

/-- A number that needs more than one byte is not the number of a plain character, not even if it
is the number of none. -/
theorem not_isPlain_ofNat {n : Nat} (hn : 0x80 ≤ n) : ¬ IsPlain (Char.ofNat n) := by
  rintro ⟨hpos, hlt⟩
  by_cases hv : n.isValidChar
  · rw [toNat_ofNat hv] at hlt
    omega
  · unfold Char.ofNat at hpos
    rw [dif_neg hv] at hpos
    exact absurd hpos (by decide)

/-- Bytes are still to come, and whatever they are, the number of the character will need more than
one byte. -/
structure Partial.Wide (p : Partial) : Prop where
  owes : 0 < p.owed
  low : 0x80 ≤ p.low.toNat
  value : 2 ≤ p.value * 64 + (p.low.toNat - 0x80)
  last : p.owed ≤ 1 → 0x80 ≤ p.value * 64 + (p.low.toNat - 0x80)

/-- A byte is a plain character, or it begins a wide one or none. -/
theorem lead_cases (b : UInt8) :
    b.toNat < 0x80 ∧ lead b = ([Char.ofNat b.toNat], none) ∨
    lead b = ([replacement], none) ∨ ∃ p : Partial, p.Wide ∧ lead b = ([], some p) := by
  have wide : ∀ {r : List Char × Option Partial} owed low high value,
      ([], some ⟨owed, low, high, value⟩) = r → 0 < owed → 0x80 ≤ UInt8.toNat low →
      2 ≤ value * 64 + (UInt8.toNat low - 0x80) →
      (owed ≤ 1 → 0x80 ≤ value * 64 + (UInt8.toNat low - 0x80)) →
      r = ([replacement], none) ∨ ∃ p : Partial, p.Wide ∧ r = ([], some p) :=
    fun owed low high value hr h₁ h₂ h₃ h₄ =>
      Or.inr ⟨⟨owed, low, high, value⟩, ⟨h₁, h₂, h₃, h₄⟩, hr.symm⟩
  generalize hlead : lead b = r
  unfold lead at hlead
  simp only at hlead
  rcases ite_eq_iff.1 hlead with ⟨h, hr⟩ | ⟨-, hlead⟩
  · exact Or.inl ⟨h, hr.symm⟩
  right
  rcases ite_eq_iff.1 hlead with ⟨-, hr⟩ | ⟨hlow, hlead⟩
  · exact Or.inl hr.symm
  rcases ite_eq_iff.1 hlead with ⟨-, hr⟩ | ⟨hlow, hlead⟩
  · exact wide _ _ _ _ hr (by decide) (by decide) (by omega) (by omega)
  rcases ite_eq_iff.1 hlead with ⟨-, hr⟩ | ⟨hne, hlead⟩
  · exact wide _ _ _ _ hr (by decide) (by decide) (by decide) (by decide)
  rcases ite_eq_iff.1 hlead with ⟨-, hr⟩ | ⟨-, hlead⟩
  · exact wide _ _ _ _ hr (by decide) (by decide) (by decide) (by decide)
  rcases ite_eq_iff.1 hlead with ⟨-, hr⟩ | ⟨hlow, hlead⟩
  · exact wide _ _ _ _ hr (by decide) (by decide) (by omega) (by omega)
  rcases ite_eq_iff.1 hlead with ⟨-, hr⟩ | ⟨hne, hlead⟩
  · exact wide _ _ _ _ hr (by decide) (by decide) (by decide) (by decide)
  rcases ite_eq_iff.1 hlead with ⟨-, hr⟩ | ⟨-, hlead⟩
  · exact wide _ _ _ _ hr (by decide) (by decide) (by omega) (by omega)
  rcases ite_eq_iff.1 hlead with ⟨-, hr⟩ | ⟨-, hr⟩
  · exact wide _ _ _ _ hr (by decide) (by decide) (by decide) (by decide)
  · exact Or.inl hr.symm

/-- A wide character goes on, or something that is not plain has come to its end. -/
theorem follow_cases {p : Partial} (h : p.Wide) (b : UInt8) :
    (∃ q : Partial, q.Wide ∧ follow p b = ([], some q)) ∨
    ∃ c cs, ¬ IsPlain c ∧ (follow p b).1 = c :: cs := by
  obtain ⟨-, -, hvalue, hlast⟩ := h
  unfold follow
  split
  · rename_i hb
    have hlow : p.low.toNat ≤ b.toNat := hb.1
    simp only
    split
    · rename_i howed
      have := hlast howed
      exact Or.inr ⟨_, [], not_isPlain_ofNat (by omega), rfl⟩
    · rename_i howed
      refine Or.inl ⟨_, ⟨Nat.sub_pos_of_lt (Nat.lt_of_not_le howed), Nat.le_refl _, ?_, ?_⟩, rfl⟩
      · simp only
        omega
      · simp only
        omega
  · exact Or.inr ⟨_, _, not_isPlain_replacement, rfl⟩

/-- What a wide character comes to is not plain. -/
theorem decodeFrom_wide (bs : Bytes) : ∀ {p : Partial}, p.Wide →
    ∃ c cs, ¬ IsPlain c ∧ decodeFrom (some p) bs = c :: cs := by
  induction bs with
  | nil => exact fun _ => ⟨replacement, [], not_isPlain_replacement, rfl⟩
  | cons b bs ih =>
    intro p h
    rw [decodeFrom]
    rcases follow_cases h b with ⟨q, hq, he⟩ | ⟨c, cs, hc, he⟩
    · rw [he]
      exact ih hq
    · exact ⟨c, cs ++ _, hc, by rw [he, List.cons_append]⟩

/-- What is decoded as plain text is this text, byte for byte. -/
theorem eq_of_decodeFrom_plain {bs : Bytes} (h : ∀ c ∈ decodeFrom none bs, IsPlain c) :
    bs = (decodeFrom none bs).map fun c => UInt8.ofNat c.toNat := by
  induction bs with
  | nil => rfl
  | cons b bs ih =>
    rw [decodeFrom] at h ⊢
    rcases lead_cases b with ⟨hb, he⟩ | he | ⟨p, hp, he⟩
    · rw [he] at h ⊢
      have hrest := ih fun c hc => h c (List.mem_cons_of_mem _ hc)
      rw [List.singleton_append, List.map_cons, ← hrest, toNat_ofNat (Or.inl (by omega)),
        UInt8.ofNat_toNat]
    · rw [he] at h
      exact absurd (h _ List.mem_cons_self) not_isPlain_replacement
    · obtain ⟨c, cs, hc, hwide⟩ := decodeFrom_wide bs hp
      rw [he, hwide] at h
      exact absurd (h c List.mem_cons_self) hc

/-- The byte of a plain character. -/
theorem IsPlain.toNat_byte {c : Char} (h : IsPlain c) : (UInt8.ofNat c.toNat).toNat = c.toNat := by
  have := h.2
  rw [UInt8.toNat_ofNat']
  omega

/-- Just one byte string is decoded as a plain text. -/
theorem decode_eq_iff {cs : List Char} (h : ∀ c ∈ cs, IsPlain c) {bs : Bytes} :
    bs.decode = String.ofList cs ↔ bs = cs.map fun c => UInt8.ofNat c.toNat := by
  unfold decode
  rw [String.ofList_inj]
  constructor
  · rintro rfl
    exact eq_of_decodeFrom_plain h
  · rintro rfl
    have hascii : ∀ c ∈ cs, (UInt8.ofNat c.toNat).toNat = c.toNat :=
      fun c hc => (h c hc).toNat_byte
    rw [decodeFrom_ascii, List.map_map]
    · have hsame : cs.map ((fun b : UInt8 => Char.ofNat b.toNat) ∘ fun c => UInt8.ofNat c.toNat) =
          cs.map id :=
        List.map_congr_left fun c hc => (congrArg Char.ofNat (hascii c hc)).trans c.ofNat_toNat
      rw [hsame, List.map_id]
    · intro b hb
      obtain ⟨c, hc, rfl⟩ := List.mem_map.1 hb
      rw [hascii c hc]
      exact (h c hc).2

end Bytes

/-! ## The operands as they stand -/

/-- The word that ends the options, as it stands. -/
def dashes : Bytes := ofString endOfOptions

theorem decode_eq_endOfOptions {word : Bytes} : word.decode = endOfOptions ↔ word = dashes := by
  have hplain : ∀ c ∈ ['-', '-'], Bytes.IsPlain c := by simp [Bytes.IsPlain]
  exact Bytes.decode_eq_iff hplain

/-- A word that is an operand wherever it stands: it neither begins with a dash nor asks for
help. -/
structure Ordinary (word : Bytes) : Prop where
  undashed : beginsWithDash word.decode = false
  unhelpful : asksForHelp word.decode = false

theorem Ordinary.ne_dashes {word : Bytes} (h : Ordinary word) : word ≠ dashes := by
  rintro rfl
  exact absurd h.undashed (by decide)

/-- The operands among words as they stand. -/
inductive Parted : List Bytes → List Bytes → Prop
  | done : Parted [] []
  /-- Behind `--` every word is an operand. -/
  | ended (words : List Bytes) : Parted (dashes :: words) words
  | operand {word : Bytes} {words found : List Bytes} (ordinary : Ordinary word)
    (rest : Parted words found) : Parted (word :: words) (word :: found)

/-- The operands that are found are the texts of those that stand there. -/
theorem operands_decode_iff {words : List Bytes} {texts : List String} :
    operands (words.map Bytes.decode) = some texts ↔
      ∃ found, Parted words found ∧ found.map Bytes.decode = texts := by
  induction words generalizing texts with
  | nil =>
    constructor
    · rintro ⟨⟩
      exact ⟨[], .done, rfl⟩
    · rintro ⟨found, ⟨⟩, rfl⟩
      rfl
  | cons word words ih =>
    rw [List.map_cons, operands]
    split
    · rename_i hword
      obtain rfl := decode_eq_endOfOptions.1 hword
      constructor
      · rintro ⟨⟩
        exact ⟨words, .ended words, rfl⟩
      · rintro ⟨found, hparted, rfl⟩
        cases hparted with
        | ended => rfl
        | operand ordinary => exact absurd rfl ordinary.ne_dashes
    rename_i hword
    split
    · rename_i hrefused
      refine iff_of_false (fun h => by cases h) ?_
      rintro ⟨found, hparted, rfl⟩
      cases hparted with
      | ended => exact absurd (decode_eq_endOfOptions.2 rfl) hword
      | operand ordinary => simp [ordinary.undashed, ordinary.unhelpful] at hrefused
    · rename_i htaken
      rw [Option.map_eq_some_iff]
      constructor
      · rintro ⟨rest, hrest, rfl⟩
        obtain ⟨found, hparted, rfl⟩ := ih.1 hrest
        have hordinary : Ordinary word := by
          rw [Bool.or_eq_true, not_or] at htaken
          exact ⟨Bool.eq_false_iff.2 htaken.1, Bool.eq_false_iff.2 htaken.2⟩
        exact ⟨word :: found, .operand hordinary hparted, rfl⟩
      · rintro ⟨found, hparted, rfl⟩
        cases hparted with
        | ended => exact absurd (decode_eq_endOfOptions.2 rfl) hword
        | operand _ rest => exact ⟨_, ih.2 ⟨_, rest, rfl⟩, rfl⟩

/-- No operand stands among no words and in `--` alone. -/
theorem parted_nil_iff {words : List Bytes} : Parted words [] ↔ words = [] ∨ words = [dashes] := by
  constructor
  · rintro ⟨⟩
    · exact Or.inl rfl
    · exact Or.inr rfl
  · rintro (rfl | rfl)
    · exact .done
    · exact .ended []

/-- One operand stands behind `--`, alone, or in front of `--`. -/
theorem parted_singleton_iff {words : List Bytes} {operand : Bytes} :
    Parted words [operand] ↔ words = [dashes, operand] ∨
      Ordinary operand ∧ (words = [operand] ∨ words = [operand, dashes]) := by
  constructor
  · rintro (_ | _ | ⟨ordinary, rest⟩)
    · exact Or.inl rfl
    · rcases parted_nil_iff.1 rest with rfl | rfl
      · exact Or.inr ⟨ordinary, Or.inl rfl⟩
      · exact Or.inr ⟨ordinary, Or.inr rfl⟩
  · rintro (rfl | ⟨ordinary, rfl | rfl⟩)
    · exact .ended [operand]
    · exact .operand ordinary .done
    · exact .operand ordinary (.ended [])

/-- Up to `limit` operands are found where no more stand. -/
theorem operandsUpTo_decode_iff {limit : Nat} {words : List Bytes} {texts : List String} :
    operandsUpTo limit (words.map Bytes.decode) = some texts ↔
      ∃ found, Parted words found ∧ found.map Bytes.decode = texts ∧ found.length ≤ limit := by
  rw [operandsUpTo, Option.filter_eq_some_iff, operands_decode_iff, decide_eq_true_iff]
  constructor
  · rintro ⟨⟨found, hparted, rfl⟩, hlimit⟩
    exact ⟨found, hparted, rfl, by rwa [List.length_map] at hlimit⟩
  · rintro ⟨found, hparted, rfl, hlimit⟩
    exact ⟨⟨found, hparted, rfl⟩, by rwa [List.length_map]⟩

/-! ## `exit` and `pwd` -/

/-- `exit` and `pwd` refuse all words but none at all and `--` alone. -/
theorem order?_eq_none_iff {b : Builtin} (hb : b ≠ .cd) {words : List Bytes} :
    b.order? words = none ↔ words ≠ [] ∧ words ≠ [dashes] := by
  have hnone : operandsUpTo 0 (words.map Bytes.decode) = none ↔ words ≠ [] ∧ words ≠ [dashes] := by
    rw [← not_or, ← parted_nil_iff, Option.eq_none_iff_forall_ne_some]
    constructor
    · exact fun h hparted => h [] (operandsUpTo_decode_iff.2 ⟨[], hparted, rfl, Nat.le_refl 0⟩)
    · intro h texts htexts
      obtain ⟨found, hparted, -, hlimit⟩ := operandsUpTo_decode_iff.1 htexts
      obtain rfl := List.length_eq_zero_iff.1 (Nat.le_zero.1 hlimit)
      exact h hparted
  cases b with
  | cd => exact absurd rfl hb
  | exit => rw [Builtin.order?, Option.map_eq_none_iff, hnone]
  | pwd => rw [Builtin.order?, Option.map_eq_none_iff, hnone]

namespace Shell

variable (programs : Programs) {config : Config}

/-- A shell with the standard commands carries out its own commands itself. -/
theorem run_builtin (hstandard : config.handlers = Handler.standard) (b : Builtin)
    (words : List Bytes) : run programs config b.name words = b.run words := by
  have hfind : ∀ s, config.handlers.find? (Handler.takes s b.name) = some (.builtin b) := by
    intro s
    rw [hstandard]
    cases b <;> rfl
  funext s
  rw [run, handle_eq, hfind]

theorem goTo_ne_usage (target : Bytes) (s s' : Shell) (name : String) :
    goTo target s ≠ .error (.usage name) s' := by
  unfold goTo directoryAt
  split
  · rename_i e he
    rintro ⟨⟩
    split at he
    · cases he
    · split at he <;> cases he
  · exact nofun

/-- An order that has been read is not refused for its words. -/
theorem obey_ne_usage (order : Order) (s s' : Shell) (name : String) :
    obey order s ≠ .error (.usage name) s' := by
  cases order with
  | leave => exact nofun
  | goTo target =>
    cases target with
    | some target => exact goTo_ne_usage target s s' name
    | none =>
      unfold obey
      simp only
      split
      · exact nofun
      · exact goTo_ne_usage _ s s' name
  | tellDirectory =>
    unfold obey Action.orFail
    simp only
    split <;> exact nofun

/-- The words behind `exit` or `pwd` are refused, or they are `--` alone, which is nothing. -/
theorem run_exit_pwd (hstandard : config.handlers = Handler.standard) {b : Builtin} (hb : b ≠ .cd)
    {words : List Bytes} (hne : words ≠ []) :
    (words ≠ [dashes] ∧ ∀ s, run programs config b.name words s = .error (.usage b.text) s) ∨
    (words = [dashes] ∧ (∀ s, run programs config b.name words s = run programs config b.name [] s)
      ∧ ∀ s s', run programs config b.name words s ≠ .error (.usage b.text) s') := by
  simp only [run_builtin programs hstandard]
  by_cases hwords : words = [dashes]
  · subst hwords
    have horder : b.order? [dashes] = b.order? [] := by
      cases b with
      | cd => exact absurd rfl hb
      | exit => rfl
      | pwd => rfl
    have hsame : b.run [dashes] = b.run [] := by rw [Builtin.run, horder, ← Builtin.run]
    obtain ⟨order, ho⟩ : ∃ order, b.order? [dashes] = some order :=
      Option.ne_none_iff_exists'.1 fun hnone => ((order?_eq_none_iff hb).1 hnone).2 rfl
    refine Or.inr ⟨rfl, fun s => congrFun hsame s, fun s s' => ?_⟩
    rw [Builtin.run, ho]
    exact obey_ne_usage order s s' b.text
  · refine Or.inl ⟨hwords, fun s => ?_⟩
    rw [Builtin.run, (order?_eq_none_iff hb).2 ⟨hne, hwords⟩]
    rfl

/-- **`exit` and `pwd` refuse arguments, but for `--`.** In a shell with the standard commands, `exit`
or `pwd` with words behind it fails as a usage failure, and neither does nor writes anything, just if
these words are not `--` alone. So it is when the words come from a command, which is noted, and in
every line, where the failure is reported. Behind `--` alone the command does what it does without
words. -/
theorem exit_pwd_refuse_iff (hstandard : config.handlers = Handler.standard) {b : Builtin}
    (hb : b ≠ .cd) {words : List Bytes} (hne : words ≠ []) :
    (∀ s, run programs config b.name words s = .error (.usage b.text) s ↔ words ≠ [dashes]) ∧
    (∀ raw s, Command.parse raw = .ok (.simple (b.name :: words)) →
      (runCommand programs config raw s =
        .error (.usage b.text) (s.note (.carriedOut raw (some (.usage b.text)))) ↔
          words ≠ [dashes])) ∧
    (words ≠ [dashes] → ∀ line s, ∀ stage ∈ stagesOf programs config (commandsOf line) s,
      Command.parse stage.raw = .ok (.simple (b.name :: words)) →
      stage.after = stateAfter
        (report (stage.before.note (.carriedOut stage.raw (some (.usage b.text)))))) ∧
    (words = [dashes] → ∀ s, run programs config b.name words s = run programs config b.name [] s) := by
  have hcommand : ∀ raw s, Command.parse raw = .ok (.simple (b.name :: words)) →
      runCommand programs config raw s = noting raw (run programs config b.name words) s := by
    intro raw s hp
    rw [runCommand, hp]
    rfl
  rcases run_exit_pwd programs hstandard hb hne with ⟨hwords, hrun⟩ | ⟨hwords, hsame, hrun⟩
  · have hrefused : ∀ raw s, Command.parse raw = .ok (.simple (b.name :: words)) →
        runCommand programs config raw s =
          .error (.usage b.text) (s.note (.carriedOut raw (some (.usage b.text)))) := by
      intro raw s hp
      rw [hcommand raw s hp, noting, hrun s]
    refine ⟨fun s => iff_of_true (hrun s) hwords,
      fun raw s hp => iff_of_true (hrefused raw s hp) hwords, fun _ line s stage hm hp => ?_,
      fun h => absurd h hwords⟩
    rw [stagesOf_try programs config _ hm, tryCommand, hrefused _ _ hp]
  · refine ⟨fun s => iff_of_false (hrun s s) (not_not_intro hwords), fun raw s hp => ?_,
      fun h => absurd hwords h, fun _ => hsame⟩
    refine iff_of_false (fun he => ?_) (not_not_intro hwords)
    rw [hcommand raw s hp, noting] at he
    cases hr : run programs config b.name words s with
    | ok u s' =>
      rw [hr] at he
      cases he
    | error e s' =>
      rw [hr] at he
      obtain ⟨rfl, -⟩ := EStateM.Result.error.inj he
      exact hrun s s' hr

/-- A second `--` behind `exit`, and a byte behind `pwd` that is no text. -/
theorem dashes_twice_refused :
    runCommand idle {} (ofString "exit -- --") (atRoot .empty) = .error (.usage "exit")
      ((atRoot .empty).note (.carriedOut (ofString "exit -- --") (some (.usage "exit")))) ∧
    run idle {} Builtin.pwd.name [[0xFF]] (atRoot .empty) = .error (.usage "pwd") (atRoot .empty) := by
  have hstandard : ({} : Config).handlers = Handler.standard := rfl
  have hexit : Builtin.exit ≠ .cd := by decide
  have hpwd : Builtin.pwd ≠ .cd := by decide
  have hdashes : [dashes, dashes] ≠ [] := by decide
  have hbyte : ([[0xFF]] : List Bytes) ≠ [] := by decide
  have hparse : Command.parse (ofString "exit -- --") =
      .ok (.simple [Builtin.exit.name, dashes, dashes]) := rfl
  exact ⟨((exit_pwd_refuse_iff idle hstandard hexit hdashes).2.1 _ _ hparse).2 (by decide),
    ((exit_pwd_refuse_iff idle hstandard hpwd hbyte).1 _).2 (by decide)⟩

/-- **Counterexample**: `--` is a word behind `exit`, and the session ends. -/
theorem dashes_end_the_shell :
    Command.parse (ofString "exit --") = .ok (.simple [Builtin.exit.name, dashes]) ∧
    ∃ s', runCommand idle {} (ofString "exit --") (atRoot .empty) = .ok () s' ∧
      s'.env.leaving = true :=
  ⟨rfl, _, rfl, rfl⟩

/-! ## `cd` -/

/-- **`cd` goes to the last word.** In a shell with the standard commands, one operand is found among
the words behind `cd`. It stands among them, and `cd` goes to a word as it stands. This word is the
operand, and then its text is the operand's, just if nothing stands behind the operand. -/
theorem cd_takes_operand_iff (hstandard : config.handlers = Handler.standard) {words : List Bytes}
    {text : String} (h : operandsUpTo 1 (words.map Bytes.decode) = some [text]) :
    ∃ operand raw, Parted words [operand] ∧ operand.decode = text ∧
      cdTarget? words = some (some raw) ∧
      (∀ s, run programs config Builtin.cd.name words s = goTo raw s) ∧
      (raw = operand ↔ words = [operand] ∨ words = [dashes, operand]) ∧
      (raw.decode = text ↔ words = [operand] ∨ words = [dashes, operand]) := by
  obtain ⟨found, hparted, hfound, -⟩ := operandsUpTo_decode_iff.1 h
  obtain ⟨operand, rfl, rfl⟩ : ∃ operand, found = [operand] ∧ operand.decode = text := by
    obtain ⟨operand, hoperand, htext⟩ := List.map_eq_singleton_iff.1 hfound
    exact ⟨operand, hoperand, htext⟩
  have hlast : cdTarget? words = some words.getLast? := by
    rw [cdTarget?, h]
  have hgo : ∀ raw, words.getLast? = some raw →
      ∀ s, run programs config Builtin.cd.name words s = goTo raw s := by
    intro raw hraw s
    have horder : Builtin.cd.order? words = some (.goTo (some raw)) := by
      rw [Builtin.order?, hlast, hraw]
      rfl
    rw [run_builtin programs hstandard, Builtin.run, horder]
    rfl
  rcases parted_singleton_iff.1 hparted with rfl | ⟨hordinary, rfl | rfl⟩
  · exact ⟨operand, operand, hparted, rfl, hlast, hgo operand rfl, by simp, by simp⟩
  · exact ⟨operand, operand, hparted, rfl, hlast, hgo operand rfl, by simp, by simp⟩
  · -- what stands behind the operand is `--`, which is no ordinary word
    have hne := hordinary.ne_dashes
    have htext : dashes.decode ≠ operand.decode := by
      rw [decode_eq_endOfOptions.2 rfl]
      exact fun he => hne (decode_eq_endOfOptions.1 he.symm)
    have hwords : ¬ ([operand, dashes] = [operand] ∨ [operand, dashes] = [dashes, operand]) := by
      simp [hne]
    exact ⟨operand, dashes, hparted, rfl, hlast, hgo dashes rfl,
      iff_of_false hne.symm hwords, iff_of_false htext hwords⟩

/-- A directory whose name is no text, behind `--`. -/
theorem nameless_text_taken :
    operandsUpTo 1 ([dashes, [0xFF]].map Bytes.decode) = some ["\uFFFD"] ∧
    run idle {} Builtin.cd.name [dashes, [0xFF]] (atRoot .empty) = goTo [0xFF] (atRoot .empty) := by
  have h : operandsUpTo 1 ([dashes, [0xFF]].map Bytes.decode) = some ["\uFFFD"] := by decide
  obtain ⟨operand, raw, hparted, -, -, hgo, hiff, -⟩ :=
    cd_takes_operand_iff idle (rfl : ({} : Config).handlers = Handler.standard) h
  obtain rfl : operand = [0xFF] := by
    cases hparted with
    | ended => rfl
    | operand ordinary => exact absurd rfl ordinary.ne_dashes
  rw [hiff.2 (Or.inr rfl)] at hgo
  exact ⟨h, hgo _⟩

/-- **Counterexample**: the operand is `sub`, but `--` stands behind it, and the shell looks for a
directory of that name. -/
theorem dashes_behind_operand_taken :
    operandsUpTo 1 ([ofString "sub", dashes].map Bytes.decode) = some ["sub"] ∧
    cdTarget? [ofString "sub", dashes] = some (some dashes) ∧
    run idle {} Builtin.cd.name [ofString "sub", dashes] (atRoot .empty) =
      .error (.resource (ofString "/--") (.os .noEntry)) (atRoot .empty) :=
  ⟨by decide, by decide, by rfl⟩

end Shell

end LineShell
