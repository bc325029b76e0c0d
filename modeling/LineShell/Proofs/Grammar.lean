import LineShell.Command
import Mathlib.Data.List.Forall2

/-!
# The written form of a line

What lines of the language look like, told from the writer's side: words with spaces and tabs
between them, commands with semicolons between them, and as many more spacers and semicolons as
the writer likes. Reading is the inverse of writing, whatever the layout.

* `LaidOut`: a text that shows parts in order, with separators in front of them, between every two
  of them and behind them.
* `Command.WellFormed`, `Command.Written`: the commands that can be written, and the texts that
  write them.
* `WritesLine`: the lines that write a list of commands.

Results:
* `laidOut_iff`: splitting and dropping empty pieces is the inverse of laying out. Words and
  commands are found in this one way.
* `Command.parse_iff`: a command is read from just the texts that write it.
* `parse_line_iff`: so a list of commands is read from just the lines that write it.
* `exists_writesLine`: and there is such a line for every list.
-/
namespace LineShell

/-! ## Layout -/

section Layout

variable {sep : UInt8 → Bool}

/-- The text shows the parts in order. Separators may stand anywhere around them, and at least one
stands between two parts. -/
inductive LaidOut (sep : UInt8 → Bool) : List Bytes → Bytes → Prop
  | none : LaidOut sep [] []
  | separator {parts : List Bytes} {text : Bytes} {b : UInt8} :
      sep b = true → LaidOut sep parts text → LaidOut sep parts (b :: text)
  | last (part : Bytes) : LaidOut sep [part] part
  | more {parts : List Bytes} {part text : Bytes} {b : UInt8} :
      sep b = true → LaidOut sep parts text → LaidOut sep (part :: parts) (part ++ b :: text)

/-- A byte of the text is a separator or belongs to a part. -/
theorem LaidOut.mem {parts : List Bytes} {text : Bytes} {b : UInt8} (h : LaidOut sep parts text)
    (hb : b ∈ text) : sep b = true ∨ ∃ part ∈ parts, b ∈ part := by
  induction h with
  | none => cases hb
  | separator hs _ ih =>
    rcases List.mem_cons.1 hb with rfl | hb
    · exact Or.inl hs
    · exact ih hb
  | last part => exact Or.inr ⟨part, List.mem_cons_self, hb⟩
  | more hs _ ih =>
    rcases List.mem_append.1 hb with hb | hb
    · exact Or.inr ⟨_, List.mem_cons_self, hb⟩
    rcases List.mem_cons.1 hb with rfl | hb
    · exact Or.inl hs
    · exact (ih hb).imp_right fun ⟨part, hp, hm⟩ => ⟨part, List.mem_cons_of_mem _ hp, hm⟩

/-- A byte of a part is a byte of the text. -/
theorem LaidOut.mem_text {parts : List Bytes} {part text : Bytes} (h : LaidOut sep parts text)
    (hp : part ∈ parts) {b : UInt8} (hb : b ∈ part) : b ∈ text := by
  induction h with
  | none => cases hp
  | separator _ _ ih => exact List.mem_cons_of_mem _ (ih hp)
  | last part =>
    obtain rfl := List.mem_singleton.1 hp
    exact hb
  | more _ _ ih =>
    rw [List.mem_append]
    rcases List.mem_cons.1 hp with rfl | hp
    · exact Or.inl hb
    · exact Or.inr (List.mem_cons_of_mem _ (ih hp))

theorem exists_laidOut {b : UInt8} (hb : sep b = true) (parts : List Bytes) :
    ∃ text, LaidOut sep parts text := by
  induction parts with
  | nil => exact ⟨[], .none⟩
  | cons part parts ih =>
    obtain ⟨text, htext⟩ := ih
    exact ⟨part ++ b :: text, .more hb htext⟩

/-- The pieces between separators that are not empty. -/
def partsOf (sep : UInt8 → Bool) (text : Bytes) : List Bytes :=
  (text.splitWhen sep).filter fun piece => !piece.isEmpty

theorem commandsOf_eq (line : Bytes) : commandsOf line = partsOf (· == semicolon) line := rfl

theorem wordsOf_eq (command : Bytes) : wordsOf command = partsOf isSpacer command := rfl

/-- A part can be found again: it is not empty and holds no separator. -/
def Solid (sep : UInt8 → Bool) (part : Bytes) : Prop := part ≠ [] ∧ ∀ b ∈ part, sep b = false

theorem solid_of_mem_partsOf {text part : Bytes} (h : part ∈ partsOf sep text) :
    Solid sep part := by
  simp only [partsOf, List.mem_filter, Bool.not_eq_eq_eq_not, Bool.not_true,
    List.isEmpty_eq_false_iff] at h
  exact ⟨h.2, Bytes.splitWhen_free sep text part h.1⟩

theorem partsOf_separator {b : UInt8} (hb : sep b = true) (text : Bytes) :
    partsOf sep (b :: text) = partsOf sep text := by
  rw [partsOf, Bytes.splitWhen, if_pos hb]
  rfl

theorem partsOf_solid {part : Bytes} (h : Solid sep part) : partsOf sep part = [part] := by
  have hs : Bytes.splitWhen sep (part ++ []) = [part ++ []] := Bytes.splitWhen_append h.2 rfl
  rw [List.append_nil] at hs
  rw [partsOf, hs]
  simp [h.1]

theorem partsOf_part {part : Bytes} {b : UInt8} (h : Solid sep part) (hb : sep b = true)
    (text : Bytes) : partsOf sep (part ++ b :: text) = part :: partsOf sep text := by
  have hs : Bytes.splitWhen sep (b :: text) = [] :: Bytes.splitWhen sep text := by
    rw [Bytes.splitWhen, if_pos hb]
  rw [partsOf, Bytes.splitWhen_append h.2 hs, List.append_nil]
  simp [h.1, partsOf]

theorem LaidOut.partsOf {parts : List Bytes} {text : Bytes} (h : LaidOut sep parts text)
    (hsolid : ∀ part ∈ parts, Solid sep part) : partsOf sep text = parts := by
  induction h with
  | none => rfl
  | separator hb _ ih => rw [partsOf_separator hb, ih hsolid]
  | last part => exact partsOf_solid (hsolid part List.mem_cons_self)
  | more hb _ ih =>
    rw [partsOf_part (hsolid _ List.mem_cons_self) hb,
      ih fun part hp => hsolid part (List.mem_cons_of_mem _ hp)]

/-- A text without separators, or one up to its first separator and what follows. -/
theorem free_or_separator (sep : UInt8 → Bool) (text : Bytes) : (∀ b ∈ text, sep b = false) ∨
    ∃ piece b rest, text = piece ++ b :: rest ∧ (∀ c ∈ piece, sep c = false) ∧ sep b = true := by
  cases hf : text.find? sep with
  | none =>
    left
    simpa using hf
  | some b =>
    right
    obtain ⟨hb, piece, rest, rfl, hpiece⟩ := List.find?_eq_some_iff_append.1 hf
    exact ⟨piece, b, rest, rfl, by simpa using hpiece, hb⟩

/-- Every text is a layout of its own parts. -/
theorem laidOut_partsOf (sep : UInt8 → Bool) (text : Bytes) :
    LaidOut sep (partsOf sep text) text := by
  induction hn : text.length using Nat.strongRecOn generalizing text with
  | ind n ih =>
    subst hn
    rcases free_or_separator sep text with hfree | ⟨piece, b, rest, rfl, hpiece, hb⟩
    · by_cases hne : text = []
      · rw [hne]
        exact .none
      · rw [partsOf_solid ⟨hne, hfree⟩]
        exact .last text
    · have hrest := ih rest.length (by simp; omega) rest rfl
      by_cases hne : piece = []
      · rw [hne, List.nil_append, partsOf_separator hb]
        exact .separator hb hrest
      · rw [partsOf_part ⟨hne, hpiece⟩ hb]
        exact .more hb hrest

/-- Finding the parts of a text is the inverse of laying them out. -/
theorem laidOut_iff {parts : List Bytes} {text : Bytes} :
    LaidOut sep parts text ∧ (∀ part ∈ parts, Solid sep part) ↔ partsOf sep text = parts := by
  constructor
  · rintro ⟨h, hsolid⟩
    exact h.partsOf hsolid
  · rintro rfl
    exact ⟨laidOut_partsOf sep text, fun part => solid_of_mem_partsOf⟩

end Layout

/-! ## Commands and lines as they are written -/

/-- A word of the language: not empty, without spaces and tabs, semicolons and `>`. -/
structure IsWord (word : Bytes) : Prop where
  solid : Solid isSpacer word
  noSemicolon : semicolon ∉ word
  noArrow : arrow ∉ word

namespace Command

/-- The commands that can be written and carried out. A program whose output is redirected is not
a built-in command. White space other than spaces and tabs can be a word; a side of the operator
needs a word that is more than white space. -/
def WellFormed : Command → Prop
  | empty => False
  | simple argv => argv ≠ [] ∧ ∀ word ∈ argv, IsWord word
  | redirect argv target _ =>
    (argv ≠ [] ∧ ∀ word ∈ argv, IsWord word) ∧ IsWord target ∧
      (∀ name ∈ argv.head?, Builtin.ofName? name = none) ∧
      (∃ word ∈ argv, isBlank word = false) ∧ isBlank target = false

/-- The text writes the command: its words in order, and the operator with the target behind it. A
`>` with a `+` right behind it would be the other operator. -/
inductive Written : Command → Bytes → Prop
  | simple {argv : List Bytes} {text : Bytes} :
      LaidOut isSpacer argv text → Written (.simple argv) text
  | redirect {argv : List Bytes} {target left right : Bytes} {op : Operator} :
      LaidOut isSpacer argv left → LaidOut isSpacer [target] right →
      (op = .overwrite → right.head? ≠ some plus) →
      Written (.redirect argv target op) (left ++ op.written ++ right)

end Command

/-- The line writes the commands: each of them in some layout, and semicolons between them. -/
def WritesLine (commands : List Command) (line : Bytes) : Prop :=
  ∃ texts, List.Forall₂ Command.Written commands texts ∧ LaidOut (· == semicolon) texts line

/-! ## Reading one command -/

section OneCommand

variable {raw left right : Bytes} {argv : List Bytes}

theorem notMem_iff_of_laidOut {b : UInt8} (h : LaidOut isSpacer argv raw)
    (hb : isSpacer b = false) : b ∉ raw ↔ ∀ word ∈ argv, b ∉ word := by
  constructor
  · intro hraw word hw hm
    exact hraw (h.mem_text hw hm)
  · intro hwords hm
    rcases h.mem hm with hs | ⟨word, hw, hm⟩
    · rw [hb] at hs
      cases hs
    · exact hwords word hw hm

/-- A text without semicolons and operators shows its words, and nothing else but spacers. -/
theorem wordsOf_iff : wordsOf raw = argv ∧ semicolon ∉ raw ∧ arrow ∉ raw ↔
    LaidOut isSpacer argv raw ∧ ∀ word ∈ argv, IsWord word := by
  rw [wordsOf_eq, ← laidOut_iff, and_assoc]
  refine and_congr_right fun h => ?_
  rw [notMem_iff_of_laidOut h (by decide), notMem_iff_of_laidOut h (by decide)]
  constructor
  · rintro ⟨hsolid, hsemicolon, harrow⟩ word hw
    exact ⟨hsolid word hw, hsemicolon word hw, harrow word hw⟩
  · intro hwords
    exact ⟨fun word hw => (hwords word hw).solid, fun word hw => (hwords word hw).noSemicolon,
      fun word hw => (hwords word hw).noArrow⟩

/-- Without words there are only spacers. -/
theorem wordsOf_eq_nil_iff {raw : Bytes} : wordsOf raw = [] ↔ ∀ b ∈ raw, isSpacer b = true := by
  have hlaid := laidOut_partsOf isSpacer raw
  constructor
  · intro hnil b hb
    rcases hlaid.mem hb with hs | ⟨word, hw, -⟩
    · exact hs
    · rw [← wordsOf_eq, hnil] at hw
      cases hw
  · intro hall
    rw [List.eq_nil_iff_forall_not_mem]
    intro word hw
    obtain ⟨hne, hfree⟩ := wordsOf_mem hw
    obtain ⟨b, word, rfl⟩ := List.exists_cons_of_ne_nil hne
    have hb := hall b (hlaid.mem_text hw List.mem_cons_self)
    rw [hfree b List.mem_cons_self] at hb
    cases hb

/-- Spacers are white space, so a text is blank if its words are. -/
theorem isBlank_iff_words (h : LaidOut isSpacer argv raw) :
    isBlank raw = true ↔ ∀ word ∈ argv, isBlank word = true := by
  simp only [isBlank, List.all_eq_true]
  constructor
  · intro hall word hw b hb
    exact hall b (h.mem_text hw hb)
  · intro hall b hb
    rcases h.mem hb with hs | ⟨word, hw, hm⟩
    · exact isSpace_of_isSpacer hs
    · exact hall word hw b hm

theorem isBlank_false_iff_words (h : LaidOut isSpacer argv raw) :
    isBlank raw = false ↔ ∃ word ∈ argv, isBlank word = false := by
  rw [← Bool.not_eq_true, isBlank_iff_words h]
  simp

theorem count_written (op : Operator) : op.written.count arrow = 1 := by
  cases op <;> decide

/-- There is one place for the operator: its arrow. -/
theorem count_le_one_iff {op : Operator} :
    ¬ (left ++ op.written ++ right).count arrow > 1 ↔ arrow ∉ left ∧ arrow ∉ right := by
  rw [List.count_append, List.count_append, count_written, ← List.count_eq_zero,
    ← List.count_eq_zero]
  omega

theorem written_eq (op : Operator) : ∃ rest, op.written = arrow :: rest ∧ arrow ∉ rest := by
  cases op with
  | overwrite => exact ⟨[], rfl, by decide⟩
  | prepend => exact ⟨[plus], rfl, by decide⟩

/-- What stands before the only arrow and behind it. -/
theorem split_at_arrow {left' rest rest' : Bytes} (hl : arrow ∉ left) (hrest : arrow ∉ rest)
    (h : left ++ arrow :: rest = left' ++ arrow :: rest') : left = left' ∧ rest = rest' := by
  obtain ⟨hleft, -, hright⟩ := (List.append_cons_inj_of_notMem hl hrest).1 h
  exact ⟨hleft, hright⟩

/-- The operator is found where it stands, if its arrow is the only one. -/
theorem cut_written {op : Operator} (hl : arrow ∉ left) (hr : arrow ∉ right) :
    Bytes.cut op.written (left ++ op.written ++ right) = some (left, right) := by
  obtain ⟨⟨left', right'⟩, hc⟩ :=
    Option.isSome_iff_exists.1 (Bytes.isSome_cut op.written left right)
  have he := Bytes.eq_of_cut hc
  obtain ⟨rest, hw, hrest⟩ := written_eq op
  simp only [hw, List.append_assoc, List.cons_append] at he
  have hfree : arrow ∉ rest ++ right := by simp [hrest, hr]
  obtain ⟨rfl, hright⟩ := split_at_arrow hl hfree he
  rw [hc, List.append_cancel_left hright]

theorem find?_none_iff : Operator.find? raw = none ↔ arrow ∉ raw := by
  unfold Operator.find?
  split
  · rename_i hc
    obtain ⟨⟨left, right⟩, hc⟩ := Option.isSome_iff_exists.1 hc
    simp [Bytes.eq_of_cut hc, Operator.written]
  · split <;> simp_all

theorem find?_prepend (left right : Bytes) :
    Operator.find? (left ++ Operator.prepend.written ++ right) = some .prepend := by
  rw [Operator.find?, if_pos (Bytes.isSome_cut _ left right)]

/-- Which operator decides, when there is one place for it: `>` just if no `+` follows. -/
theorem find?_written {op : Operator} (hl : arrow ∉ left) (hr : arrow ∉ right) :
    Operator.find? (left ++ op.written ++ right) = some op ↔
      (op = .overwrite → right.head? ≠ some plus) := by
  cases op with
  | prepend => simp only [find?_prepend, reduceCtorEq, false_implies]
  | overwrite =>
    constructor
    · intro hf _ hp
      obtain ⟨rest, rfl⟩ := List.head?_eq_some_iff.1 hp
      have he : left ++ Operator.overwrite.written ++ plus :: rest =
          left ++ Operator.prepend.written ++ rest := by simp [Operator.written]
      rw [he, find?_prepend] at hf
      cases hf
    · intro hp
      specialize hp rfl
      have hc : Bytes.cut Operator.prepend.written (left ++ Operator.overwrite.written ++ right) =
          none := by
        rw [Option.eq_none_iff_forall_ne_some]
        rintro ⟨left', right'⟩ hc
        have he := Bytes.eq_of_cut hc
        simp only [Operator.written, List.append_assoc, List.cons_append, List.nil_append] at he
        obtain ⟨rfl, rfl⟩ := split_at_arrow hl hr he
        exact hp rfl
      have hm : (left ++ Operator.overwrite.written ++ right).contains arrow = true := by
        simp [Operator.written]
      rw [Operator.find?, hc, hm]
      rfl

namespace Command

variable {op : Operator} {target : Bytes} {command : Command}

/-- A reading with an operator has two sides, and the operator is the only one. -/
theorem sides_of_readWith (h : readWith raw op = .ok command) :
    (∃ left right, raw = left ++ op.written ++ right ∧ arrow ∉ left ∧ arrow ∉ right) ∧
      (command = .empty ∨ ∃ argv target, command = .redirect argv target op) := by
  rw [readWith] at h
  split at h
  · cases h
  rename_i hcount
  split at h
  · cases h
  rename_i left right hc
  have hraw := Bytes.eq_of_cut hc
  rw [hraw] at hcount
  refine ⟨⟨left, right, hraw, count_le_one_iff.1 hcount⟩, ?_⟩
  split at h
  · cases h
  split at h
  · cases h
    exact Or.inl rfl
  · split at h
    · cases h
    · cases h
      exact Or.inr ⟨_, _, rfl⟩
  · cases h

/-- What the two sides must be for a redirection to be read. -/
theorem readWith_written (hl : arrow ∉ left) (hr : arrow ∉ right) :
    readWith (left ++ op.written ++ right) op = .ok (.redirect argv target op) ↔
      wordsOf left = argv ∧ argv ≠ [] ∧ wordsOf right = [target] ∧
        (∀ name ∈ argv.head?, Builtin.ofName? name = none) ∧
        isBlank left = false ∧ isBlank right = false := by
  rw [readWith, if_neg (count_le_one_iff.2 ⟨hl, hr⟩), cut_written hl hr]
  simp only
  by_cases hblank : (isBlank left || isBlank right) = true
  · rw [if_pos hblank]
    simp only [reduceCtorEq, false_iff, not_and]
    intro _ _ _ _ hleft
    simpa [hleft] using hblank
  rw [if_neg hblank]
  simp only [Bool.or_eq_true, not_or, Bool.not_eq_true] at hblank
  rw [and_iff_left (b := isBlank left = false ∧ isBlank right = false) hblank]
  split
  · rename_i hright hleft
    rw [hleft]
    simp only [Except.ok.injEq, reduceCtorEq, false_iff, not_and]
    exact fun he hne => absurd he.symm hne
  · rename_i word name arguments hright hleft
    rw [hright, hleft]
    cases hb : Builtin.ofName? name with
    | some b =>
      simp only [Option.isSome_some, if_true, reduceCtorEq, false_iff, not_and]
      rintro rfl - - hnone
      rw [hnone name rfl] at hb
      cases hb
    | none =>
      simp only [Option.isSome_none, Bool.false_eq_true, if_false, Except.ok.injEq,
        redirect.injEq, and_true, List.cons.injEq]
      constructor
      · rintro ⟨rfl, rfl⟩
        refine ⟨rfl, List.cons_ne_nil name arguments, rfl, fun name' hn => ?_⟩
        obtain rfl := Option.some.inj hn
        exact hb
      · rintro ⟨rfl, -, rfl, -⟩
        exact ⟨rfl, rfl⟩
  · rename_i hnotEmpty hnotWords
    simp only [reduceCtorEq, false_iff, not_and]
    rintro rfl hne hright
    obtain ⟨name, arguments, hleft⟩ := List.exists_cons_of_ne_nil hne
    exact absurd hleft (hnotWords target name arguments hright)

/-- A text without operator is read as its words. -/
theorem parse_simple_iff : parse raw = .ok (.simple argv) ↔
    arrow ∉ raw ∧ wordsOf raw = argv ∧ argv ≠ [] := by
  rw [parse, ← find?_none_iff]
  split
  · rename_i op hf
    simp only [hf, reduceCtorEq, false_and, iff_false]
    intro h
    rcases (sides_of_readWith h).2 with he | ⟨_, _, he⟩ <;> cases he
  · rename_i hf
    split
    · rename_i hw
      simp only [hw, Except.ok.injEq, reduceCtorEq, false_iff, not_and]
      exact fun _ he hne => absurd he.symm hne
    · rename_i hw
      simp only [hf, Except.ok.injEq, simple.injEq, true_and]
      constructor
      · rintro rfl
        exact ⟨rfl, hw⟩
      · rintro ⟨he, -⟩
        exact he

/-- A redirection is read from two sides that hold no other operator. -/
theorem parse_redirect_iff : parse raw = .ok (.redirect argv target op) ↔
    ∃ left right, raw = left ++ op.written ++ right ∧ (arrow ∉ left ∧ arrow ∉ right) ∧
      (op = .overwrite → right.head? ≠ some plus) ∧
      wordsOf left = argv ∧ argv ≠ [] ∧ wordsOf right = [target] ∧
      (∀ name ∈ argv.head?, Builtin.ofName? name = none) ∧
      isBlank left = false ∧ isBlank right = false := by
  constructor
  · intro h
    rw [parse] at h
    split at h
    · rename_i op' hf
      obtain ⟨⟨left, right, rfl, hl, hr⟩, he⟩ := sides_of_readWith h
      obtain rfl : op = op' := by
        rcases he with he | ⟨_, _, he⟩
        · cases he
        · exact (redirect.inj he).2.2
      exact ⟨left, right, rfl, ⟨hl, hr⟩, (find?_written hl hr).1 hf, (readWith_written hl hr).1 h⟩
    · split at h <;> cases h
  · rintro ⟨left, right, rfl, ⟨hl, hr⟩, hplus, hsides⟩
    rw [parse, (find?_written hl hr).2 hplus]
    exact (readWith_written hl hr).2 hsides

theorem notMem_written (op : Operator) : semicolon ∉ op.written := by
  cases op <;> decide

/-- The semicolons of the sides are those of the whole. -/
theorem noSemicolon_iff :
    semicolon ∉ left ++ op.written ++ right ↔ semicolon ∉ left ∧ semicolon ∉ right := by
  simp [notMem_written]

/-- **A command is read from just the texts that write it.** -/
theorem parse_iff : parse raw = .ok command ∧ command ≠ .empty ∧ semicolon ∉ raw ↔
    command.WellFormed ∧ command.Written raw := by
  cases command with
  | empty => simp [WellFormed]
  | simple argv =>
    rw [parse_simple_iff]
    constructor
    · rintro ⟨⟨harrow, hwords, hne⟩, -, hsemicolon⟩
      obtain ⟨hlaid, hword⟩ := wordsOf_iff.1 ⟨hwords, hsemicolon, harrow⟩
      exact ⟨⟨hne, hword⟩, .simple hlaid⟩
    · rintro ⟨⟨hne, hword⟩, hlaid⟩
      cases hlaid with
      | simple hlaid =>
        obtain ⟨hwords, hsemicolon, harrow⟩ := wordsOf_iff.2 ⟨hlaid, hword⟩
        exact ⟨⟨harrow, hwords, hne⟩, nofun, hsemicolon⟩
  | redirect argv target op =>
    rw [parse_redirect_iff]
    constructor
    · rintro ⟨⟨left, right, rfl, ⟨hl, hr⟩, hplus, hargv, hne, htarget, hname, hleft, hright⟩, -,
        hsemicolon⟩
      obtain ⟨hsl, hsr⟩ := noSemicolon_iff.1 hsemicolon
      obtain ⟨hlaid, hword⟩ := wordsOf_iff.1 ⟨hargv, hsl, hl⟩
      obtain ⟨hlaid', hword'⟩ := wordsOf_iff.1 ⟨htarget, hsr, hr⟩
      have hblank := (isBlank_false_iff_words hlaid).1 hleft
      have hblank' := (isBlank_false_iff_words hlaid').1 hright
      simp only [List.mem_singleton, exists_eq_left] at hblank'
      exact ⟨⟨⟨hne, hword⟩, hword' target List.mem_cons_self, hname, hblank, hblank'⟩,
        .redirect hlaid hlaid' hplus⟩
    · rintro ⟨⟨⟨hne, hword⟩, htarget, hname, hblank, hblank'⟩, hwritten⟩
      cases hwritten with
      | redirect hlaid hlaid' hplus =>
        obtain ⟨hargv, hsl, hl⟩ := wordsOf_iff.2 ⟨hlaid, hword⟩
        obtain ⟨hright, hsr, hr⟩ := wordsOf_iff.2 ⟨hlaid', fun word hw => by
          obtain rfl := List.mem_singleton.1 hw
          exact htarget⟩
        refine ⟨⟨_, _, rfl, ⟨hl, hr⟩, hplus, hargv, hne, hright, hname, ?_, ?_⟩, nofun,
          noSemicolon_iff.2 ⟨hsl, hsr⟩⟩
        · exact (isBlank_false_iff_words hlaid).2 hblank
        · exact (isBlank_false_iff_words hlaid').2 ⟨target, List.mem_cons_self, hblank'⟩

theorem exists_written (h : command ≠ .empty) : ∃ text, command.Written text := by
  have hspace : isSpacer 32 = true := rfl
  cases command with
  | empty => exact absurd rfl h
  | simple argv =>
    obtain ⟨text, htext⟩ := exists_laidOut hspace argv
    exact ⟨text, .simple htext⟩
  | redirect argv target op =>
    obtain ⟨left, hleft⟩ := exists_laidOut hspace argv
    -- the space keeps a target that begins with `+` away from the operator
    have hright : LaidOut isSpacer [target] (32 :: target) := .separator hspace (.last target)
    exact ⟨_, .redirect hleft hright fun _ => by simp [plus]⟩

/-- A text that writes a command is not empty. -/
theorem Written.ne_nil (h : command.Written raw) (hwf : command.WellFormed) : raw ≠ [] := by
  rintro rfl
  have hp := (parse_iff.2 ⟨hwf, h⟩).1
  cases hp
  exact hwf

end Command

end OneCommand

/-! ## Reading a line -/

section Line

variable {commands : List Command} {line : Bytes}

theorem solid_semicolon_iff {text : Bytes} :
    Solid (· == semicolon) text ↔ text ≠ [] ∧ semicolon ∉ text := by
  refine and_congr_right fun _ => ?_
  simp only [beq_eq_false_iff_ne]
  exact ⟨fun h hm => h _ hm rfl, fun h b hb he => h (he ▸ hb)⟩

/-- Texts are read as the commands just if they write the commands, one by one. -/
theorem map_parse_iff {texts : List Bytes} :
    texts.map Command.parse = commands.map .ok ∧ .empty ∉ commands ∧
        (∀ text ∈ texts, Solid (· == semicolon) text) ↔
      (∀ command ∈ commands, command.WellFormed) ∧
        List.Forall₂ Command.Written commands texts := by
  induction texts generalizing commands with
  | nil => cases commands <;> simp
  | cons text texts ih =>
    cases commands with
    | nil => simp
    | cons command commands =>
      simp only [List.map_cons, List.cons.injEq, List.mem_cons, not_or, forall_eq_or_imp,
        List.forall₂_cons]
      constructor
      · rintro ⟨⟨hparse, htail⟩, ⟨hne, hnone⟩, hsolid, hsolids⟩
        obtain ⟨hwfs, hwritten⟩ := ih.1 ⟨htail, hnone, hsolids⟩
        obtain ⟨hwf, hw⟩ := Command.parse_iff.1
          ⟨hparse, fun he => hne he.symm, (solid_semicolon_iff.1 hsolid).2⟩
        exact ⟨⟨hwf, hwfs⟩, hw, hwritten⟩
      · rintro ⟨⟨hwf, hwfs⟩, hw, hwritten⟩
        obtain ⟨htail, hnone, hsolids⟩ := ih.2 ⟨hwfs, hwritten⟩
        obtain ⟨hparse, hne, hsemicolon⟩ := Command.parse_iff.2 ⟨hwf, hw⟩
        exact ⟨⟨hparse, htail⟩, ⟨fun he => hne he.symm, hnone⟩,
          solid_semicolon_iff.2 ⟨hw.ne_nil hwf, hsemicolon⟩, hsolids⟩

/-- Every list of commands can be written. -/
theorem exists_writesLine (h : .empty ∉ commands) : ∃ line, WritesLine commands line := by
  have hwritten : ∃ texts, List.Forall₂ Command.Written commands texts := by
    induction commands with
    | nil => exact ⟨[], .nil⟩
    | cons command commands ih =>
      rw [List.mem_cons, not_or] at h
      obtain ⟨text, htext⟩ := Command.exists_written fun he => h.1 he.symm
      obtain ⟨texts, htexts⟩ := ih h.2
      exact ⟨text :: texts, .cons htext htexts⟩
  obtain ⟨texts, htexts⟩ := hwritten
  obtain ⟨line, hline⟩ : ∃ line, LaidOut (· == semicolon) texts line :=
    exists_laidOut (b := semicolon) (by simp) texts
  exact ⟨line, texts, htexts, hline⟩

/-- **Reading a line is the inverse of writing it.** A list of commands is read from just the lines
that write it, in any layout. -/
theorem parse_line_iff :
    (commandsOf line).map Command.parse = commands.map .ok ∧ .empty ∉ commands ↔
      (∀ command ∈ commands, command.WellFormed) ∧ WritesLine commands line := by
  have hparts : LaidOut (· == semicolon) (commandsOf line) line ∧
      ∀ text ∈ commandsOf line, Solid (· == semicolon) text :=
    laidOut_iff.2 (commandsOf_eq line).symm
  constructor
  · rintro ⟨hread, hnone⟩
    obtain ⟨hwf, hwritten⟩ := map_parse_iff.1 ⟨hread, hnone, hparts.2⟩
    exact ⟨hwf, commandsOf line, hwritten, hparts.1⟩
  · rintro ⟨hwf, texts, hwritten, hlaid⟩
    obtain ⟨hparse, hnone, hsolid⟩ := map_parse_iff.2 ⟨hwf, hwritten⟩
    have hcommands : commandsOf line = texts :=
      (commandsOf_eq line).trans (laidOut_iff.1 ⟨hlaid, hsolid⟩)
    exact ⟨by rw [hcommands, hparse], hnone⟩

/-- Words glued to the operator, a target that begins with `+`, semicolons in a row. -/
example : (commandsOf (Bytes.ofString ";ls\t-l ;;a>+b;a >++b; a> +b;")).map Command.parse =
    [.simple [Bytes.ofString "ls", Bytes.ofString "-l"],
      .redirect [Bytes.ofString "a"] (Bytes.ofString "b") .prepend,
      .redirect [Bytes.ofString "a"] (Bytes.ofString "+b") .prepend,
      .redirect [Bytes.ofString "a"] (Bytes.ofString "+b") .overwrite].map .ok := by
  decide

end Line

end LineShell
