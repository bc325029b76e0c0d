import LineShell.Proofs.Grammar

/-!
# Where the words of a text stand

`LaidOut` says that a text shows parts in some layout. Here the layout itself is a value: what
stands in front of the first part, and behind each part. A text leaves no choice of it, so every
byte of a text has one place, in one part or in one gap.

* `Alternating`: parts that can be found again, each with a gap of separators behind it.
* `Spacing`: a layout, that is a gap and alternating parts and gaps; its `text` and its `parts`.

Results:
* `partsOf_eq_iff`: a text has some parts just if a layout of these parts has this text.
* `Spacing.text_injective`: layouts of one text are equal, for each part and each gap goes on as
  far as it can.
* `Spacing.parts_flatten`: the parts hold the bytes that are no separators, in the order of the
  text.
* `wordsOf_decomposes`: the words of a text are the parts of its one layout.
-/
namespace LineShell

variable {sep : UInt8 → Bool}

/-! ## Layouts -/

/-- Parts, each with the gap behind it. A part is not empty and holds no separator, a gap holds
nothing else, and a gap between two parts is not empty. -/
structure Alternating (sep : UInt8 → Bool) (runs : List (Bytes × Bytes)) : Prop where
  parts : ∀ run ∈ runs, Solid sep run.1
  gaps : ∀ run ∈ runs, ∀ b ∈ run.2, sep b = true
  between : ∀ run ∈ runs.dropLast, run.2 ≠ []

theorem alternating_nil : Alternating sep [] := ⟨by simp, by simp, by simp⟩

/-- Only the gap behind the last part may be empty. -/
theorem alternating_cons {run : Bytes × Bytes} {runs : List (Bytes × Bytes)} :
    Alternating sep (run :: runs) ↔ Solid sep run.1 ∧ (∀ b ∈ run.2, sep b = true) ∧
      (run.2 = [] → runs = []) ∧ Alternating sep runs := by
  constructor
  · rintro ⟨hparts, hgaps, hbetween⟩
    rw [List.forall_mem_cons] at hparts hgaps
    refine ⟨hparts.1, hgaps.1, fun hempty => ?_, hparts.2, hgaps.2, fun other hother => ?_⟩
    · by_contra hne
      rw [List.dropLast_cons_of_ne_nil hne, List.forall_mem_cons] at hbetween
      exact hbetween.1 hempty
    · have hne : runs ≠ [] := by
        rintro rfl
        cases hother
      rw [List.dropLast_cons_of_ne_nil hne, List.forall_mem_cons] at hbetween
      exact hbetween.2 other hother
  · rintro ⟨hpart, hgap, hlast, hparts, hgaps, hbetween⟩
    refine ⟨List.forall_mem_cons.2 ⟨hpart, hparts⟩, List.forall_mem_cons.2 ⟨hgap, hgaps⟩, ?_⟩
    by_cases hne : runs = []
    · simp [hne]
    · rw [List.dropLast_cons_of_ne_nil hne]
      exact List.forall_mem_cons.2 ⟨fun hempty => hne (hlast hempty), hbetween⟩

/-- Parts and gaps in order. -/
def textOf (runs : List (Bytes × Bytes)) : Bytes := runs.flatMap fun run => run.1 ++ run.2

@[simp] theorem textOf_nil : textOf [] = [] := rfl

@[simp] theorem textOf_cons (run : Bytes × Bytes) (runs : List (Bytes × Bytes)) :
    textOf (run :: runs) = run.1 ++ (run.2 ++ textOf runs) := by
  simp [textOf]

/-- A way to read a text as parts with separators around them. -/
@[ext]
structure Spacing (sep : UInt8 → Bool) where
  /-- The gap before the first part. -/
  front : Bytes
  /-- The parts in order, each with the gap behind it. -/
  runs : List (Bytes × Bytes)
  front_separates : ∀ b ∈ front, sep b = true
  alternating : Alternating sep runs

namespace Spacing

/-- The text that is read. -/
def text (spacing : Spacing sep) : Bytes := spacing.front ++ textOf spacing.runs

/-- The parts alone. -/
def parts (spacing : Spacing sep) : List Bytes := spacing.runs.map Prod.fst

end Spacing

/-! ## A text has some layout -/

section Existence

variable {text : Bytes} {parts : List Bytes} {runs : List (Bytes × Bytes)}

/-- Separators may be written in front of any text. -/
theorem LaidOut.behind {gap : Bytes} (hgap : ∀ b ∈ gap, sep b = true)
    (h : LaidOut sep parts text) : LaidOut sep parts (gap ++ text) := by
  induction gap with
  | nil => exact h
  | cons b gap ih =>
    rw [List.forall_mem_cons] at hgap
    exact .separator hgap.1 (ih hgap.2)

theorem Alternating.laidOut (h : Alternating sep runs) :
    LaidOut sep (runs.map Prod.fst) (textOf runs) := by
  induction runs with
  | nil => exact .none
  | cons run runs ih =>
    obtain ⟨part, gap⟩ := run
    obtain ⟨-, hgap, hlast, hruns⟩ := alternating_cons.1 h
    cases gap with
    | nil =>
      obtain rfl := hlast rfl
      simpa using LaidOut.last part
    | cons b gap =>
      rw [List.forall_mem_cons] at hgap
      have hmore := @LaidOut.more sep _ part _ b hgap.1 ((ih hruns).behind hgap.2)
      simpa using hmore

namespace Spacing

theorem laidOut (spacing : Spacing sep) : LaidOut sep spacing.parts spacing.text :=
  spacing.alternating.laidOut.behind spacing.front_separates

theorem parts_solid (spacing : Spacing sep) : ∀ part ∈ spacing.parts, Solid sep part := by
  intro part hpart
  obtain ⟨run, hrun, rfl⟩ := List.mem_map.1 hpart
  exact spacing.alternating.parts run hrun

end Spacing

/-- A layout can be read off the way in which the text shows its parts. -/
theorem LaidOut.exists_spacing (h : LaidOut sep parts text)
    (hsolid : ∀ part ∈ parts, Solid sep part) :
    ∃ spacing : Spacing sep, spacing.text = text ∧ spacing.parts = parts := by
  induction h with
  | none => exact ⟨⟨[], [], by simp, alternating_nil⟩, rfl, rfl⟩
  | @separator parts text b hb _ ih =>
    obtain ⟨spacing, rfl, rfl⟩ := ih hsolid
    exact ⟨{ spacing with
      front := b :: spacing.front
      front_separates := List.forall_mem_cons.2 ⟨hb, spacing.front_separates⟩ }, rfl, rfl⟩
  | last part =>
    have hruns : Alternating sep [(part, [])] :=
      alternating_cons.2 ⟨hsolid part List.mem_cons_self, by simp, fun _ => rfl, alternating_nil⟩
    exact ⟨⟨[], [(part, [])], by simp, hruns⟩, by simp [Spacing.text], rfl⟩
  | @more parts part text b hb _ ih =>
    rw [List.forall_mem_cons] at hsolid
    obtain ⟨spacing, rfl, rfl⟩ := ih hsolid.2
    -- what stood in front of the text is now the rest of the gap behind the part
    have hruns : Alternating sep ((part, b :: spacing.front) :: spacing.runs) :=
      alternating_cons.2 ⟨hsolid.1, List.forall_mem_cons.2 ⟨hb, spacing.front_separates⟩,
        nofun, spacing.alternating⟩
    exact ⟨⟨[], _, by simp, hruns⟩, by simp [Spacing.text], rfl⟩

/-- The parts that are found in a text are those of a layout of it. -/
theorem partsOf_eq_iff : partsOf sep text = parts ↔
    ∃ spacing : Spacing sep, spacing.text = text ∧ spacing.parts = parts := by
  rw [← laidOut_iff]
  constructor
  · rintro ⟨h, hsolid⟩
    exact h.exists_spacing hsolid
  · rintro ⟨spacing, rfl, rfl⟩
    exact ⟨spacing.laidOut, spacing.parts_solid⟩

end Existence

/-! ## A text has no other layout -/

section Uniqueness

/-- A run that goes on as far as it can is determined by the whole. -/
theorem append_inj_of_maximal {p : UInt8 → Bool} {run run' rest rest' : Bytes}
    (hrun : ∀ b ∈ run, p b = true) (hrun' : ∀ b ∈ run', p b = true)
    (hrest : ∀ b ∈ rest.head?, p b = false) (hrest' : ∀ b ∈ rest'.head?, p b = false)
    (h : run ++ rest = run' ++ rest') : run = run' ∧ rest = rest' := by
  have htake {run rest : Bytes} (hrun : ∀ b ∈ run, p b = true)
      (hrest : ∀ b ∈ rest.head?, p b = false) : (run ++ rest).takeWhile p = run := by
    rw [List.takeWhile_append_of_pos hrun]
    cases rest with
    | nil => simp
    | cons b rest => simp [hrest b rfl]
  have heq : run = run' := by rw [← htake hrun hrest, h, htake hrun' hrest']
  subst heq
  exact ⟨rfl, List.append_cancel_left h⟩

/-- Parts and gaps begin with a byte of the first part. -/
theorem Alternating.head? {runs : List (Bytes × Bytes)} (h : Alternating sep runs) :
    ∀ b ∈ (textOf runs).head?, sep b = false := by
  cases runs with
  | nil => simp
  | cons run runs =>
    obtain ⟨⟨hne, hfree⟩, -⟩ := alternating_cons.1 h
    obtain ⟨b, part, hpart⟩ := List.exists_cons_of_ne_nil hne
    rw [hpart] at hfree
    simpa [hpart] using hfree b List.mem_cons_self

/-- Behind a part comes a separator, or nothing. -/
theorem Alternating.head?_gap {run : Bytes × Bytes} {runs : List (Bytes × Bytes)}
    (h : Alternating sep (run :: runs)) : ∀ b ∈ (run.2 ++ textOf runs).head?, sep b = true := by
  obtain ⟨-, hgap, hlast, -⟩ := alternating_cons.1 h
  cases hempty : run.2 with
  | nil => simp [hlast hempty]
  | cons b gap =>
    rw [hempty] at hgap
    simpa using hgap b List.mem_cons_self

theorem Alternating.eq_of_textOf {runs runs' : List (Bytes × Bytes)} (h : Alternating sep runs)
    (h' : Alternating sep runs') (heq : textOf runs = textOf runs') : runs = runs' := by
  induction runs generalizing runs' with
  | nil =>
    cases runs' with
    | nil => rfl
    | cons run' runs' => simp [(alternating_cons.1 h').1.1] at heq
  | cons run runs ih =>
    cases runs' with
    | nil => simp [(alternating_cons.1 h).1.1] at heq
    | cons run' runs' =>
      have hhead := h.head?_gap
      have hhead' := h'.head?_gap
      obtain ⟨hpart, hgap, -, hruns⟩ := alternating_cons.1 h
      obtain ⟨hpart', hgap', -, hruns'⟩ := alternating_cons.1 h'
      rw [textOf_cons, textOf_cons] at heq
      obtain ⟨hfirst, hbehind⟩ : run.1 = run'.1 ∧ _ :=
        append_inj_of_maximal (p := fun b => !sep b) (by simpa using hpart.2)
          (by simpa using hpart'.2) (by simpa using hhead) (by simpa using hhead') heq
      obtain ⟨hsecond, htail⟩ :=
        append_inj_of_maximal hgap hgap' hruns.head? hruns'.head? hbehind
      rw [Prod.ext hfirst hsecond, ih hruns hruns' htail]

/-- **There is one layout of a text.** -/
theorem Spacing.text_injective : Function.Injective fun spacing : Spacing sep => spacing.text := by
  intro spacing other h
  obtain ⟨hfront, hruns⟩ := append_inj_of_maximal spacing.front_separates other.front_separates
    spacing.alternating.head? other.alternating.head? h
  exact Spacing.ext hfront (spacing.alternating.eq_of_textOf other.alternating hruns)

end Uniqueness

/-! ## Every byte has its place -/

theorem filter_gap {gap : Bytes} (h : ∀ b ∈ gap, sep b = true) :
    gap.filter (fun b => !sep b) = [] := by
  simpa [List.filter_eq_nil_iff] using h

theorem filter_part {part : Bytes} (h : Solid sep part) :
    part.filter (fun b => !sep b) = part := by
  simpa [List.filter_eq_self] using h.2

theorem Alternating.flatten {runs : List (Bytes × Bytes)} (h : Alternating sep runs) :
    (textOf runs).filter (fun b => !sep b) = (runs.map Prod.fst).flatten := by
  induction runs with
  | nil => rfl
  | cons run runs ih =>
    obtain ⟨hpart, hgap, -, hruns⟩ := alternating_cons.1 h
    rw [textOf_cons, List.filter_append, List.filter_append, filter_part hpart, filter_gap hgap,
      ih hruns]
    rfl

/-- The parts hold the bytes of the text that are no separators, in their order. -/
theorem Spacing.parts_flatten (spacing : Spacing sep) :
    spacing.parts.flatten = spacing.text.filter fun b => !sep b := by
  rw [text, List.filter_append, filter_gap spacing.front_separates, spacing.alternating.flatten]
  rfl

/-- **The words of a text are the parts of its one layout.** The text is a gap and then words with
gaps behind them. There is one way to see it so, whatever its bytes are, and no byte but spaces and
tabs is lost, altered or moved. -/
theorem wordsOf_decomposes (text : Bytes) :
    (∀ words, wordsOf text = words ↔
      ∃ spacing : Spacing isSpacer, spacing.text = text ∧ spacing.parts = words) ∧
    (∃! spacing : Spacing isSpacer, spacing.text = text) ∧
    (wordsOf text).flatten = text.filter fun b => !isSpacer b := by
  obtain ⟨spacing, htext, hparts⟩ := partsOf_eq_iff.1 (wordsOf_eq text).symm
  refine ⟨fun words => ?_, ⟨spacing, htext, fun other hother => ?_⟩, ?_⟩
  · rw [wordsOf_eq, partsOf_eq_iff]
  · exact Spacing.text_injective (hother.trans htext.symm)
  · rw [← hparts, spacing.parts_flatten, htext]

/-- A newline, a NUL and a byte that is no UTF-8 stay in the word they stand in. -/
example : wordsOf [9, 97, 10, 255, 32, 9, 0, 11, 32] = [[97, 10, 255], [0, 11]] := by decide

end LineShell
