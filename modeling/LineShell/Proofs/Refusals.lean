import LineShell.Proofs.Grammar

/-!
# Commands that are read, and commands that are refused

A text holds no `>`, or more than one, or it has two sides with an operator between them. What
becomes of it is decided shape by shape.

* `Sides`: a text with one operator and what stands on either side of it. `sides_cases`: there is no
  fourth shape.
* `parse_noArrow`, `parse_manyArrows`, `parse_sides`: how a text of each shape is read.
* `Refused`: the texts that are refused, each with its one cause (`parse_error_iff`).
* `parse_empty_iff`: the texts in which there is nothing.
* `parse_decides`: what is read from a text, and the cause of its refusal if nothing is.
-/
namespace LineShell.Command

variable {raw left right : Bytes} {op : Operator}

/-! ## Three shapes -/

/-- The text is `left` and `right` with the operator between them, and holds no other `>`. A `+`
right behind the `>` belongs to the operator. -/
structure Sides (raw left right : Bytes) (op : Operator) : Prop where
  written : raw = left ++ op.written ++ right
  noArrow_left : arrow ∉ left
  noArrow_right : arrow ∉ right
  noPlus : op = .overwrite → right.head? ≠ some plus

theorem sides_of_arrow {rest : Bytes} (hl : arrow ∉ left) (hr : arrow ∉ rest) :
    ∃ right op, Sides (left ++ arrow :: rest) left right op := by
  by_cases hp : rest.head? = some plus
  · obtain ⟨right, rfl⟩ := List.head?_eq_some_iff.1 hp
    exact ⟨right, .prepend, by simp [Operator.written], hl,
      fun hm => hr (List.mem_cons_of_mem plus hm), nofun⟩
  · exact ⟨rest, .overwrite, by simp [Operator.written], hl, hr, fun _ => hp⟩

/-- A text holds no `>`, or more than one, or has two sides. -/
theorem sides_cases (raw : Bytes) :
    arrow ∉ raw ∨ 1 < raw.count arrow ∨ ∃ left right op, Sides raw left right op := by
  by_cases hm : arrow ∈ raw
  · right
    obtain ⟨left, rest, rfl, hl⟩ := List.eq_append_cons_of_mem hm
    by_cases hr : arrow ∈ rest
    · left
      have hcount := List.count_pos_iff.2 hr
      rw [List.count_append, List.count_cons_self]
      omega
    · right
      obtain ⟨right, op, hs⟩ := sides_of_arrow hl hr
      exact ⟨left, right, op, hs⟩
  · exact Or.inl hm

/-- Without a `>` a text is read as its words. -/
theorem parse_noArrow (h : arrow ∉ raw) :
    parse raw = .ok (if wordsOf raw = [] then .empty else .simple (wordsOf raw)) := by
  rw [parse, find?_none_iff.2 h]
  cases wordsOf raw with
  | nil => rfl
  | cons word words => rfl

theorem parse_manyArrows (h : 1 < raw.count arrow) :
    parse raw = .error (.redirection .manyOperators) := by
  have hm : arrow ∈ raw := List.count_pos_iff.1 (Nat.lt_of_succ_lt h)
  rw [parse]
  cases hf : Operator.find? raw with
  | none => exact absurd hm (find?_none_iff.1 hf)
  | some op => exact if_pos h

/-- A text with two sides is read by its sides. -/
theorem parse_sides (h : Sides raw left right op) :
    parse raw =
      if isBlank left || isBlank right then .error (.redirection .missingSide)
      else match wordsOf right, wordsOf left with
        | [_], [] => .ok .empty
        | [target], name :: arguments =>
          if (Builtin.ofName? name).isSome then .error (.redirectedBuiltin name.decode)
          else .ok (.redirect (name :: arguments) target op)
        | _, _ => .error (.redirection .manyTargets) := by
  obtain ⟨rfl, hl, hr, hp⟩ := h
  rw [parse, (find?_written hl hr).2 hp]
  simp only
  rw [readWith, if_neg (count_le_one_iff.2 ⟨hl, hr⟩)]
  exact cut_written hl hr ▸ rfl

/-! ## Refusals -/

theorem ofName?_eq_none_iff {name : Bytes} :
    Builtin.ofName? name = none ↔ ∀ b : Builtin, b.name ≠ name := by
  rw [Builtin.ofName?, List.find?_eq_none]
  constructor
  · intro h b he
    exact h b (by cases b <;> decide) (beq_iff_eq.2 he)
  · exact fun h b _ he => h b (eq_of_beq he)

theorem ofName?_isSome_iff {name : Bytes} :
    (Builtin.ofName? name).isSome = true ↔ ∃ b : Builtin, b.name = name := by
  rw [← not_iff_not, Option.not_isSome_iff_eq_none, ofName?_eq_none_iff, not_exists]

/-- A side with more than white space in it has a word. -/
theorem exists_word (h : isBlank left = false) : ∃ name arguments, wordsOf left = name :: arguments
    := by
  refine List.exists_cons_of_ne_nil fun hnil => ?_
  have hall : isBlank left = true :=
    List.all_eq_true.2 fun b hb => isSpace_of_isSpacer (wordsOf_eq_nil_iff.1 hnil b hb)
  rw [h] at hall
  cases hall

/-- So if neither side is blank, the left one has a command's name in front. -/
theorem exists_name (h : ¬ (isBlank left || isBlank right) = true) :
    ∃ name arguments, wordsOf left = name :: arguments := by
  simp only [Bool.or_eq_true, not_or, Bool.not_eq_true] at h
  exact exists_word h.1

/-- The texts that are refused, with the cause. Of two causes the one that stands first counts. -/
inductive Refused (raw : Bytes) : Failure → Prop
  /-- There is more than one `>`. -/
  | manyOperators : 1 < raw.count arrow → Refused raw (.redirection .manyOperators)
  /-- A side is missing, or is white space. -/
  | missingSide {left right : Bytes} {op : Operator} : Sides raw left right op →
    isBlank left = true ∨ isBlank right = true → Refused raw (.redirection .missingSide)
  /-- The target is not one word. -/
  | manyTargets {left right : Bytes} {op : Operator} : Sides raw left right op →
    isBlank left = false → isBlank right = false → (wordsOf right).length ≠ 1 →
    Refused raw (.redirection .manyTargets)
  /-- The command is built in. -/
  | builtin {left right target : Bytes} {op : Operator} {arguments : List Bytes} (b : Builtin) :
    Sides raw left right op → isBlank left = false → isBlank right = false →
    wordsOf right = [target] → wordsOf left = b.name :: arguments →
    Refused raw (.redirectedBuiltin b.name.decode)

theorem refused_of_sides (h : Sides raw left right op) {e : Failure}
    (he : parse raw = .error e) : Refused raw e := by
  rw [parse_sides h] at he
  by_cases hblank : (isBlank left || isBlank right) = true
  · rw [if_pos hblank] at he
    cases he
    exact .missingSide h (Bool.or_eq_true_iff.1 hblank)
  rw [if_neg hblank] at he
  simp only [Bool.or_eq_true, not_or, Bool.not_eq_true] at hblank
  obtain ⟨hl, hr⟩ := hblank
  split at he
  · cases he
  · rename_i target name arguments hright hleft
    split at he
    · rename_i hname
      obtain ⟨b, rfl⟩ := ofName?_isSome_iff.1 hname
      cases he
      exact .builtin b h hl hr hright hleft
    · cases he
  · rename_i hnotEmpty hnotWords
    cases he
    refine .manyTargets h hl hr fun hone => ?_
    obtain ⟨target, hright⟩ := List.length_eq_one_iff.1 hone
    obtain ⟨name, arguments, hleft⟩ := exists_word hl
    exact hnotWords target name arguments hright hleft

/-- What is refused is refused for its cause. -/
theorem Refused.parse {e : Failure} (h : Refused raw e) : parse raw = .error e := by
  cases h with
  | manyOperators h => exact parse_manyArrows h
  | missingSide h hblank => rw [parse_sides h, if_pos (Bool.or_eq_true_iff.2 hblank)]
  | manyTargets h hl hr hone =>
    rw [parse_sides h, hl, hr]
    split
    · rename_i hblank
      cases hblank
    split
    · rename_i hright _
      rw [hright] at hone
      exact absurd rfl hone
    · rename_i hright _
      rw [hright] at hone
      exact absurd rfl hone
    · rfl
  | builtin b h hl hr hright hleft =>
    rw [parse_sides h, hl, hr, hright, hleft]
    exact if_pos (ofName?_isSome_iff.2 ⟨b, rfl⟩)

theorem parse_error_iff {e : Failure} : parse raw = .error e ↔ Refused raw e := by
  refine ⟨fun he => ?_, Refused.parse⟩
  rcases sides_cases raw with hnone | hmany | ⟨left, right, op, h⟩
  · rw [parse_noArrow hnone] at he
    cases he
  · rw [parse_manyArrows hmany] at he
    cases he
    exact .manyOperators hmany
  · exact refused_of_sides h he

/-! ## Commands -/

/-- There is nothing in a text just if it is made of spaces and tabs. -/
theorem parse_empty_iff : parse raw = .ok .empty ↔ ∀ b ∈ raw, isSpacer b = true := by
  rw [← wordsOf_eq_nil_iff]
  constructor
  · intro h
    rcases sides_cases raw with hnone | hmany | ⟨left, right, op, hs⟩
    · rw [parse_noArrow hnone] at h
      by_contra hne
      rw [if_neg hne] at h
      cases h
    · rw [parse_manyArrows hmany] at h
      cases h
    · -- a side that is not blank has a word, which is the name of a command
      rw [parse_sides hs] at h
      split at h
      · cases h
      rename_i hblank
      obtain ⟨name, arguments, hleft⟩ := exists_name hblank
      rw [hleft] at h
      split at h
      · rename_i hnil
        cases hnil
      · split at h <;> cases h
      · cases h
  · intro hnil
    have hnone : arrow ∉ raw := by
      intro hm
      have hs := wordsOf_eq_nil_iff.1 hnil arrow hm
      cases hs
    rw [parse_noArrow hnone, if_pos hnil]

/-- **What is read.** A text is read as an empty command just if it is made of spaces and tabs; as a
command without redirection just if it holds no `>`, with its words; as a redirection just if it has
two sides with the operator between them and no other `>`, neither side is white space alone, the
left one has the command's words with no built-in command's name in front, and the right one is one
word. The texts that are refused, for the cause that `Refused` tells, are just all the others. -/
theorem parse_decides (raw : Bytes) :
    (parse raw = .ok .empty ↔ ∀ b ∈ raw, isSpacer b = true) ∧
    (∀ argv, parse raw = .ok (.simple argv) ↔ arrow ∉ raw ∧ wordsOf raw = argv ∧ argv ≠ []) ∧
    (∀ argv target op, parse raw = .ok (.redirect argv target op) ↔
      ∃ left right, raw = left ++ op.written ++ right ∧ arrow ∉ left ∧ arrow ∉ right ∧
        (op = .overwrite → right.head? ≠ some plus) ∧
        isBlank left = false ∧ isBlank right = false ∧
        (wordsOf left = argv ∧ ∃ name ∈ argv.head?, ∀ b : Builtin, b.name ≠ name) ∧
        wordsOf right = [target]) ∧
    (∀ e, parse raw = .error e ↔ Refused raw e) ∧
    ((∃ e, Refused raw e) ↔ ∀ command, parse raw ≠ .ok command) := by
  refine ⟨parse_empty_iff, fun argv => parse_simple_iff, fun argv target op => ?_,
    fun e => parse_error_iff, ?_⟩
  · rw [parse_redirect_iff]
    refine exists_congr fun left => exists_congr fun right => and_congr_right fun _ => ?_
    cases argv with
    | nil => simp
    | cons name arguments =>
      simp only [List.head?_cons, Option.mem_def, Option.some.injEq, forall_eq', exists_eq_left',
        ofName?_eq_none_iff, ne_eq, reduceCtorEq, not_false_eq_true, true_and]
      tauto
  · simp only [← parse_error_iff]
    cases parse raw with
    | ok command => simp
    | error e => simp

/-- Two operators, a side of white space that is a word, no single target, a built-in command. -/
example : [">a>", "a>\r", "a > b c", "pwd >+ b"].map (fun text => parse (Bytes.ofString text)) =
    [.error (.redirection .manyOperators), .error (.redirection .missingSide),
      .error (.redirection .manyTargets), .error (.redirectedBuiltin "pwd")] := by
  decide

end LineShell.Command
