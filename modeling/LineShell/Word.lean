import LineShell.Bytes

/-!
# Words and commands

The language has no quoting and no escaping. A line is cut into commands at every `;`, and a
command into words at every run of spaces and tabs.

* `commandsOf`: the commands of a line. Empty ones are dropped; ones of blanks alone are kept.
* `wordsOf`: the words of a command, none of them empty.
* `isBlank`: whether a byte string holds white space alone. White space is a larger class than
  what separates words.
-/
namespace LineShell

/-- Space and tab separate words. -/
def isSpacer (b : UInt8) : Bool := b == 32 || b == 9

/-- White space: space, tab, newline, vertical tab, form feed and carriage return. -/
def isSpace (b : UInt8) : Bool := b == 32 || (9 ≤ b && b ≤ 13)

/-- The semicolon ends a command. -/
def semicolon : UInt8 := 59

/-- Every byte is white space; the empty string is blank. -/
def isBlank (bs : Bytes) : Bool := bs.all isSpace

/-- The commands of a line in order, without the empty ones. -/
def commandsOf (line : Bytes) : List Bytes :=
  (line.splitOn semicolon).filter fun command => !command.isEmpty

/-- The maximal runs of bytes that are neither space nor tab. -/
def wordsOf (command : Bytes) : List Bytes :=
  (command.splitWhen isSpacer).filter fun word => !word.isEmpty

theorem isSpace_of_isSpacer {b : UInt8} (h : isSpacer b = true) : isSpace b = true := by
  simp only [isSpacer, Bool.or_eq_true, beq_iff_eq] at h
  rcases h with rfl | rfl <;> decide

/-- A word is not empty and holds no space and no tab. -/
theorem wordsOf_mem {command word : Bytes} (h : word ∈ wordsOf command) :
    word ≠ [] ∧ ∀ b ∈ word, isSpacer b = false := by
  simp only [wordsOf, List.mem_filter, Bool.not_eq_eq_eq_not, Bool.not_true,
    List.isEmpty_eq_false_iff] at h
  exact ⟨h.2, Bytes.splitWhen_free _ _ word h.1⟩

end LineShell
