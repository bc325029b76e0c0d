import LineShell.Bytes

/-!
# Operands

The words behind a command's name. No command of the shell has options: a word that begins with
a dash is refused, and so is a request for help, unless a word `--` stands before it. That word
itself is dropped, once.

* `operands`: the operands among the words, or nothing if a word is refused.
* `operandsUpTo`: the same with a limit on their number.
-/
namespace LineShell

/-- The word behind which every word is an operand. -/
def endOfOptions : String := "--"

/-- Words that ask for help. `--help` also begins with a dash. -/
def asksForHelp (word : String) : Bool := word == "help" || word == "--help"

def beginsWithDash (word : String) : Bool := word.toList.head? == some '-'

/-- The operands among `words` in order. Up to the first `--`, a word that begins with a dash or
asks for help is refused. -/
def operands : List String → Option (List String)
  | [] => some []
  | word :: words =>
    if word = endOfOptions then some words
    else if beginsWithDash word || asksForHelp word then none
    else (operands words).map (word :: ·)

/-- The operands if there are at most `limit` of them. -/
def operandsUpTo (limit : Nat) (words : List String) : Option (List String) :=
  (operands words).filter fun found => found.length ≤ limit

/-- Behind `--` nothing is refused. -/
theorem operands_endOfOptions (words : List String) :
    operands (endOfOptions :: words) = some words := by
  simp [operands]

end LineShell
