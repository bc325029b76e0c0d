import LineShell.Toolbox.Format
import LineShell.Toolbox.Machine

/-!
# Programs that print

`echo`, `printf`, `printenv`, `cat`, `true` and `false`. Each gives its exit status.
-/
namespace LineShell.Toolbox

def joinWords (words : List Bytes) : Bytes := Bytes.joinWith 32 words

/-- The options of `echo`: words of a dash and the letters `n`, `e` and `E`. -/
def echoOptions : List Bytes → Bool → Bool → Bool × Bool × List Bytes
  | [], newline, escapes => (newline, escapes, [])
  | word :: words, newline, escapes =>
    match word with
    | 45 :: b :: letters =>
      let letters := b :: letters
      if letters.all fun c => c == 110 || c == 101 || c == 69 then
        let escapes := letters.foldl (fun e c => if c = 101 then true else if c = 69 then false else e)
          escapes
        echoOptions words (newline && !letters.contains 110) escapes
      else (newline, escapes, word :: words)
    | _ => (newline, escapes, word :: words)

/-- Prints its words with a space between two, and a newline. -/
def echo (p : Process) : Run Nat := do
  let (newline, escapes, words) := echoOptions p.words true false
  let text := joinWords words
  let (text, stopped) := if escapes then expandEscapes { zeroFirst := true } text else (text, false)
  Machine.put p.streams.output (if newline && !stopped then text ++ [Bytes.newline] else text)
  return 0

/-- Drops the word that ends the options. -/
def withoutMark (words : List Bytes) : List Bytes :=
  if words.head? = some (Bytes.ofString "--") then words.tail else words

/-- Prints a format with arguments. -/
def printf (style : EscapeStyle) (p : Process) : Run Nat := do
  match withoutMark p.words with
  | [] => return 1
  | fmt :: arguments =>
    let (text, ok) := format style fmt arguments
    Machine.put p.streams.output text
    return statusOf ok

/-- Prints the values of variables, or all variables. A name with `=` in it has no value. What is
handed to a program is one string for each variable, so a name ends at its first `=`. -/
def printenv (p : Process) : Run Nat := do
  let strings := p.vars.map fun e => e.1 ++ 61 :: e.2
  match withoutMark p.words with
  | [] =>
    Machine.put p.streams.output (strings.flatMap (· ++ [Bytes.newline]))
    return 0
  | names =>
    let found := names.map fun name =>
      if name.isEmpty || name.contains 61 then []
      else strings.filterMap fun s =>
        if (name ++ [61]).isPrefixOf s then some (s.drop (name.length + 1)) else none
    Machine.put p.streams.output (found.flatten.flatMap (· ++ [Bytes.newline]))
    return statusOf (found.all fun values => !values.isEmpty)

/-- Whether a channel reads behind the place where another channel wrote to the same file. Copying
would then read what it writes. -/
def readsOwnOutput (m : Machine) (source output : Channel) : Bool :=
  match source, output with
  | .file i position _, .file j written atEnd =>
    i == j && position < (if atEnd then (m.files.contents j).length else written)
  | .standard, .file j written atEnd =>
    match m.input with
    | some (i, position) =>
      i == j && position < (if atEnd then (m.files.contents j).length else written)
    | none => false
  | _, _ => false

/-- Copies all of a channel to the output. -/
def copyChannel (source output : Nat) : Run Bool := do
  let m ← get
  if readsOwnOutput m (m.channel source) (m.channel output) then return false
  match ← Machine.drain source with
  | .ok bs =>
    Machine.put output bs
    return true
  | .error _ => return false

/-- Copies the file that an operand of `cat` names; a dash names the input. -/
def catOne (p : Process) (word : Bytes) : Run Bool := do
  if word = [45] then copyChannel p.streams.input p.streams.output
  else match (← get).files.openExisting .read (p.path word) with
    | .error _ => return false
    | .ok i =>
      let source ← Machine.openChannel (.file i 0 false)
      copyChannel source p.streams.output

/-- The letters of the options and the operands among words, or nothing if a letter is not known.
Options may stand anywhere before `--`. -/
def optionsOf (known : Bytes) : List Bytes → Option (Bytes × List Bytes)
  | [] => some ([], [])
  | word :: words =>
    match word with
    | [45, 45] => some ([], words)
    | 45 :: b :: letters =>
      if (b :: letters).all known.contains then
        (optionsOf known words).map fun (found, operands) => (b :: letters ++ found, operands)
      else none
    | _ => (optionsOf known words).map fun (found, operands) => (found, word :: operands)

/-- Copies files to the output, one after the other. -/
def cat (p : Process) : Run Nat := do
  match optionsOf (Bytes.ofString "u") p.words with
  | none => return 1
  | some (_, []) => return statusOf (← catOne p [45])
  | some (_, words) =>
    let done ← words.mapM (catOne p)
    return statusOf (done.all id)

end LineShell.Toolbox
