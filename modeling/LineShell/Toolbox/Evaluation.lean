import LineShell.Toolbox.FileChange
import LineShell.Toolbox.Script

/-!
# Running scripts

`sh` runs a script command by command. Programs are started through a function that it is given,
so that nothing here depends on which programs there are.

* `ShellState`: the variables, parameters and streams of a running script.
* `Evaluation.expand`: the words that a word of a script stands for.
* `Evaluation.eval`: a command of a script.
* `Evaluation.sh`: the program.
-/
namespace LineShell.Toolbox

/-- Starts a program: its file and what it is started with. The answer is its exit status. -/
abbrev Starter := Bytes → Process → Machine → Except OsError (Nat × Machine)

/-- Why the commands behind a command are not run. -/
inductive Flow
  | goOn
  | leave
  | break (levels : Nat)
  | continue (levels : Nat)
  deriving DecidableEq, Repr

structure ShellState where
  vars : Variables
  /-- The names of the variables that programs receive. -/
  exported : List Bytes
  zero : Bytes
  parameters : List Bytes
  dir : Bytes
  streams : Streams
  status : Nat := 0
  flow : Flow := .goOn
  /-- A failing command ends the script. -/
  strict : Bool := false

namespace Evaluation

/-- Something that a script does, with the machine it runs on. -/
abbrev Step := StateM (ShellState × Machine)

def onMachine {α : Type} (x : Run α) : Step α := fun (s, m) =>
  let (a, m) := x m
  (a, (s, m))

def state : Step ShellState := return (← get).1

def machine : Step Machine := return (← get).2

def modifyState (f : ShellState → ShellState) : Step Unit := modify fun (s, m) => (f s, m)

def setStatus (n : Nat) : Step Unit := modifyState fun s => { s with status := n }

def write (bs : Bytes) : Step Unit := do
  onMachine (Machine.put (← state).streams.output bs)

def decimal (n : Nat) : Bytes := digits 10 n

def ofText (s : String) : Bytes := Bytes.ofString s

/-- The number of the running script among programs. Nothing depends on it. -/
def processNumber : Nat := 4242

def path (s : ShellState) (p : Bytes) : Bytes := if p.isEmpty then p else Path.join s.dir p

/-- The process that a program is started as. -/
def processFor (s : ShellState) (argv : List Bytes) : Process :=
  { argv, vars := s.vars.filter fun e => s.exported.contains e.1, dir := s.dir, streams := s.streams }

/-! ## Expansion -/

/-- The separators between words in the value of a variable. -/
def separators (s : ShellState) : Bytes := (s.vars.get? (ofText "IFS")).getD [32, 9, 10]

/-- The value of a variable or parameter. -/
def valueOf (s : ShellState) (name : Bytes) : Option Bytes :=
  if name = ofText "#" then some (decimal s.parameters.length)
  else if name = ofText "?" then some (decimal s.status)
  else if name = ofText "$" then some (decimal processNumber)
  else if name = ofText "0" then some s.zero
  else if name = ofText "@" || name = ofText "*" then
    if s.parameters.isEmpty then none else some (joinWords s.parameters)
  else match number 10 name.length 0 name with
    | (n + 1, []) => s.parameters[n]?
    | _ => s.vars.get? name

/-- Words under construction: those that are complete, and the one that is not. -/
structure Fields where
  complete : List Bytes := []
  current : Option Bytes := none

namespace Fields

def close (f : Fields) : Fields :=
  match f.current with
  | none => f
  | some w => ⟨f.complete ++ [w], none⟩

def extend (f : Fields) (bs : Bytes) : Fields := { f with current := some (f.current.getD [] ++ bs) }

/-- Appends a value that is split at separators. -/
def split (separators : Bytes) (f : Fields) (bs : Bytes) : Fields :=
  bs.foldl (fun f b =>
    if separators.contains b then
      if isSpaceByte b then f.close else (f.extend []).close
    else f.extend [b]) f
where
  isSpaceByte (b : UInt8) : Bool := b == 32 || b == 9 || b == 10

/-- Appends several values as words of their own. -/
def several (f : Fields) : List Bytes → Fields
  | [] => f
  | [w] => f.extend w
  | w :: ws => several (f.extend w).close ws

end Fields

/-- The value of an arithmetic expression: numbers, variables, signs, `*`, `/`, `%`, `+`, `-` and
parentheses, by precedence. -/
def arithmetic (s : ShellState) : (fuel : Nat) → (level : Nat) → Bytes → Option (Int × Bytes)
  | 0, _, _ => none
  | fuel + 1, level, text =>
    let text := text.dropWhile fun b => b == 32 || b == 9 || b == 10
    match level with
    | 0 =>
      match text with
      | 45 :: rest => (arithmetic s fuel 0 rest).map fun (n, rest) => (-n, rest)
      | 43 :: rest => arithmetic s fuel 0 rest
      | 40 :: rest =>
        match arithmetic s fuel 2 rest with
        | some (n, rest) =>
          match rest.dropWhile fun b => b == 32 with
          | 41 :: rest => some (n, rest)
          | _ => none
        | none => none
      | b :: _ =>
        if Token.isDigit b then
          let (n, rest) := number 10 text.length 0 text
          some (n, rest)
        else
          let behind := if b = 36 then text.tail else text
          let name := behind.takeWhile Token.isNameByte
          if name.isEmpty then none
          else some ((integer ((valueOf s name).getD [])).1, behind.drop name.length)
      | [] => none
    | level + 1 =>
      let ops : Bytes := if level = 0 then [42, 47, 37] else [43, 45]
      let rec more (fuel' : Nat) (left : Int) (rest : Bytes) : Option (Int × Bytes) :=
        match fuel' with
        | 0 => none
        | fuel' + 1 =>
          match rest.dropWhile fun b => b == 32 || b == 9 || b == 10 with
          | op :: rest' =>
            if ops.contains op then
              match arithmetic s fuel level rest' with
              | some (right, rest) =>
                if op = 42 then more fuel' (left * right) rest
                else if op = 43 then more fuel' (left + right) rest
                else if op = 45 then more fuel' (left - right) rest
                else if right = 0 then none
                else if op = 47 then more fuel' (left.tdiv right) rest
                else more fuel' (left.tmod right) rest
              | none => none
            else some (left, rest)
          | [] => some (left, [])
      match arithmetic s fuel level text with
      | some (left, rest) => more (rest.length + 1) left rest
      | none => none

def signed (n : Int) : Bytes := if n < 0 then 45 :: decimal n.natAbs else decimal n.natAbs

/-- Runs commands whose output is collected, in a copy of the state. -/
def collected (run : Step Unit) : Step Bytes := fun (s, m) =>
  let (c, m) := Machine.openChannel (.pipe []) m
  let (_, (s', m)) := run ({ s with streams := { s.streams with output := c } }, m)
  let bytes := match m.channel c with
    | .pipe buffer => buffer
    | _ => []
  ((bytes.reverse.dropWhile (· == Bytes.newline)).reverse, ({ s with status := s'.status }, m))

/-- Appends what the parts of a word stand for. `command` runs the text of a script. -/
def expandParts (command : Bytes → Step Unit) : Word → Fields → Step Fields
  | [], f => return f
  | part :: parts, f => do
    let s ← state
    let value (bs : Bytes) (quoted : Bool) : Fields :=
      if quoted then f.extend bs else f.split (separators s) bs
    let f ← match part with
      | .text bs _ => pure (f.extend bs)
      | .value name orElse quoted =>
        if name = ofText "@" || (name = ofText "*" && !quoted) then
          if quoted then pure (f.several s.parameters)
          else pure ((s.parameters.map fun p => (p, ())).foldl (fun f (p, _) =>
            (f.split (separators s) p).close) f)
        else
          let found := (valueOf s name).getD []
          pure (value (if found.isEmpty then orElse else found) quoted)
      | .output script quoted => do
        let bs ← collected (command script)
        pure (value bs quoted)
      | .arithmetic text quoted =>
        let n := match arithmetic s (text.length + 8) 2 text with
          | some (n, _) => n
          | none => 0
        pure (value (signed n) quoted)
    expandParts command parts f

/-- A tilde at the start of a word is the home directory. -/
def withHome (s : ShellState) (w : Word) : Word :=
  match w with
  | [.text [126] false] => [.text ((s.vars.get? (ofText "HOME")).getD [126]) true]
  | .text [126] false :: .text [47] false :: rest =>
    .text ((s.vars.get? (ofText "HOME")).getD [126]) true :: .text [47] true :: rest
  | w => w

/-- The words that a word stands for. -/
def expand (command : Bytes → Step Unit) (w : Word) : Step (List Bytes) := do
  let f ← expandParts command (withHome (← state) w) {}
  return f.close.complete

/-- The one word that a word stands for where it is not split. -/
def expandOne (command : Bytes → Step Unit) (w : Word) : Step Bytes := do
  let quoted := w.map fun
    | .text bs _ => Part.text bs true
    | .value name orElse _ => .value (if name = ofText "@" then ofText "*" else name) orElse true
    | .output script _ => .output script true
    | .arithmetic text _ => .arithmetic text true
  let f ← expandParts command quoted {}
  return (f.current.getD [])

/-! ## Redirections -/

/-- Opens what a redirection names; nothing if that is refused. -/
def openFor (r : LineShell.Toolbox.Redirection) (word : Bytes) : Step (Option Nat) := fun (s, m) =>
  let opened (result : Except OsError (Ino × Tree)) (change : Ino → Tree → Tree) (atEnd : Bool) :
      Option Nat × ShellState × Machine :=
    match result with
    | .error _ => (none, s, m)
    | .ok (i, t) =>
      let (c, m) := Machine.openChannel (.file i 0 atEnd) { m with files := change i t }
      (some c, s, m)
  match r.opening with
  | .truncate => opened (m.files.openCreating .write Tree.createMode (path s word)) (fun i t => t.truncate i) false
  | .append => opened (m.files.openCreating .write Tree.createMode (path s word)) (fun _ t => t) true
  | .read =>
    opened ((m.files.openExisting .read (path s word)).map fun i => (i, m.files)) (fun _ t => t) false
  | .duplicate =>
    if word = [48] then (some s.streams.input, s, m)
    else if word = [49] then (some s.streams.output, s, m)
    else if word = [50] then (some s.streams.errors, s, m)
    else (none, s, m)

def setStream (s : Streams) (n c : Nat) : Streams :=
  match n with
  | 0 => { s with input := c }
  | 1 => { s with output := c }
  | 2 => { s with errors := c }
  | _ => s

/-- Makes redirections in order; tells whether all could be made. -/
def redirectAll (command : Bytes → Step Unit) : List LineShell.Toolbox.Redirection → Step Bool
  | [] => return true
  | r :: more => do
    let word ← expandOne command r.word
    match ← openFor r word with
    | none => return false
    | some c =>
      modifyState fun s => { s with streams := setStream s.streams r.number c }
      redirectAll command more

/-! ## Commands of `sh` itself -/

/-- The value of a test of `test` or `[`. -/
def test (s : ShellState) (m : Machine) : (fuel : Nat) → List Bytes → Bool
  | 0, _ => false
  | fuel + 1, words =>
    let compare (a b : Bytes) (f : Int → Int → Bool) : Bool := f (integer a).1 (integer b).1
    match words with
    | [] => false
    | [w] => !w.isEmpty
    | [op, w] =>
      if op = ofText "!" then !test s m fuel [w]
      else if op = ofText "-n" then !w.isEmpty
      else if op = ofText "-z" then w.isEmpty
      else if op = ofText "-L" || op = ofText "-h" then
        match lookAt m.files (path s w) with
        | some (_, .link _) => true
        | _ => false
      else match m.files.stat (path s w) with
        | .error _ => false
        | .ok n =>
          if op = ofText "-e" then true
          else if op = ofText "-d" then n.isDirectory
          else if op = ofText "-f" then match n with
            | .file .. => true
            | _ => false
          else if op = ofText "-s" then match n with
            | .file _ data => !data.isEmpty
            | other => other.isDirectory
          else if op = ofText "-x" then n.mode.searchable
          else if op = ofText "-r" then n.mode.readable
          else if op = ofText "-w" then n.mode.writable
          else false
    | [a, op, b] =>
      if op = ofText "=" then a == b
      else if op = ofText "!=" then a != b
      else if op = ofText "-eq" then compare a b fun x y => x == y
      else if op = ofText "-ne" then compare a b fun x y => x != y
      else if op = ofText "-lt" then compare a b fun x y => x < y
      else if op = ofText "-le" then compare a b fun x y => x ≤ y
      else if op = ofText "-gt" then compare a b fun x y => x > y
      else if op = ofText "-ge" then compare a b fun x y => x ≥ y
      else if a = ofText "!" then !test s m fuel [op, b]
      else if op = ofText "-a" then test s m fuel [a] && test s m fuel [b]
      else if op = ofText "-o" then test s m fuel [a] || test s m fuel [b]
      else false
    | a :: rest => if a = ofText "!" then !test s m fuel rest else false

/-- The number that a word writes, if it is one. -/
def count? (w : Bytes) : Option Nat :=
  match number 10 w.length 0 w with
  | (n, []) => if w.isEmpty then none else some n
  | _ => none

/-- Reads a line of the input without its newline; nothing at the end of the input. -/
def readLine : Step (Option Bytes) := do
  let s ← state
  match (← machine).pending s.streams.input with
  | .error _ => return none
  | .ok bs =>
    let line := bs.takeWhile (· != Bytes.newline)
    onMachine (Machine.advance s.streams.input (line.length + 1))
    return if bs.isEmpty then none else some line

/-- A command that `sh` carries out itself, or nothing if there is none of that name. -/
def ownCommand? (command : Bytes → Step Unit) (name : Bytes) (words : List Bytes) :
    Option (Step Unit) :=
  let is (s : String) : Bool := name == ofText s
  if is ":" || is "true" || is "wait" || is "trap" || is "umask" then some (setStatus 0)
  else if is "false" then some (setStatus 1)
  else if is "echo" then some do
    let (newline, words) := if words.head? = some (ofText "-n") then (false, words.tail) else (true, words)
    let (text, stopped) := expandEscapes { zeroFirst := true, extended := false } (joinWords words)
    write (if newline && !stopped then text ++ [Bytes.newline] else text)
    setStatus 0
  else if is "printf" then some do
    let s ← state
    setStatus (← onMachine (printf { extended := false, quotes := true } (processFor s (name :: words))))
  else if is "exit" || is "return" then some do
    if let some n := words.head?.bind count? then setStatus (n % 256)
    modifyState fun s => { s with flow := .leave }
  else if is "break" || is "continue" then some do
    let n := (words.head?.bind count?).getD 1
    modifyState fun s => { s with status := 0, flow := if is "break" then .break n else .continue n }
  else if is "cd" then some do
    let s ← state
    let target := (withoutMark words).head?.getD ((s.vars.get? (ofText "HOME")).getD [])
    let files := (← machine).files
    match files.find true (path s target) with
    | .ok trail =>
      match files.node? trail.here with
      | some (.directory mode _) =>
        if mode.searchable then modifyState fun s => { s with dir := trail.path, status := 0 }
        else setStatus 2
      | _ => setStatus 2
    | .error _ => setStatus 2
  else if is "pwd" then some do
    write ((← state).dir ++ [Bytes.newline])
    setStatus 0
  else if is "kill" then some do
    if words.contains (decimal processNumber) then
      modifyState fun s => { s with status := 137, flow := .leave }
    else setStatus 1
  else if is "test" then some do
    setStatus (statusOf (test (← state) (← machine) (words.length + 1) words))
  else if is "[" then some do
    if words.getLast? = some (ofText "]") then
      setStatus (statusOf (test (← state) (← machine) (words.length + 1) words.dropLast))
    else setStatus 2
  else if is "export" then some do
    for w in words do
      let name := w.takeWhile (· != 61)
      modifyState fun s =>
        { s with
          exported := name :: s.exported
          vars := if name.length < w.length then s.vars.set name (w.drop (name.length + 1)) else s.vars }
    setStatus 0
  else if is "unset" then some do
    for w in words do modifyState fun s => { s with vars := s.vars.unset w }
    setStatus 0
  else if is "shift" then some do
    let n := (words.head?.bind count?).getD 1
    modifyState fun s => { s with parameters := s.parameters.drop n, status := 0 }
  else if is "set" then some do
    match words with
    | [w] =>
      if w = ofText "-e" then modifyState fun s => { s with strict := true, status := 0 }
      else if w = ofText "+e" then modifyState fun s => { s with strict := false, status := 0 }
      else setStatus 0
    | w :: rest =>
      if w = ofText "--" then modifyState fun s => { s with parameters := rest, status := 0 }
      else setStatus 0
    | [] => setStatus 0
  else if is "read" then some do
    let names := words.filter fun w => w.head? != some 45
    match ← readLine with
    | none => setStatus 1
    | some line =>
      let fields := ((({} : Fields).split (separators (← state)) line).close).complete
      for (name, k) in names.zipIdx do
        let value := if k + 1 = names.length then joinWords (fields.drop k) else fields.getD k []
        modifyState fun s => { s with vars := s.vars.set name value }
      setStatus 0
  else if is "eval" then some (command (joinWords words))
  else none

/-- The file that a name stands for: a path, or the first regular file of that name in the
directories of the search path that its owner may run. -/
def programFor (s : ShellState) (t : Tree) (name : Bytes) : Option Bytes :=
  let mayRun (p : Bytes) : Bool := match t.stat (path s p) with
    | .ok (.file mode _) => mode.searchable
    | _ => false
  if name.contains Bytes.slash then some name
  else (((s.vars.get? searchVariable).getD []).splitOn colon).map (fun d => if d.isEmpty then name else below d name)
    |>.find? mayRun

/-- Starts a program and waits for its end. -/
def external (start : Starter) (argv : List Bytes) : Step Unit := fun (s, m) =>
  match programFor s m.files (argv.headD []) with
  | none => ((), { s with status := 127 }, m)
  | some program =>
    match start program (processFor s argv) m with
    | .ok (status, m) => ((), { s with status }, m)
    | .error .noEntry => ((), { s with status := 127 }, m)
    | .error _ => ((), { s with status := 126 }, m)

/-- Runs commands and gives the streams back to what they were. -/
def keepingStreams (x : Step Unit) : Step Unit := fun (s, m) =>
  let ((), s', m) := x (s, m)
  ((), { s' with streams := s.streams }, m)

/-- Runs commands on a copy of the state, of which only the status comes back. -/
def onCopy (x : Step Unit) : Step Unit := fun (s, m) =>
  let ((), s', m) := x (s, m)
  ((), { s with status := s'.status }, m)

/-- What becomes of a loop after a round. -/
def afterRound (s : ShellState) : ShellState × Bool :=
  match s.flow with
  | .goOn => (s, true)
  | .leave => (s, false)
  | .break n => ({ s with flow := if n ≤ 1 then .goOn else .break (n - 1) }, false)
  | .continue n => if n ≤ 1 then ({ s with flow := .goOn }, true)
    else ({ s with flow := .continue (n - 1) }, false)

mutual

/-- Runs a command of a script. -/
def eval (start : Starter) : (fuel : Nat) → Script → Step Unit
  | 0, _ => modifyState fun s => { s with flow := .leave }
  | fuel + 1, script => do
    let command := evalText start fuel
    match script with
    | .nothing => pure ()
    | .simple assignments words redirections =>
      let argv := (← words.mapM (expand command)).flatten
      let values ← assignments.mapM fun (name, w) => do return (name, ← expandOne command w)
      match argv with
      | [] =>
        keepingStreams do
          let ok ← redirectAll command redirections
          setStatus (statusOf ok)
        modifyState fun s => { s with vars := values.foldl (fun v e => v.set e.1 e.2) s.vars }
      | name :: rest =>
        keepingStreams do
          if ← redirectAll command redirections then
            if name = ofText "exec" then
              match rest with
              | [] => setStatus 0
              | _ =>
                external start rest
                modifyState fun s => { s with flow := .leave }
            else match ownCommand? command name rest with
              | some own =>
                modifyState fun s => { s with vars := values.foldl (fun v e => v.set e.1 e.2) s.vars }
                own
              | none =>
                let before ← state
                modifyState fun s =>
                  { s with
                    vars := values.foldl (fun v e => v.set e.1 e.2) s.vars
                    exported := values.map Prod.fst ++ s.exported }
                external start (name :: rest)
                modifyState fun s => { s with vars := before.vars, exported := before.exported }
          else setStatus 2
        let s ← state
        if s.strict && s.status ≠ 0 then modifyState fun s => { s with flow := .leave }
    | .both first second =>
      eval start fuel first
      if (← state).flow = .goOn then eval start fuel second
    | .ifDone first second =>
      guarded start fuel first
      if (← state).flow = .goOn && (← state).status = 0 then eval start fuel second
    | .ifFailed first second =>
      guarded start fuel first
      if (← state).flow = .goOn && (← state).status ≠ 0 then eval start fuel second
    | .negated body =>
      guarded start fuel body
      if (← state).flow = .goOn then setStatus (if (← state).status = 0 then 1 else 0)
    | .piped first second =>
      let c ← onMachine (Machine.openChannel (.pipe []))
      onCopy do
        modifyState fun s => { s with streams := { s.streams with output := c } }
        eval start fuel first
      onCopy do
        modifyState fun s => { s with streams := { s.streams with input := c } }
        eval start fuel second
    | .choice test yes no =>
      guarded start fuel test
      if (← state).flow = .goOn then
        if (← state).status = 0 then eval start fuel yes
        else
          setStatus 0
          eval start fuel no
    | .loop untilDone test body => evalLoop start fuel untilDone test body 0
    | .each name words body =>
      let values ← match words with
        | some words => do pure (← words.mapM (expand command)).flatten
        | none => do pure (← state).parameters
      setStatus 0
      evalEach start fuel name values body
    | .redirected body redirections =>
      keepingStreams do
        if ← redirectAll command redirections then eval start fuel body else setStatus 2
    | .apart body => onCopy (eval start fuel body)

/-- Runs a command whose failure does not end a strict script. -/
def guarded (start : Starter) : (fuel : Nat) → Script → Step Unit
  | 0, _ => modifyState fun s => { s with flow := .leave }
  | fuel + 1, script => do
    let strict := (← state).strict
    modifyState fun s => { s with strict := false }
    eval start fuel script
    modifyState fun s => { s with strict }

def evalLoop (start : Starter) : (fuel : Nat) → Bool → Script → Script → (status : Nat) → Step Unit
  | 0, _, _, _, _ => modifyState fun s => { s with flow := .leave }
  | fuel + 1, untilDone, test, body, status => do
    guarded start fuel test
    if (← state).flow = .goOn then
      if ((← state).status = 0) != untilDone then
        eval start fuel body
        let (s, again) := afterRound (← state)
        modifyState fun _ => s
        if again then evalLoop start fuel untilDone test body s.status
      else setStatus status

def evalEach (start : Starter) : (fuel : Nat) → Bytes → List Bytes → Script → Step Unit
  | 0, _, _, _ => modifyState fun s => { s with flow := .leave }
  | _ + 1, _, [], _ => pure ()
  | fuel + 1, name, value :: values, body => do
    modifyState fun s => { s with vars := s.vars.set name value }
    eval start fuel body
    let (s, again) := afterRound (← state)
    modifyState fun _ => s
    if again then evalEach start fuel name values body

/-- Runs the text of a script line by line. -/
def evalText (start : Starter) : (fuel : Nat) → Bytes → Step Unit
  | 0, _ => modifyState fun s => { s with flow := .leave }
  | fuel + 1, text => evalTokens start fuel (Token.lex text)

def evalTokens (start : Starter) : (fuel : Nat) → List Token → Step Unit
  | 0, _ => modifyState fun s => { s with flow := .leave }
  | fuel + 1, tokens => do
    match Script.skipNewlines tokens with
    | [] => pure ()
    | tokens =>
      match Script.parseLine tokens with
      | none => modifyState fun s => { s with status := 2, flow := .leave }
      | some (script, rest) =>
        eval start fuel script
        if (← state).flow = .goOn then evalTokens start fuel rest

end

/-- Runs `sh`: the text behind `-c`, or the script that the first operand names, or the input. -/
def sh (start : Starter) (fuel : Nat) (p : Process) : Run Nat := fun m =>
  let run (text zero : Bytes) (parameters : List Bytes) (strict : Bool) (m : Machine) : Nat × Machine :=
    let s : ShellState :=
      { vars := p.vars.set (ofText "IFS") [32, 9, 10], exported := p.vars.map Prod.fst, zero, parameters
        dir := p.dir, streams := p.streams, strict }
    let ((), s, m) := evalText start fuel text (s, m)
    (s.status, m)
  let name := p.argv.headD []
  let options := p.words.takeWhile fun w => w.head? == some 45 && w.length > 1 && w != ofText "--"
  let operands := withoutMark (p.words.drop options.length)
  let strict := options.any (·.contains (letter 'e'))
  if options.any (·.contains (letter 'c')) then
    match operands with
    | [] => (2, m)
    | text :: [] => run text name [] strict m
    | text :: zero :: parameters => run text zero parameters strict m
  else match operands with
    | [] =>
      match Machine.drain p.streams.input m with
      | (.ok text, m) => run text name [] strict m
      | (.error _, m) => (2, m)
    | file :: parameters =>
      match m.files.openExisting .read (p.path file) with
      | .error _ => (2, m)
      | .ok i =>
        match m.files.read i with
        | .ok text => run text file parameters strict m
        | .error _ => (2, m)

end Evaluation

end LineShell.Toolbox
