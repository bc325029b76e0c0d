import LineShell.Bytes

/-!
# Scripts

The form of the scripts that `sh` runs: words with quotes and variables, lists, pipes,
conditions, loops and redirections.

* `Word`: a word as it is written, whose parts are expanded when a command is run.
* `Script`: a command of a script.
* `Token.lex`: the tokens of a text.
* `Script.parseLine`: the commands up to the end of a line.
-/
namespace LineShell.Toolbox

/-- A part of a word. A quoted part is never split into words. -/
inductive Part
  | text (bs : Bytes) (quoted : Bool)
  /-- The value of a variable; `orElse` is taken instead if there is none. -/
  | value (name : Bytes) (orElse : Bytes) (quoted : Bool)
  /-- The output of commands. -/
  | output (script : Bytes) (quoted : Bool)
  /-- The value of an arithmetic expression. -/
  | arithmetic (expression : Bytes) (quoted : Bool)
  deriving DecidableEq, Repr

abbrev Word := List Part

/-- How a redirection opens a file. -/
inductive Opening
  | truncate
  | append
  | read
  /-- The channel of another number. -/
  | duplicate
  deriving DecidableEq, Repr

structure Redirection where
  number : Nat
  opening : Opening
  word : Word
  deriving DecidableEq, Repr

inductive Script
  | nothing
  | simple (assignments : List (Bytes × Word)) (words : List Word) (redirections : List Redirection)
  | both (first second : Script)
  | ifDone (first second : Script)
  | ifFailed (first second : Script)
  | negated (body : Script)
  | piped (first second : Script)
  | choice (test yes no : Script)
  | loop (untilDone : Bool) (test body : Script)
  | each (name : Bytes) (words : Option (List Word)) (body : Script)
  | redirected (body : Script) (redirections : List Redirection)
  | apart (body : Script)
  deriving Repr

inductive Token
  | word (w : Word)
  | operator (text : Bytes)
  | redirection (number : Nat) (opening : Opening)
  | newline
  deriving DecidableEq, Repr

/-! ## Words -/

namespace Token

def isLetter (b : UInt8) : Bool :=
  (65 ≤ b && b ≤ 90) || (97 ≤ b && b ≤ 122) || b == 95

def isDigit (b : UInt8) : Bool := 48 ≤ b && b ≤ 57

def isNameByte (b : UInt8) : Bool := isLetter b || isDigit b

/-- Bytes that end a word outside quotes: white space and `;`, `&`, `|`, `<`, `>`, `(`, `)`. -/
def endsWord (b : UInt8) : Bool :=
  [32, 9, 10, 59, 38, 124, 60, 62, 40, 41].contains b

/-- Parameters of one byte: digits and `@`, `*`, `#`, `?`, `$`, `-`, `!`. -/
def isSpecial (b : UInt8) : Bool := isDigit b || [64, 42, 35, 63, 36, 45, 33].contains b

/-- The bytes up to the parenthesis that closes, and what follows it. -/
def closing : (fuel : Nat) → (depth : Nat) → Bytes → Option (Bytes × Bytes)
  | 0, _, _ => none
  | _ + 1, _, [] => none
  | fuel + 1, depth, b :: bs =>
    if b = 41 then
      match depth with
      | 0 => some ([], bs)
      | depth + 1 => (closing fuel depth bs).map fun (inside, rest) => (b :: inside, rest)
    else (closing fuel (if b = 40 then depth + 1 else depth) bs).map fun (inside, rest) =>
      (b :: inside, rest)

/-- Reads what follows a dollar sign. -/
def dollar (quoted : Bool) (bs : Bytes) : Option (Part × Bytes) :=
  match bs with
  | 123 :: rest => -- an opening brace
    let inside := rest.takeWhile fun b => b != 125
    match rest.drop inside.length with
    | [] => none
    | _ :: rest =>
      let name := if (inside.head?.any isSpecial) then inside.take 1
        else inside.takeWhile isNameByte
      match inside.drop name.length with
      | [] => some (.value name [] quoted, rest)
      | 58 :: 45 :: other => some (.value name other quoted, rest)
      | 45 :: other => some (.value name other quoted, rest)
      | _ => none
  | 40 :: 40 :: rest =>
    match closing (rest.length + 1) 0 rest with
    | some (inside, 41 :: rest) => some (.arithmetic inside quoted, rest)
    | _ => none
  | 40 :: rest =>
    (closing (rest.length + 1) 0 rest).map fun (inside, rest) => (.output inside quoted, rest)
  | b :: rest =>
    if isLetter b then
      let name := (b :: rest).takeWhile isNameByte
      some (.value name [] quoted, (b :: rest).drop name.length)
    else if isSpecial b then some (.value [b] [] quoted, rest)
    else some (.text [36] quoted, b :: rest)
  | [] => some (.text [36] quoted, [])

/-- Reads the parts of a word between double quotes and what follows the closing quote. -/
def inQuotes : (fuel : Nat) → Bytes → Option (Word × Bytes)
  | 0, _ => none
  | _ + 1, [] => none
  | fuel + 1, b :: bs =>
    if b = 34 then some ([], bs)
    else if b = 36 then do
      let (part, rest) ← dollar true bs
      let (parts, rest) ← inQuotes fuel rest
      return (part :: parts, rest)
    else if b = 92 then
      match bs with
      | [] => none
      | 10 :: rest => inQuotes fuel rest
      | c :: rest => do
        let (parts, rest) ← inQuotes fuel rest
        let here : Bytes := if [36, 96, 34, 92].contains c then [c] else [b, c]
        return (.text here true :: parts, rest)
    else do
      let (parts, rest) ← inQuotes fuel bs
      return (.text [b] true :: parts, rest)

/-- Reads a word up to the byte that ends it. -/
def readWord : (fuel : Nat) → Bytes → Option (Word × Bytes)
  | 0, _ => none
  | _ + 1, [] => some ([], [])
  | fuel + 1, b :: bs =>
    if endsWord b then some ([], b :: bs)
    else if b = 39 then
      let inside := bs.takeWhile fun c => c != 39
      match bs.drop inside.length with
      | [] => none
      | _ :: rest => do
        let (parts, rest) ← readWord fuel rest
        return (.text inside true :: parts, rest)
    else if b = 34 then do
      let (inside, rest) ← inQuotes (bs.length + 1) bs
      let (parts, rest) ← readWord fuel rest
      return ((if inside.isEmpty then [.text [] true] else inside) ++ parts, rest)
    else if b = 92 then
      match bs with
      | [] => some ([.text [92] true], [])
      | 10 :: rest => readWord fuel rest
      | c :: rest => do
        let (parts, rest) ← readWord fuel rest
        return (.text [c] true :: parts, rest)
    else if b = 36 then do
      let (part, rest) ← dollar false bs
      let (parts, rest) ← readWord fuel rest
      return (part :: parts, rest)
    else do
      let (parts, rest) ← readWord fuel bs
      return (.text [b] false :: parts, rest)

/-- The operators, a longer one before its beginning. -/
def operators : List Bytes :=
  ["&&", "||", ";;", ";", "&", "|", "(", ")"].map Bytes.ofString

/-- The signs of redirections with the number of the channel that each means. -/
def signs : List (Bytes × Nat × Opening) :=
  [(Bytes.ofString ">>", 1, .append), (Bytes.ofString ">&", 1, .duplicate),
    (Bytes.ofString ">|", 1, .truncate), (Bytes.ofString ">", 1, .truncate),
    (Bytes.ofString "<&", 0, .duplicate), (Bytes.ofString "<", 0, .read)]

/-- A redirection at the start of a text, perhaps behind the number of a channel. -/
def redirection? (bs : Bytes) : Option (Token × Bytes) :=
  let digits := bs.takeWhile isDigit
  let behind := bs.drop digits.length
  (signs.find? fun s => s.1.isPrefixOf behind).bind fun (sign, number, opening) =>
    if digits.length > 1 then none
    else
      let number := match digits with
        | [d] => d.toNat - 48
        | _ => number
      some (.redirection number opening, behind.drop sign.length)

/-- The tokens of a text, up to the first place that cannot be read. -/
def lexFrom : (fuel : Nat) → Bytes → List Token
  | 0, _ => []
  | _ + 1, [] => []
  | fuel + 1, b :: bs =>
    if b = 32 || b = 9 then lexFrom fuel bs
    else if b = 10 then .newline :: lexFrom fuel bs
    else if b = 35 then lexFrom fuel (bs.dropWhile fun c => c != 10)
    else match redirection? (b :: bs) with
      | some (token, rest) => token :: lexFrom fuel rest
      | none =>
        match operators.find? fun o => o.isPrefixOf (b :: bs) with
        | some o => .operator o :: lexFrom fuel ((b :: bs).drop o.length)
        | none =>
          match readWord (bs.length + 2) (b :: bs) with
          | some (w, rest) => .word w :: lexFrom fuel rest
          | none => [.operator [0]]

/-- The tokens of a text. Where the text cannot be read stands an operator that fits nowhere. -/
def lex (text : Bytes) : List Token := lexFrom (text.length + 1) text

/-- The text of a word that has no quotes and no variables. -/
def plainText (w : Word) : Option Bytes :=
  (w.mapM fun
    | Part.text bs false => some bs
    | _ => none).map List.flatten

/-- The token is this word, unquoted. -/
def isKeyword (t : Token) (s : String) : Bool :=
  match t with
  | word w => plainText w = some (Bytes.ofString s)
  | _ => false

def isOperator (t : Token) (s : String) : Bool :=
  match t with
  | operator text => text = Bytes.ofString s
  | _ => false

end Token

/-! ## Commands -/

namespace Script

open Token

/-- The name that a word assigns to and the value, if it begins with a name and `=`. -/
def assignment? (w : Word) : Option (Bytes × Word) :=
  let leading := w.takeWhile fun
    | .text bs false => bs.all isNameByte
    | _ => false
  match w.drop leading.length with
  | .text [61] false :: value =>
    let name := leading.flatMap fun
      | .text bs _ => bs
      | _ => []
    if name.head?.any isLetter then some (name, value) else none
  | _ => none

/-- Words that are no names of commands where a command begins. -/
def isReserved (t : Token) : Bool :=
  ["then", "else", "elif", "fi", "do", "done", "\x7d", "esac"].any t.isKeyword

/-- Redirections at the start of tokens. -/
def redirections : List Token → Option (List Redirection × List Token)
  | .redirection number opening :: .word w :: rest =>
    (redirections rest).map fun (more, rest) => (⟨number, opening, w⟩ :: more, rest)
  | .redirection .. :: _ => none
  | rest => some ([], rest)

/-- Words, assignments in front of them and redirections anywhere. -/
def simpleParts : List Token → Bool →
    Option (List (Bytes × Word) × List Word × List Redirection × List Token)
  | .redirection number opening :: .word w :: rest, leading =>
    (simpleParts rest leading).map fun (names, words, more, rest) =>
      (names, words, ⟨number, opening, w⟩ :: more, rest)
  | .redirection .. :: _, _ => none
  | .word w :: rest, leading =>
    match if leading then assignment? w else none with
    | some assigned => (simpleParts rest true).map fun (names, words, more, rest) =>
      (assigned :: names, words, more, rest)
    | none => (simpleParts rest false).map fun (names, words, more, rest) =>
      (names, w :: words, more, rest)
  | rest, _ => some ([], [], [], rest)

def skipNewlines (ts : List Token) : List Token := ts.dropWhile fun t => t == .newline

/-- The words up to the end of the clause `in` of a loop. -/
def wordsUpTo : List Token → List Word × List Token
  | .word w :: rest =>
    let (words, rest) := wordsUpTo rest
    (w :: words, rest)
  | rest => ([], rest)

def expect (keyword : String) : List Token → Option (List Token)
  | t :: rest => if t.isKeyword keyword then some rest else none
  | [] => none

mutual

/-- A list of commands up to a reserved word, a closing parenthesis or the end. -/
def parseList : (fuel : Nat) → List Token → Option (Script × List Token)
  | 0, _ => none
  | fuel + 1, ts =>
    match skipNewlines ts with
    | [] => some (.nothing, [])
    | t :: rest =>
      if isReserved t || t.isOperator ")" then some (.nothing, t :: rest)
      else do
        let (first, rest) ← parseChain fuel (t :: rest)
        match rest with
        | u :: rest' =>
          if u == .newline || u.isOperator ";" || u.isOperator "&" then
            let (more, rest) ← parseList fuel rest'
            return (.both first more, rest)
          else return (first, rest)
        | [] => return (first, [])

/-- Commands joined by `&&` and `||`. -/
def parseChain : (fuel : Nat) → List Token → Option (Script × List Token)
  | 0, _ => none
  | fuel + 1, ts => do
    let (first, rest) ← parsePipe fuel ts
    parseChainFrom fuel first rest

def parseChainFrom : (fuel : Nat) → Script → List Token → Option (Script × List Token)
  | 0, _, _ => none
  | fuel + 1, first, ts =>
    match ts with
    | t :: rest =>
      if t.isOperator "&&" then do
        let (second, rest) ← parsePipe fuel (skipNewlines rest)
        parseChainFrom fuel (.ifDone first second) rest
      else if t.isOperator "||" then do
        let (second, rest) ← parsePipe fuel (skipNewlines rest)
        parseChainFrom fuel (.ifFailed first second) rest
      else some (first, ts)
    | [] => some (first, [])

/-- Commands joined by `|`, perhaps behind `!`. -/
def parsePipe : (fuel : Nat) → List Token → Option (Script × List Token)
  | 0, _ => none
  | fuel + 1, ts =>
    match ts with
    | t :: rest =>
      if t.isKeyword "!" then (parsePipe fuel rest).map fun (body, rest) => (.negated body, rest)
      else do
        let (first, rest) ← parseOne fuel ts
        match rest with
        | u :: rest' =>
          if u.isOperator "|" then
            let (second, rest) ← parsePipe fuel (skipNewlines rest')
            return (.piped first second, rest)
          else return (first, rest)
        | [] => return (first, [])
    | [] => none

/-- The tests and branches behind `if` or `elif`. -/
def parseBranches : (fuel : Nat) → List Token → Option (Script × List Token)
  | 0, _ => none
  | fuel + 1, ts => do
    let (test, rest) ← parseList fuel ts
    let rest ← expect "then" rest
    let (yes, rest) ← parseList fuel rest
    match rest with
    | t :: rest =>
      if t.isKeyword "fi" then return (.choice test yes .nothing, rest)
      else if t.isKeyword "else" then
        let (no, rest) ← parseList fuel rest
        return (.choice test yes no, ← expect "fi" rest)
      else if t.isKeyword "elif" then
        let (no, rest) ← parseBranches fuel rest
        return (.choice test yes no, rest)
      else none
    | [] => none

/-- A body between `do` and `done`. -/
def parseBody : (fuel : Nat) → List Token → Option (Script × List Token)
  | 0, _ => none
  | fuel + 1, ts => do
    let rest ← expect "do" ts
    let (body, rest) ← parseList fuel rest
    return (body, ← expect "done" rest)

/-- One command: compound, or words. -/
def parseOne : (fuel : Nat) → List Token → Option (Script × List Token)
  | 0, _ => none
  | fuel + 1, ts =>
    let closed (body : Script) (rest : List Token) : Option (Script × List Token) := do
      let (more, rest) ← redirections rest
      return (if more.isEmpty then body else .redirected body more, rest)
    match ts with
    | t :: rest =>
      if t.isKeyword "if" then do
        let (body, rest) ← parseBranches fuel rest
        closed body rest
      else if t.isKeyword "while" || t.isKeyword "until" then do
        let (test, rest) ← parseList fuel rest
        let (body, rest) ← parseBody fuel rest
        closed (.loop (t.isKeyword "until") test body) rest
      else if t.isKeyword "for" then
        match rest with
        | .word w :: rest => do
          let name ← plainText w
          match skipNewlines rest with
          | u :: rest' =>
            if u.isKeyword "in" then
              let (words, rest) := wordsUpTo rest'
              match rest with
              | _ :: rest =>
                let (body, rest) ← parseBody fuel (skipNewlines rest)
                closed (.each name (some words) body) rest
              | [] => none
            else
              let rest := if u.isOperator ";" then skipNewlines rest' else u :: rest'
              let (body, rest) ← parseBody fuel rest
              closed (.each name none body) rest
          | [] => none
        | _ => none
      else if t.isKeyword "\x7b" then do
        let (body, rest) ← parseList fuel rest
        closed body (← expect "\x7d" rest)
      else if t.isOperator "(" then do
        let (body, rest) ← parseList fuel rest
        match rest with
        | u :: rest => if u.isOperator ")" then closed (.apart body) rest else none
        | [] => none
      else if isReserved t then none
      else do
        let (names, words, more, rest) ← simpleParts ts true
        if names.isEmpty && words.isEmpty && more.isEmpty then none
        else return (.simple names words more, rest)
    | [] => none

end

/-- The commands up to the end of a line and the tokens behind it; nothing if they cannot be
read. -/
def parseLine (ts : List Token) : Option (Script × List Token) := do
  let fuel := 4 * ts.length + 8
  let (first, rest) ← parseChain fuel ts
  match rest with
  | [] => return (first, [])
  | t :: rest =>
    if t == .newline || t.isOperator ";" || t.isOperator "&" then return (first, rest) else none

end Script

end LineShell.Toolbox
