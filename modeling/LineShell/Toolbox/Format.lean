import LineShell.Bytes

/-!
# Escapes and formats

* `expandEscapes`: a text with backslash escapes as `echo` and `printf` read it.
* `format`: a format with its arguments as `printf` prints them.
-/
namespace LineShell.Toolbox

/-- Which escapes are read besides the common ones. -/
structure EscapeStyle where
  /-- A zero in front of an octal number does not count as one of its three digits. -/
  zeroFirst : Bool := false
  /-- `\x` with up to two hexadecimal digits, and `\e`. -/
  extended : Bool := true
  /-- `\"` stands for a quote. -/
  quotes : Bool := false
  deriving DecidableEq, Repr

def backslash : UInt8 := 92

def digit? (b : UInt8) : Option Nat :=
  if 48 ≤ b ∧ b ≤ 57 then some (b.toNat - 48)
  else if 97 ≤ b ∧ b ≤ 102 then some (b.toNat - 87)
  else if 65 ≤ b ∧ b ≤ 70 then some (b.toNat - 55)
  else none

/-- The number that up to `count` digits write, and what follows them. -/
def number (base : Nat) : (count : Nat) → (value : Nat) → Bytes → Nat × Bytes
  | 0, value, bs => (value, bs)
  | _ + 1, value, [] => (value, [])
  | count + 1, value, b :: bs =>
    match digit? b with
    | some d => if d < base then number base count (value * base + d) bs else (value, b :: bs)
    | none => (value, b :: bs)

/-- What one escape stands for. -/
inductive Escape
  | bytes (bs : Bytes)
  /-- Nothing more is written. -/
  | stop
  deriving DecidableEq, Repr

/-- Letters that stand for a control character. -/
def controls : List (UInt8 × UInt8) :=
  [(97, 7), (98, 8), (102, 12), (110, 10), (114, 13), (116, 9), (118, 11)]

/-- Reads what follows a backslash. Anything unknown stands for itself, with its backslash. -/
def readEscape (style : EscapeStyle) : Bytes → Escape × Bytes
  | [] => (.bytes [backslash], [])
  | b :: bs =>
    if b = backslash then (.bytes [backslash], bs)
    else if b = 34 && style.quotes then (.bytes [34], bs)
    else if b = 99 then (.stop, bs)
    else if b = 101 && style.extended then (.bytes [27], bs)
    else match controls.lookup b with
      | some c => (.bytes [c], bs)
      | none =>
        if b = 48 && style.zeroFirst then
          let (n, rest) := number 8 3 0 bs
          (.bytes [UInt8.ofNat n], rest)
        else if 48 ≤ b ∧ b ≤ 55 then
          let (n, rest) := number 8 3 0 (b :: bs)
          (.bytes [UInt8.ofNat n], rest)
        else if b = 120 && style.extended && (bs.head?.bind digit?).isSome then
          let (n, rest) := number 16 2 0 bs
          (.bytes [UInt8.ofNat n], rest)
        else (.bytes [backslash, b], bs)

/-- The text with its escapes read, and whether it ends in a stop. Each step takes a byte, so the
length of the text is fuel enough. -/
def expandFrom (style : EscapeStyle) : Nat → Bytes → Bytes × Bool
  | 0, _ => ([], false)
  | _ + 1, [] => ([], false)
  | fuel + 1, b :: bs =>
    if b = backslash then
      match readEscape style bs with
      | (.stop, _) => ([], true)
      | (.bytes out, rest) =>
        let (more, stopped) := expandFrom style fuel rest
        (out ++ more, stopped)
    else
      let (more, stopped) := expandFrom style fuel bs
      (b :: more, stopped)

def expandEscapes (style : EscapeStyle) (bs : Bytes) : Bytes × Bool :=
  expandFrom style (bs.length + 1) bs

/-! ## Formats -/

/-- How a value is laid out. -/
structure Layout where
  left : Bool := false
  plus : Bool := false
  blank : Bool := false
  alternate : Bool := false
  zero : Bool := false
  width : Nat := 0
  precision : Option Nat := none
  deriving DecidableEq, Repr

def Layout.pad (l : Layout) (bs : Bytes) : Bytes :=
  let gap := List.replicate (l.width - bs.length) (32 : UInt8)
  if l.left then bs ++ gap else gap ++ bs

/-- A number with its sign, filled with zeros as the layout asks. -/
def Layout.number (l : Layout) (sign digits : Bytes) : Bytes :=
  let digits := List.replicate ((l.precision.getD 1) - digits.length) (48 : UInt8) ++ digits
  let fill := if l.zero && !l.left && l.precision.isNone then
      List.replicate (l.width - sign.length - digits.length) (48 : UInt8) else []
  l.pad (sign ++ fill ++ digits)

/-- The integer that an argument writes: decimal, octal behind `0`, hexadecimal behind `0x`, or the
code of the character behind a quote. The flag tells whether all of the argument was read. -/
def integer (bs : Bytes) : Int × Bool :=
  let unsigned (bs : Bytes) : Nat × Bool :=
    match bs with
    | 48 :: 120 :: rest | 48 :: 88 :: rest =>
      let (n, rest) := number 16 rest.length 0 rest
      (n, rest.isEmpty)
    | 48 :: rest =>
      let (n, rest) := number 8 rest.length 0 rest
      (n, rest.isEmpty)
    | _ =>
      let (n, rest) := number 10 bs.length 0 bs
      (n, rest.isEmpty && !bs.isEmpty)
  match bs with
  | [] => (0, true)
  | 39 :: b :: _ | 34 :: b :: _ => (b.toNat, true)
  | 45 :: rest => let (n, ok) := unsigned rest; (-(n : Int), ok)
  | 43 :: rest => let (n, ok) := unsigned rest; (n, ok)
  | _ => let (n, ok) := unsigned bs; (n, ok)

def digits (base : Nat) (n : Nat) : Bytes :=
  (Nat.toDigits base n).map fun c => UInt8.ofNat c.toNat

/-- What a conversion printed. -/
structure Printed where
  bytes : Bytes
  stopped : Bool := false
  ok : Bool := true

/-- One value in the form that the letter of a conversion asks for; nothing for an unknown
letter. -/
def convert (l : Layout) (letter : UInt8) (argument : Bytes) : Option Printed :=
  let unsigned (base : Nat) (mark : Bytes) (upper : Bool) : Printed :=
    let (n, ok) := integer argument
    let value := if n < 0 then (0x10000000000000000 - n.natAbs) else n.natAbs
    let ds := digits base value
    let ds := if upper then ds.map fun b => if 97 ≤ b then b - 32 else b else ds
    ⟨l.number (if l.alternate && value ≠ 0 then mark else []) ds, false, ok⟩
  match letter with
  | 115 => -- s
    some ⟨l.pad (argument.take (l.precision.getD argument.length)), false, true⟩
  | 98 => -- b
    let (bs, stopped) := expandEscapes { zeroFirst := true } argument
    some ⟨l.pad (bs.take (l.precision.getD bs.length)), stopped, true⟩
  | 99 => -- c
    some ⟨l.pad (argument.take 1), false, true⟩
  | 100 | 105 => -- d, i
    let (n, ok) := integer argument
    let sign : Bytes := if n < 0 then [45] else if l.plus then [43] else if l.blank then [32] else []
    some ⟨l.number sign (digits 10 n.natAbs), false, ok⟩
  | 117 => some (unsigned 10 [] false) -- u
  | 111 => some (unsigned 8 [48] false) -- o
  | 120 => some (unsigned 16 [48, 120] false) -- x
  | 88 => some (unsigned 16 [48, 88] true) -- X
  | _ => none

/-- The flags of a conversion and what follows them. -/
def readFlags : Bytes → Layout → Layout × Bytes
  | 45 :: bs, l => readFlags bs { l with left := true }
  | 43 :: bs, l => readFlags bs { l with plus := true }
  | 32 :: bs, l => readFlags bs { l with blank := true }
  | 35 :: bs, l => readFlags bs { l with alternate := true }
  | 48 :: bs, l => readFlags bs { l with zero := true }
  | bs, l => (l, bs)

/-- Prints the format once. The result holds what was printed, the arguments left over, and whether
any was asked for. -/
def formatOnce (style : EscapeStyle) : Nat → Bytes → List Bytes → Printed × List Bytes × Bool
  | 0, _, arguments => (⟨[], false, true⟩, arguments, false)
  | _ + 1, [], arguments => (⟨[], false, true⟩, arguments, false)
  | fuel + 1, b :: bs, arguments =>
    let behind (out : Bytes) (ok used : Bool) (rest : Bytes) (arguments : List Bytes) :=
      let (printed, arguments, used') := formatOnce style fuel rest arguments
      ((⟨out ++ printed.bytes, printed.stopped, ok && printed.ok⟩ : Printed), arguments, used || used')
    if b = backslash then
      match readEscape style bs with
      | (.stop, _) => (⟨[], true, true⟩, arguments, false)
      | (.bytes out, rest) => behind out true false rest arguments
    else if b ≠ 37 then behind [b] true false bs arguments
    else match bs with
      | 37 :: rest => behind [37] true false rest arguments
      | _ =>
        let (layout, rest) := readFlags bs {}
        let (width, rest) := number 10 rest.length 0 rest
        let (precision, rest) := match rest with
          | 46 :: rest =>
            let (n, rest) := number 10 rest.length 0 rest
            (some n, rest)
          | _ => (none, rest)
        match rest with
        | [] => (⟨[], true, false⟩, arguments, false)
        | letter :: rest =>
          match convert { layout with width, precision } letter (arguments.headD []) with
          | none => (⟨[], true, false⟩, arguments, false)
          | some printed =>
            if printed.stopped then (printed, arguments.tail, true)
            else behind printed.bytes printed.ok true rest arguments.tail

/-- Prints the format as often as there are arguments for it, and at least once. -/
def formatAll (style : EscapeStyle) (fmt : Bytes) : Nat → List Bytes → Printed
  | 0, _ => ⟨[], false, true⟩
  | fuel + 1, arguments =>
    let (printed, rest, used) := formatOnce style (fmt.length + 1) fmt arguments
    if printed.stopped || !used || rest.isEmpty then printed
    else
      let more := formatAll style fmt fuel rest
      ⟨printed.bytes ++ more.bytes, more.stopped, printed.ok && more.ok⟩

/-- What a format prints with its arguments, and whether all of them could be read. -/
def format (style : EscapeStyle) (fmt : Bytes) (arguments : List Bytes) : Bytes × Bool :=
  let printed := formatAll style fmt (arguments.length + 1) arguments
  (printed.bytes, printed.ok)

end LineShell.Toolbox
