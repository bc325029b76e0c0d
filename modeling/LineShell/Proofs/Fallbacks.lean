import LineShell.Proofs.Refusals
import LineShell.Shell.Execute

/-!
# Branches that no command takes

The parser and the shell have an answer to cases that do not occur: the operator that was found
does not stand in the text, a side of it is not blank but has no words, a command without words is
to be carried out. A branch is dead if any other answer in its place would do as well.

* `Command.argv`: the words that a command hands to the shell.
* `Fallbacks`: an answer for each of these branches; `Fallbacks.own`: the ones that there are.
* `Fallbacks.parse`, `Fallbacks.runCommand`: the parser and the shell with other answers. With
  their own answers they are the parser and the shell (`Fallbacks.own_readWith`,
  `Fallbacks.own_perform`).

Results:
* `readWith_eq_redirect`: the reading of a redirection gives a redirection or a refusal.
* `argv_of_parse`: a command that is read has words, or there is nothing to carry out.
* `Fallbacks.readWith_eq`, `Fallbacks.parse_eq`, `Fallbacks.runCommand_eq`: no text and no command
  takes the branches.
* `fallbacks_dead`: all of this together.
-/
namespace LineShell

/-! ## What is read -/

namespace Command

/-- The words of a command, its own name first. The target of a redirection is none of them. -/
def argv : Command → List Bytes
  | empty => []
  | simple argv => argv
  | redirect argv _ _ => argv

variable {raw : Bytes} {op : Operator} {command : Command}

/-- The operator that decides stands in the text. -/
theorem isSome_cut_of_find? (h : Operator.find? raw = some op) :
    (Bytes.cut op.written raw).isSome = true := by
  rw [Operator.find?] at h
  split at h
  · rename_i hc
    cases h
    exact hc
  · split at h
    · rename_i hm
      cases h
      obtain ⟨left, right, rfl⟩ := List.append_of_mem (List.contains_iff_mem.1 hm)
      have hc := Bytes.isSome_cut Operator.overwrite.written left right
      simpa [Operator.written] using hc
    · cases h

/-- With an operator nothing is read but a redirection: where a side is more than white space,
there is a word. -/
theorem readWith_eq_redirect (h : readWith raw op = .ok command) :
    ∃ argv target, command = .redirect argv target op := by
  obtain ⟨⟨left, right, rfl, hl, hr⟩, rfl | hredirect⟩ := sides_of_readWith h
  · rw [readWith, if_neg (count_le_one_iff.2 ⟨hl, hr⟩), cut_written hl hr] at h
    simp only at h
    split at h
    · cases h
    rename_i hblank
    obtain ⟨name, arguments, hleft⟩ := exists_name hblank
    rw [hleft] at h
    split at h
    · rename_i hnil
      cases hnil
    · split at h <;> cases h
    · cases h
  · exact hredirect

/-- A command that is read has words, and none of them is empty. -/
theorem argv_of_parse (h : parse raw = .ok command) (hne : command ≠ .empty) :
    command.argv ≠ [] ∧ ∀ word ∈ command.argv, word ≠ [] := by
  cases command with
  | empty => exact absurd rfl hne
  | simple argv =>
    obtain ⟨-, rfl, hargv⟩ := parse_simple_iff.1 h
    exact ⟨hargv, fun word hw => (wordsOf_mem hw).1⟩
  | redirect argv target op =>
    obtain ⟨left, right, -, -, -, rfl, hargv, -⟩ := parse_redirect_iff.1 h
    exact ⟨hargv, fun word hw => (wordsOf_mem hw).1⟩

end Command

/-! ## Redirections, whatever runs the program -/

namespace Shell

section AnyProgram

variable (into : Bytes → Ino → List Ino → Action Shell Failure Unit)

/-- `putInFront` with the step left open in which the program runs. -/
def putInFrontBy (target scratch : Bytes) : Action Shell Failure Unit := do
  if samePlace (← get).system.files target scratch then throw (.scratchConflict target)
  let old ← onFile target fun t => t.openExisting .read target
  let aside ← openFile .both scratch
  changeFiles fun t => t.truncate aside
  Action.endingWith (removeScratch scratch) do
    inFile scratch (System.setAside old aside)
    let file ← onFile target fun t => t.openExisting .write target
    changeFiles fun t => t.truncate file
    let ran ← Action.attempt (into target file [file, aside])
    putBack target aside
    Action.ofExcept ran

/-- `redirect` with the step left open in which the program runs. -/
def redirectBy (config : Config) (target : Bytes) (op : Operator) :
    Action Shell Failure Unit := do
  let env := (← get).env
  let target := env.resolve target
  match (← get).system.files.leadsToFile target, op with
  | true, .overwrite => throw (.targetExists target)
  | true, .prepend => putInFrontBy into target (env.resolve config.scratch)
  | false, _ => do
    let file ← openFile .both target
    into target file [file]

end AnyProgram

/-- The words of a redirection matter in one step. -/
theorem redirect_eq_by (programs : Programs) (config : Config) (argv : List Bytes) :
    redirect programs config argv = redirectBy (runInto programs argv) config := rfl

end Shell

/-! ## Other answers -/

/-- Answers to cases that need not occur. -/
structure Fallbacks where
  /-- The operator does not stand in the text. -/
  noOperator : Except Failure Command
  /-- There is no word in front of the operator. -/
  noName : Except Failure Command
  /-- A command without words is to be carried out. -/
  noWords : Action Shell Failure Unit
  /-- A program is to be started without its name as its first argument. -/
  noArguments : Action Shell Failure Unit
  /-- The program to look for if there are no words. -/
  name : Bytes

namespace Fallbacks

open Command

section Definitions

variable (other : Fallbacks) (programs : Programs) (config : Config)

def readWith (raw : Bytes) (op : Operator) : Except Failure Command :=
  if raw.count arrow > 1 then .error (.redirection .manyOperators)
  else match Bytes.cut op.written raw with
    | none => other.noOperator
    | some (left, right) =>
      if isBlank left || isBlank right then .error (.redirection .missingSide)
      else match wordsOf right, wordsOf left with
        | [_], [] => other.noName
        | [target], name :: arguments =>
          if (Builtin.ofName? name).isSome then .error (.redirectedBuiltin name.decode)
          else .ok (.redirect (name :: arguments) target op)
        | _, _ => .error (.redirection .manyTargets)

def parse (raw : Bytes) : Except Failure Command :=
  match Operator.find? raw with
  | some op => other.readWith raw op
  | none => Command.parse raw

def start (program : Bytes) (argv : List Bytes) (output : Destination) (held : List Ino) :
    Action Shell Failure Unit :=
  match argv with
  | [] => other.noArguments
  | name :: arguments => Shell.start programs program (name :: arguments) output held

def runInto (argv : List Bytes) (target : Bytes) (file : Ino) (held : List Ino) :
    Action Shell Failure Unit := do
  Shell.inFile target System.ask
  let name := argv.headD other.name
  let ran ← Action.attempt do
    match (← get).env.findProgram (← get).system.files name with
    | none => throw (.commandNotFound name.decode)
    | some program => other.start programs program argv (.file file) held
  match ran with
  | .error (.commandNotFound _) | .error (.spawn ..) =>
    Shell.inFile target (System.write file 0 errorMessage)
  | .error e => throw e
  | .ok () => pure ()

def handle (name : Bytes) (arguments : List Bytes) :
    List Handler → Action Shell Failure Unit
  | [] => throw (.commandNotFound name.decode)
  | .builtin b :: handlers =>
    if b.name = name then b.run arguments else handle name arguments handlers
  | .program :: handlers => do
    match (← get).env.findProgram (← get).system.files name with
    | some program => other.start programs program (name :: arguments) .terminal []
    | none => handle name arguments handlers

def perform : Command → Action Shell Failure Unit
  | .empty => pure ()
  | .simple [] => other.noWords
  | .simple (name :: arguments) => other.handle programs name arguments config.handlers
  | .redirect argv target op => Shell.redirectBy (other.runInto programs argv) config target op

def runCommand (raw : Bytes) : Action Shell Failure Unit :=
  match other.parse raw with
  | .error e => Shell.noting raw (throw e)
  | .ok .empty => pure ()
  | .ok command => Shell.noting raw (other.perform programs config command)

end Definitions

/-- The answers that the parser and the shell have. -/
def own : Fallbacks := ⟨.error (.redirection .noOperator), .ok .empty, pure (), pure (), []⟩

variable (other : Fallbacks) (programs : Programs) (config : Config)

/-! ## No other answer makes a difference -/

/-- In front of an operator that stands in the text there is a name, if there is more than white
space. -/
theorem readWith_eq {raw : Bytes} {op : Operator}
    (h : (Bytes.cut op.written raw).isSome = true) :
    other.readWith raw op = Command.readWith raw op := by
  obtain ⟨⟨left, right⟩, hc⟩ := Option.isSome_iff_exists.1 h
  rw [readWith, Command.readWith, hc]
  simp only
  split
  · rfl
  split
  · rfl
  rename_i hblank
  obtain ⟨name, arguments, hleft⟩ := exists_name hblank
  rw [hleft]
  rcases wordsOf right with _ | ⟨target, _ | _⟩ <;> rfl

/-- The operator with which the parser reads a text stands in it. -/
theorem parse_eq (raw : Bytes) : other.parse raw = Command.parse raw := by
  rw [parse]
  cases hf : Operator.find? raw with
  | none => rfl
  | some op =>
    rw [Command.parse, hf]
    exact other.readWith_eq (isSome_cut_of_find? hf)

theorem runInto_eq {argv : List Bytes} (h : argv ≠ []) :
    other.runInto programs argv = Shell.runInto programs argv := by
  cases argv with
  | nil => exact absurd rfl h
  | cons name arguments => rfl

/-- A program is always started with the name of its command in front of the arguments. -/
theorem handle_eq (name : Bytes) (arguments : List Bytes) (handlers : List Handler) :
    other.handle programs name arguments handlers =
      Shell.handle programs name arguments handlers := by
  induction handlers with
  | nil => rfl
  | cons handler handlers ih =>
    cases handler <;> rw [handle, Shell.handle, ih]
    rfl

theorem perform_eq {command : Command} (h : command ≠ .empty → command.argv ≠ []) :
    other.perform programs config command = Shell.perform programs config command := by
  cases command with
  | empty => rfl
  | simple argv =>
    cases argv with
    | nil => exact absurd rfl (h nofun)
    | cons name arguments => exact other.handle_eq programs name arguments config.handlers
  | redirect argv target op =>
    have hargv : argv ≠ [] := h nofun
    rw [perform, other.runInto_eq programs hargv, ← Shell.redirect_eq_by]
    rfl

theorem runCommand_eq (raw : Bytes) :
    other.runCommand programs config raw = Shell.runCommand programs config raw := by
  rw [runCommand, Shell.runCommand, parse_eq]
  cases hp : Command.parse raw with
  | error e => rfl
  | ok command =>
    have hperform := other.perform_eq programs config fun hne => (argv_of_parse hp hne).1
    cases command with
    | empty => rfl
    | simple argv => exact congrArg (Shell.noting raw) hperform
    | redirect argv target op => exact congrArg (Shell.noting raw) hperform

/-! ## With their own answers the parser and the shell are unchanged -/

theorem own_readWith : own.readWith = Command.readWith := rfl

theorem own_start : own.start = Shell.start := by
  funext programs program argv output held
  cases argv <;> rfl

theorem own_runInto : own.runInto = Shell.runInto := by
  unfold runInto
  rw [own_start]
  rfl

theorem own_perform (command : Command) :
    own.perform programs config command = Shell.perform programs config command := by
  cases command with
  | empty => rfl
  | simple argv =>
    cases argv with
    | nil => rfl
    | cons name arguments => exact own.handle_eq programs name arguments config.handlers
  | redirect argv target op =>
    rw [perform, own_runInto]
    rfl

end Fallbacks

/-- **No text and no command takes a fallback.** The parser never misses the operator that it reads
a text with; the reading of a redirection gives no empty and no simple command; each command that
is handed to the shell has words, none of them empty. `Fallbacks` leaves open what the branches for
the excluded cases answer, and nothing else. With any answers there a redirection is read the same
with each operator that stands in the text, the parser reads the same, and the shell does the same
in every state. -/
theorem fallbacks_dead (programs : Programs) (config : Config) (raw : Bytes) :
    Command.parse raw ≠ .error (.redirection .noOperator) ∧
    (∀ op, Command.readWith raw op ≠ .ok .empty ∧
      ∀ argv, Command.readWith raw op ≠ .ok (.simple argv)) ∧
    (∀ command, Command.parse raw = .ok command → command ≠ .empty →
      command.argv ≠ [] ∧ ∀ word ∈ command.argv, word ≠ []) ∧
    (Fallbacks.own.readWith = Command.readWith ∧
      Fallbacks.own.perform programs config = Shell.perform programs config) ∧
    ∀ other : Fallbacks,
      (∀ op, (Bytes.cut op.written raw).isSome = true →
        other.readWith raw op = Command.readWith raw op) ∧
      other.parse raw = Command.parse raw ∧
      other.runCommand programs config raw = Shell.runCommand programs config raw := by
  refine ⟨fun h => ?_, fun op => ⟨fun h => ?_, fun argv h => ?_⟩,
    fun command => Command.argv_of_parse,
    ⟨Fallbacks.own_readWith, funext (Fallbacks.own_perform programs config)⟩,
    fun other => ⟨fun op => other.readWith_eq, other.parse_eq raw,
      other.runCommand_eq programs config raw⟩⟩
  · cases Command.parse_error_iff.1 h
  · obtain ⟨_, _, he⟩ := Command.readWith_eq_redirect h
    cases he
  · obtain ⟨_, _, he⟩ := Command.readWith_eq_redirect h
    cases he

end LineShell
