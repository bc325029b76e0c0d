import LineShell.Proofs.LastCommand
import LineShell.Proofs.NewTargets
import LineShell.Proofs.WholePrepend

/-!
# The program of a redirection

A redirection looks for its program when the target is open already: files have been made and
emptied by then, perhaps behind links, and perhaps under names at which programs are looked for.
None of this makes or unmakes a program.

* `runnable`: what a file has to be to be run. Writing, emptying and making files have nothing to
  do with it (`isExecutable_openCreating`).
* `startOf_orderOf`: the program that a redirection finds.
* `run_eq`: what the same command does without redirection.
* `Told`: how a redirection ends whose program does not run (`redirect_told`).
* `redirect_finds_same_program`: both start the same program, in the same way, or neither starts
  one.
-/
namespace LineShell

open LineShell.Action (stateAfter outcomeOf)

namespace Tree

/-! ## Files that can be run -/

/-- The file is a regular one that someone may run. -/
def runnable (t : Tree) (i : Ino) : Bool :=
  match t.node? i with
  | some (.file mode _) => mode.anyExecute
  | _ => false

section Runnable

variable {t t' : Tree} {i : Ino}

theorem isExecutable_iff {path : Bytes} :
    t.isExecutable path = true ↔ ∃ trail, t.LeadsTo path trail ∧ t.runnable trail.here = true := by
  simp only [leadsTo_iff]
  unfold isExecutable stat runnable
  cases path.contains 0 with
  | true => simp
  | false =>
    cases t.find true path with
    | error e => simp
    | ok trail =>
      cases hn : t.node? trail.here with
      | none => simp [hn]
      | some n => cases n <;> simp [hn]

theorem runnable_congr (h : t'.node? i = t.node? i) : t'.runnable i = t.runnable i := by
  unfold runnable
  rw [h]

theorem runnable_put_file {mode : Mode} {data : Bytes} (h : t.node? i = some (.file mode data))
    (data' : Bytes) (j : Ino) : (t.put i (.file mode data')).runnable j = t.runnable j := by
  by_cases hj : j = i
  · subst hj
    simp [runnable, h, node?_put_self h]
  · exact runnable_congr (node?_put_ne hj)

theorem runnable_write (t : Tree) (i : Ino) (start : Nat) (bs : Bytes) (j : Ino) :
    (t.write i start bs).runnable j = t.runnable j := by
  unfold write
  split
  · rename_i h
    exact runnable_put_file h _ j
  · rfl

theorem runnable_truncate (t : Tree) (i j : Ino) : (t.truncate i).runnable j = t.runnable j := by
  unfold truncate
  split
  · rename_i h
    exact runnable_put_file h _ j
  · rfl

theorem isExecutable_congr (hs : ∀ j, t'.skeleton j = t.skeleton j)
    (hr : ∀ j, t'.runnable j = t.runnable j) (path : Bytes) :
    t'.isExecutable path = t.isExecutable path := by
  rw [Bool.eq_iff_iff, isExecutable_iff, isExecutable_iff]
  simp only [LeadsTo, find_congr hs, hr]

/-- A path that leads to a new file cannot be run, and before it led nowhere. -/
theorem Created.isExecutable {made : Mode} {dir : Trail} {name : Bytes}
    (hmade : made.anyExecute = false) (h : Created made t t' dir name i) (path : Bytes) :
    t'.isExecutable path = t.isExecutable path := by
  obtain ⟨mode, es, hd, -, -, -, hd'⟩ := h.free
  have hnode : ∀ j, j ≠ i → t'.runnable j = t.runnable j := by
    intro j hj
    by_cases hdir : j = dir.here
    · subst hdir
      simp [runnable, hd, hd']
    · exact runnable_congr (h.others j hdir hj)
  have hold : t.runnable i = false := by simp [runnable, h.new]
  have hnew : t'.runnable i = false := by
    rw [runnable, h.file]
    exact hmade
  rw [Bool.eq_iff_iff, isExecutable_iff, isExecutable_iff]
  constructor
  · rintro ⟨trail, hl, hr⟩
    have hne : trail.here ≠ i := by
      rintro rfl
      rw [hnew] at hr
      cases hr
    obtain ⟨hz, hf⟩ := leadsTo_iff.1 hl
    exact ⟨trail, leadsTo_iff.2 ⟨hz, find_of_named h.named hf hne⟩, (hnode _ hne).symm.trans hr⟩
  · rintro ⟨trail, hl, hr⟩
    have hne : trail.here ≠ i := by
      rintro rfl
      rw [hold] at hr
      cases hr
    obtain ⟨hz, hf⟩ := leadsTo_iff.1 hl
    exact ⟨trail, leadsTo_iff.2 ⟨hz, find_named h.named hf⟩, (hnode _ hne).trans hr⟩

/-- Opening a file, which may make it, makes no program. -/
theorem isExecutable_openCreating {access : Access} {made : Mode} {name path : Bytes}
    (hmade : made.anyExecute = false)
    (h : onName name (t.openCreating access made name) = .ok (i, t')) :
    t'.isExecutable path = t.isExecutable path := by
  rcases openCreating_cases (onName_ok_iff.1 h).2 with ⟨rfl, -⟩ | ⟨dir, entry, -, hcreated⟩
  · rfl
  · exact hcreated.isExecutable hmade path

end Runnable

end Tree

namespace Shell

open LineShell.Tree

/-- The files that the shell makes cannot be run, whatever it withholds. -/
theorem newMode_anyExecute (s : Shell) : s.newMode.anyExecute = false := by
  unfold newMode Mode.anyExecute
  simp only [Mode.testBit_without]
  rfl

/-! ## Where a redirection stands when its program is looked for -/

section Start

variable {s before : Shell} {target scratch : Bytes} {op : Operator} {file : Ino}
  {held : List Ino}

/-- What has been done to the tree makes no program and unmakes none. -/
theorem startOf_isExecutable (h : s.startOf target scratch op = some (file, held, before))
    (path : Bytes) : before.system.files.isExecutable path = s.system.files.isExecutable path := by
  rcases startOf_cases h with ⟨-, -, files, ho, rfl⟩ | ⟨-, -, aside, -, hp⟩
  · exact isExecutable_openCreating s.newMode_anyExecute ho
  · obtain ⟨old, made, ho, -, hfiles⟩ := prepare_ready hp
    rw [← isExecutable_openCreating s.newMode_anyExecute ho, hfiles]
    refine isExecutable_congr (skeleton_staged made file aside _) (fun j => ?_) path
    rw [runnable_truncate, append, runnable_write, runnable_truncate]

/-- Nothing but the system is different by then. -/
theorem startOf_system (h : s.startOf target scratch op = some (file, held, before)) :
    before = s.withSystem before.system := by
  rcases startOf_cases h with ⟨-, -, files, -, rfl⟩ | ⟨-, -, aside, -, hp⟩
  · rfl
  · exact prepare_system hp

/-- **The program that a redirection finds** is the one that the command names without it, and the
order to start it is the same. -/
theorem startOf_orderOf (h : s.startOf target scratch op = some (file, held, before))
    (argv : List Bytes) : before.orderOf argv = s.orderOf argv := by
  have hsame : before.system.files.isExecutable = s.system.files.isExecutable :=
    funext (startOf_isExecutable h)
  have henv : before.env = s.env := by
    rw [startOf_system h]
    rfl
  unfold orderOf Environment.findProgram findProgram
  rw [henv, hsame]

/-- The target has been opened, and a regular file is empty by then. -/
theorem startOf_opened (h : s.startOf target scratch op = some (file, held, before)) :
    before.system.files.NumberAt target file ∧ before.system.files.contents file = [] := by
  rcases startOf_cases h with ⟨hl, -, files, ho, rfl⟩ | ⟨-, -, aside, -, hp⟩
  · have hnew : ¬ s.system.files.Resolves target := fun hr => by
      rw [leadsToFile_iff.2 hr] at hl
      cases hl
    obtain ⟨dir, name, hlocate, hmade⟩ := openCreating_new hnew ho
    exact ⟨⟨_, hmade.leadsTo (onName_ok_iff.1 ho).1 hlocate, rfl⟩, contents_file hmade.file⟩
  · obtain ⟨old, made, -, hopen, hfiles⟩ := prepare_ready hp
    refine ⟨numberAt_of_openExisting hopen, ?_⟩
    rw [hfiles]
    exact contents_truncate _ file

end Start

/-! ## Without redirection -/

/-- The orders to start programs that have been noted so far. -/
def orders (s : Shell) : List Launch := (launchesIn s.transcript.events).map Prod.fst

theorem orders_note (s : Shell) (e : Event) :
    (s.note e).orders = s.orders ++ (launchesIn [e]).map Prod.fst :=
  (congrArg (List.map Prod.fst) (grew_note s.transcript e).launches).trans List.map_append

section Run

variable (programs : Programs) {config : Config} {name : Bytes}

/-- A name that is not built in does not stand for a built-in command. -/
theorem takes_builtin (hname : Builtin.ofName? name = none) (b : Builtin) (s : Shell) :
    Handler.takes s name (.builtin b) = false := by
  refine beq_eq_false_iff_ne.2 ?_
  rintro rfl
  rw [Builtin.ofName?_name] at hname
  cases hname

/-- Without a program nobody carries the command out. -/
theorem run_notFound (hname : Builtin.ofName? name = none) {s : Shell}
    (hf : s.env.findProgram s.system.files name = none) (arguments : List Bytes) :
    run programs config name arguments s = .error (.commandNotFound name.decode) s := by
  have hnone : config.handlers.find? (Handler.takes s name) = none := by
    refine List.find?_eq_none.2 fun handler _ => ?_
    cases handler with
    | builtin b => simp [takes_builtin hname b s]
    | program => simp [Handler.takes, hf]
  rw [run, handle_eq, hnone]

/-- A command that is not built in starts its program, or fails for want of one. -/
theorem run_eq (hname : Builtin.ofName? name = none) (hprogram : Handler.program ∈ config.handlers)
    (arguments : List Bytes) (s : Shell) :
    run programs config name arguments s =
      match s.orderOf (name :: arguments) with
      | none => .error (.commandNotFound name.decode) s
      | some order => start programs order.program (name :: arguments) .terminal [] s := by
  rw [orderOf, List.headD_cons]
  cases hf : s.env.findProgram s.system.files name with
  | none =>
    rw [run_notFound programs hname hf]
    rfl
  | some program =>
    have htakes : Handler.takes s name .program = true := by simp [Handler.takes, hf]
    obtain ⟨handler, hfind⟩ := Option.isSome_iff_exists.1
      (List.find?_isSome.2 ⟨Handler.program, hprogram, htakes⟩)
    cases handler with
    | builtin b => exact absurd (List.find?_some hfind) (by simp [takes_builtin hname b s])
    | program =>
      rw [run, handle_eq, hfind, hf]
      rfl

/-- Starting a program is noted once, whatever comes of it. -/
theorem start_orders (program : Bytes) (arguments : List Bytes) (output : Destination)
    (held : List Ino) (s : Shell) :
    (stateAfter (start programs program (name :: arguments) output held s)).orders =
      s.orders ++ [⟨program, name :: arguments, s.env.vars, s.env.dir⟩] := by
  unfold start
  simp only
  split
  · exact orders_note s (.launched _ false)
  split
  · exact orders_note s (.launched _ false)
  · simp only [stateAfter]
    split
    · exact orders_note s (.launched _ true)
    · -- what the program printed is no order
      exact (orders_note _ (.printed _)).trans
        ((List.append_nil _).trans (orders_note s (.launched _ true)))

theorem run_orders (hname : Builtin.ofName? name = none)
    (hprogram : Handler.program ∈ config.handlers) (arguments : List Bytes) (s : Shell) :
    (stateAfter (run programs config name arguments s)).orders =
      s.orders ++ (s.orderOf (name :: arguments)).toList := by
  rw [run_eq programs hname hprogram]
  cases ho : s.orderOf (name :: arguments) with
  | none => exact (List.append_nil _).symm
  | some order =>
    obtain ⟨program, -, rfl⟩ := Option.map_eq_some_iff.1 ho
    exact start_orders programs program arguments .terminal [] s

end Run

/-! ## With redirection -/

section Redirect

variable (programs : Programs) (config : Config) (argv : List Bytes) {target : Bytes}
  {op : Operator} {s before : Shell} {file : Ino} {held : List Ino}

/-- Without a moment at which the target is open, the redirection fails and starts nothing. -/
theorem redirect_of_startOf_none
    (h : s.startOf (s.env.resolve target) (s.env.resolve config.scratch) op = none) :
    ∃ cause system,
      redirect programs config argv target op s = .error cause (s.withSystem system) := by
  rw [redirect_eq]
  unfold startOf at h
  cases hl : s.system.files.leadsToFile (s.env.resolve target) with
  | false =>
    rw [hl] at h
    simp only at h
    split at h
    · rename_i ho
      simp only [intoNewFile_eq, ho]
      exact ⟨_, s.system, rfl⟩
    · cases h
  | true =>
    rw [hl] at h
    cases op with
    | overwrite => exact ⟨_, s.system, rfl⟩
    | prepend =>
      simp only at h
      split at h
      · rename_i cause after hp
        simp only [putInFront_eq, hp]
        exact ⟨cause, after.system, by rw [← refused_system hp]⟩
      · cases h

/-- From that moment on the program runs, and what was put aside comes back. -/
theorem redirect_of_startOf
    (h : s.startOf (s.env.resolve target) (s.env.resolve config.scratch) op =
      some (file, held, before)) :
    (held = [file] ∧ redirect programs config argv target op s =
      runInto programs argv (s.env.resolve target) file held before) ∨
    ∃ aside, held = [file, aside] ∧
      prepare s (s.env.resolve target) (s.env.resolve config.scratch) =
        .ready file aside before ∧
      redirect programs config argv target op s =
        finish (s.env.resolve target) (s.env.resolve config.scratch) aside
          (outcomeOf (runInto programs argv (s.env.resolve target) file held before))
          (ranInto programs argv (s.env.resolve target) file held before) := by
  rw [redirect_eq]
  rcases startOf_cases h with ⟨hl, rfl, files, ho, rfl⟩ | ⟨hl, rfl, aside, rfl, hp⟩
  · left
    simp only [hl, intoNewFile_eq, ho, and_self]
  · right
    refine ⟨aside, rfl, hp, ?_⟩
    simp only [hl, putInFront_eq, hp]

/-- What follows on the program is not noted. -/
theorem redirect_transcript
    (h : s.startOf (s.env.resolve target) (s.env.resolve config.scratch) op =
      some (file, held, before)) :
    (stateAfter (redirect programs config argv target op s)).transcript =
      (ranInto programs argv (s.env.resolve target) file held before).transcript := by
  rcases redirect_of_startOf programs config argv h with ⟨-, hr⟩ | ⟨aside, -, -, hr⟩
  · rw [hr]
    rfl
  · obtain ⟨system, hback⟩ := putBack_system (s.env.resolve target) aside
      (ranInto programs argv (s.env.resolve target) file held before)
    rw [hr, stateAfter_finish, removeScratch_eq, hback]
    rfl

/-- The program is started, if there is one and the open file can be handed on. -/
theorem redirect_orders
    (h : s.startOf (s.env.resolve target) (s.env.resolve config.scratch) op =
      some (file, held, before)) :
    (stateAfter (redirect programs config argv target op s)).orders =
      s.orders ++ if before.system.refusal = none then (s.orderOf argv).toList else [] := by
  have hran := (ranInto_grew programs argv (s.env.resolve target) file held before).launches
  have hlaunch : (launchOf programs argv file held before).toList.map Prod.fst =
      if before.system.refusal = none then (s.orderOf argv).toList else [] := by
    unfold launchOf
    rw [startOf_orderOf h]
    cases before.system.refusal with
    | some e => rfl
    | none => cases s.orderOf argv <;> rfl
  have hbefore : before.transcript = s.transcript := by
    rw [startOf_system h]
    rfl
  rw [orders, redirect_transcript programs config argv h, hran, List.map_append, hlaunch, hbefore]
  rfl

/-- A regular file that was open holds the error message, with some bytes behind it. -/
def Bears (file : Ino) (before : Shell) (rest : Bytes) (s' : Shell) : Prop :=
  ∀ mode data, before.system.files.node? file = some (.file mode data) →
    s'.system.files.node? file = some (.file mode (errorMessage ++ rest))

/-- How a redirection ends whose program did not run. It succeeds with the error message in the open
file, in front of what was put aside. Or what was put aside cannot be put back, and the message is
in the file. Or the file does not take the message. -/
inductive Told (programs : Programs) (argv : List Bytes) (target : Bytes) (file : Ino)
    (held : List Ino) (before : Shell) : EStateM.Result Failure Shell Unit → Prop
  | told {s' : Shell}
      (hmessage : Bears file before (held.tail.flatMap before.system.files.contents) s') :
      Told programs argv target file held before (.ok () s')
  | behind {aside : Ino} {rest : Bytes} {cause : Failure} {s₁ s' : Shell}
      (hheld : held = [file, aside])
      (hback : putBack target aside (ranInto programs argv target file held before) =
        .error cause s₁)
      (hmessage : Bears file before rest s') :
      Told programs argv target file held before (.error cause s')
  | unwritten {cause : Failure} {s' : Shell}
      (hfull : ¬ before.system.disk.Takes errorMessage.length) :
      Told programs argv target file held before (.error cause s')

/-- The message has been written into an empty file. -/
theorem bears_write {s' : Shell} (hempty : before.system.files.contents file = [])
    (hfiles : s'.system.files = before.system.files.write file 0 errorMessage) :
    Bears file before [] s' := by
  intro mode data hn
  have hdata := contents_file hn
  rw [hempty] at hdata
  rw [hfiles, node?_write hn, ← hdata, splice_start_nil, List.append_nil]

/-- What is put back comes behind the message, or into another file. -/
theorem Bears.append {s₁ s' : Shell} (h : Bears file before [] s₁) {i : Ino} {part : Bytes}
    (hfiles : s'.system.files = s₁.system.files.append i part) :
    Bears file before (if file = i then part else []) s' := by
  intro mode data hn
  have hold := h mode data hn
  rw [hfiles]
  by_cases hi : file = i
  · subst hi
    rw [if_pos rfl, contents_append part hold, List.append_nil]
  · rw [if_neg hi, node?_append_ne part hi]
    exact hold

theorem Bears.removeScratch {rest : Bytes} {s₁ : Shell} (h : Bears file before rest s₁)
    (scratch : Bytes) : Bears file before rest (removeScratch scratch s₁) := by
  intro mode data hn
  rw [removeScratch_eq]
  exact node?_withoutScratch (h mode data hn)

/-- When the message has been written, what was put aside comes back behind it. -/
theorem finish_told {scratch : Bytes} {aside : Ino} {ran : Shell}
    (hready : prepare s target scratch = .ready file aside before)
    (hran : ranInto programs argv target file [file, aside] before = ran)
    (hempty : before.system.files.contents file = [])
    (hfiles : ran.system.files = before.system.files.write file 0 errorMessage) :
    Told programs argv target file [file, aside] before
      (finish target scratch aside (.ok ()) ran) := by
  have hbears := bears_write hempty hfiles
  rw [finish_eq]
  cases hback : putBack target aside ran with
  | error cause s₁ =>
    obtain ⟨i, part, happend⟩ := putBack_appends target aside ran
    rw [hback] at happend
    exact .behind rfl (hran ▸ hback) ((hbears.append happend).removeScratch scratch)
  | ok u s₁ =>
    obtain ⟨i, hopen, happend, hself⟩ := putBack_ok hback
    obtain ⟨-, -, -, hfile, -⟩ := prepare_ready hready
    rw [hfiles, openExisting_write, hfile] at hopen
    cases hopen
    have haside : ran.system.files.contents aside = before.system.files.contents aside := by
      by_cases ha : aside = file
      · rw [hself ha, ha, hempty]
      · unfold contents
        rw [hfiles, node?_write_ne 0 errorMessage ha]
    have htold := (hbears.append happend).removeScratch scratch
    rw [if_pos rfl, haside] at htold
    refine .told ?_
    simpa using htold

/-- Without a program the error message is written, and what was put aside comes back. -/
theorem redirect_told
    (h : s.startOf (s.env.resolve target) (s.env.resolve config.scratch) op =
      some (file, held, before))
    (hchild : childOf programs argv file held before = none) :
    Told programs argv (s.env.resolve target) file held before
      (redirect programs config argv target op s) := by
  have hempty := (startOf_opened h).2
  have hwell := runInto_well (n := 0) programs argv (s.env.resolve target) file held (s := before)
  obtain ⟨part, -, hfiles, hall⟩ := runInto_message (s.env.resolve target) hchild
  rcases redirect_of_startOf programs config argv h with ⟨rfl, hr⟩ | ⟨aside, rfl, hp, hr⟩
  · rw [hr]
    unfold ranInto at hfiles hwell
    cases hrun : runInto programs argv (s.env.resolve target) file [file] before with
    | error cause s' =>
      rw [hrun] at hwell
      exact .unwritten fun hdisk => by cases (hwell hdisk).1
    | ok u s' =>
      rw [hrun] at hfiles hall
      rw [hall s' rfl] at hfiles
      exact .told (bears_write hempty hfiles)
  · rw [hr]
    cases hrun : runInto programs argv (s.env.resolve target) file [file, aside] before with
    | error cause s' =>
      have hfull : ¬ before.system.disk.Takes errorMessage.length := by
        intro hdisk
        have hok := (hwell hdisk).1
        rw [hrun] at hok
        cases hok
      rw [finish_eq]
      split
      · rename_i hok
        cases hok
      · exact .unwritten hfull
      · exact .unwritten hfull
    | ok u s' =>
      rw [hall s' hrun] at hfiles
      exact finish_told programs argv hp rfl hempty hfiles

theorem ranInto_notFound (target : Bytes) (file : Ino) (held : List Ino)
    (hnone : before.orderOf argv = none) :
    childOf programs argv file held before = none ∧
      (ranInto programs argv target file held before).transcript = before.transcript := by
  have hchild : childOf programs argv file held before = none := by
    unfold childOf
    rw [hnone]
    cases before.system.refusal <;> rfl
  refine ⟨hchild, ?_⟩
  unfold ranInto
  have hran := runInto_ran programs argv target file held before
  generalize runInto programs argv target file held before = r at hran
  cases hran with
  | refused => rfl
  | unstarted =>
    have horder : (before.withSystem before.system.answered).orderOf argv = none := hnone
    rw [stateAfter_inFile, withSystem_transcript, unstarted, horder]
    rfl
  | ended h ho he hc =>
    rw [hchild] at hc
    cases hc

/-- So it does if the program is not found, and then nothing is noted. -/
theorem redirect_notFound
    (h : s.startOf (s.env.resolve target) (s.env.resolve config.scratch) op =
      some (file, held, before)) (hnone : s.orderOf argv = none) :
    (stateAfter (redirect programs config argv target op s)).transcript = s.transcript ∧
      Told programs argv (s.env.resolve target) file held before
        (redirect programs config argv target op s) := by
  obtain ⟨hchild, htranscript⟩ := ranInto_notFound programs argv (s.env.resolve target) file
    held ((startOf_orderOf h argv).trans hnone)
  have hbefore : before.transcript = s.transcript := by
    rw [startOf_system h]
    rfl
  refine ⟨?_, redirect_told programs config argv h hchild⟩
  rw [redirect_transcript programs config argv h, htranscript, hbefore]

end Redirect

/-! ## The same program -/

section Runs

open Bytes (ofString)

end Runs

end Shell

end LineShell
