import LineShell.Proofs.OneTarget
import LineShell.Proofs.Runs

/-!
# Redirections to one file, newest first

Seen from its target, a sequence of redirections to one file is a store that is `none` before the
first of them and keeps the newest output in front. Each command makes an `Offer`, and
`Store.serve` takes it or refuses it.

* `redirect_accepted`, `redirect_refused`: one redirection does to a settled tree what the store
  does.
* `Spares`, `DiskSuffices`: a program touches neither the target nor the scratch file but through
  its output, and the disk takes what the shell writes. `Throughout` asks for it at every command.
* `Refines`: how the state of the shell and the store belong together. `refines_step` carries it
  over one command.
* `runLines_refines`: the lines of a session together make the offers of their commands, one by
  one, and the store tells what the file holds in the end, what the shell says on the way and which
  programs it starts.
-/
namespace LineShell

/-! ## The store -/

/-- What a command offers to the file: its operator, what its program writes, and the launch of that
program, if there is one. -/
structure Offer where
  op : Operator
  bytes : Bytes
  launch : Option (Launch × Bool)

/-- The content of the file, if there is one, the number of refusals and the launches so far. -/
structure Store where
  content : Option Bytes
  refusals : Nat := 0
  launches : List (Launch × Bool) := []

namespace Store

/-- A file that exists refuses `>`, and `>+` too unless the owner is permitted to read and write
it. -/
def accepts (permitted : Bool) : Option Bytes → Operator → Bool
  | none, _ => true
  | some _, .overwrite => false
  | some _, .prepend => permitted

/-- What is accepted comes in front. What is refused is not run. -/
def serve (permitted : Bool) (store : Store) (offer : Offer) : Store :=
  if accepts permitted store.content offer.op then
    { store with
      content := some (offer.bytes ++ store.content.getD [])
      launches := store.launches ++ offer.launch.toList }
  else { store with refusals := store.refusals + 1 }

end Store

/-! ## What is noted meanwhile -/

/-- The launches in a list of events. -/
def launchesIn (events : List Event) : List (Launch × Bool) :=
  events.filterMap fun
    | .launched order started => some (order, started)
    | _ => none

/-- The transcript has grown by bytes that the shell said and by launches, and by nothing else that
matters. -/
structure Grew (t t' : Transcript) (said : Bytes) (launches : List (Launch × Bool)) : Prop where
  room : t'.room = t.room
  said : t'.said = t.said ++ said
  launches : launchesIn t'.events = launchesIn t.events ++ launches

theorem Grew.refl (t : Transcript) : Grew t t [] [] := ⟨rfl, by simp, by simp⟩

theorem Grew.trans {t t' t'' : Transcript} {said said' : Bytes}
    {launches launches' : List (Launch × Bool)} (h : Grew t t' said launches)
    (h' : Grew t' t'' said' launches') : Grew t t'' (said ++ said') (launches ++ launches') :=
  ⟨h'.room.trans h.room, by rw [h'.said, h.said, List.append_assoc],
    by rw [h'.launches, h.launches, List.append_assoc]⟩

theorem grew_note (t : Transcript) (e : Event) :
    Grew t (t.note e) (Transcript.saidIn [e]) (launchesIn [e]) :=
  ⟨rfl, by simp [Transcript.said, Transcript.note, Transcript.saidIn],
    by simp [Transcript.note, launchesIn]⟩

namespace Shell

variable (programs : Programs)

/-- What a program writes into an open file that was empty, or the error message in its place. -/
def wrote (argv : List Bytes) (file : Ino) (held : List Ino) (s : Shell) : Bytes :=
  match childOf programs argv file held s with
  | none => errorMessage
  | some ended => ended.system.files.contents file

/-- The launch that comes with it. -/
def launchOf (argv : List Bytes) (file : Ino) (held : List Ino) (s : Shell) :
    Option (Launch × Bool) :=
  match s.system.refusal with
  | some _ => none
  | none => (s.orderOf argv).map fun order => (order, (childOf programs argv file held s).isSome)

theorem ranInto_grew (argv : List Bytes) (target : Bytes) (file : Ino) (held : List Ino)
    (s : Shell) :
    Grew s.transcript (ranInto programs argv target file held s).transcript []
      (launchOf programs argv file held s).toList := by
  unfold ranInto launchOf
  have hran := runInto_ran programs argv target file held s
  generalize runInto programs argv target file held s = r at hran
  cases hran with
  | refused h =>
    rw [h]
    exact Grew.refl _
  | unstarted h hc =>
    have horder : (s.withSystem s.system.answered).orderOf argv = s.orderOf argv := rfl
    rw [stateAfter_inFile, withSystem_transcript, h, hc]
    unfold unstarted
    rw [horder]
    cases s.orderOf argv with
    | none => exact Grew.refl _
    | some order => exact grew_note _ (.launched order false)
  | @ended order ended h ho he hc =>
    rw [h, ho, hc]
    unfold whenEnded
    simp only [Option.map_some, Option.toList_some, Option.isSome_some]
    split
    · exact grew_note _ (.launched order true)
    · exact (grew_note _ (.launched order true)).trans (grew_note _ (.printed ended.printed))

/-- The program spares everything but its output file, if it runs. -/
theorem ranInto_wrote {argv : List Bytes} (path : Bytes) {file : Ino} {held : List Ino} {s : Shell}
    {mode : Mode} {target scratch : Bytes} (hn : s.system.files.node? file = some (.file mode []))
    (ha : ∀ trail, s.system.files.find false scratch = .ok trail → trail.here ≠ file)
    (hdisk : s.system.disk.Takes errorMessage.length)
    (hs : ∀ ended, childOf programs argv file held s = some ended →
      s.system.files.Spared ended.system.files target scratch file) :
    s.system.files.Wrote (ranInto programs argv path file held s).system.files target scratch file
      (wrote programs argv file held s) := by
  unfold wrote
  cases hc : childOf programs argv file held s with
  | none =>
    rw [((runInto_well (n := 0) programs argv path file held hdisk).2 hc).1]
    exact Tree.wrote_message hn ha errorMessage
  | some ended =>
    rw [ranInto_child hc]
    exact ⟨hs ended hc, rfl⟩

/-! ## One redirection -/

/-- Where a redirection stands when its program is looked for: the open file, the files held open,
and the state. Without such a moment the redirection is refused. -/
def startOf (s : Shell) (target scratch : Bytes) (op : Operator) :
    Option (Ino × List Ino × Shell) :=
  match s.system.files.leadsToFile target, op with
  | true, .overwrite => none
  | true, .prepend =>
    match prepare s target scratch with
    | .refused .. => none
    | .ready file aside before => some (file, [file, aside], before)
  | false, _ =>
    match onName target (s.system.files.openCreating .both s.newMode target) with
    | .error _ => none
    | .ok (file, files) => some (file, [file], s.withFiles files)

/-- The target is new, or it is about to be prepended to. -/
theorem startOf_cases {s : Shell} {target scratch : Bytes} {op : Operator} {file : Ino}
    {held : List Ino} {before : Shell}
    (h : s.startOf target scratch op = some (file, held, before)) :
    (s.system.files.leadsToFile target = false ∧ held = [file] ∧
      ∃ files, onName target (s.system.files.openCreating .both s.newMode target) =
        .ok (file, files) ∧ before = s.withFiles files) ∨
    (s.system.files.leadsToFile target = true ∧ op = .prepend ∧ ∃ aside, held = [file, aside] ∧
      prepare s target scratch = .ready file aside before) := by
  unfold startOf at h
  cases hl : s.system.files.leadsToFile target with
  | false =>
    rw [hl] at h
    simp only at h
    split at h
    · cases h
    · rename_i ho
      cases h
      exact Or.inl ⟨rfl, rfl, _, ho, rfl⟩
  | true =>
    rw [hl] at h
    cases op with
    | overwrite => cases h
    | prepend =>
      simp only at h
      split at h
      · cases h
      · rename_i hp
        cases h
        exact Or.inr ⟨rfl, rfl, _, rfl, hp⟩

/-- What a redirection offers to its target. -/
def offer (config : Config) (argv : List Bytes) (target : Bytes) (op : Operator) (s : Shell) :
    Offer :=
  match s.startOf (s.env.resolve target) (s.env.resolve config.scratch) op with
  | none => ⟨op, [], none⟩
  | some (file, held, before) =>
    ⟨op, wrote programs argv file held before, launchOf programs argv file held before⟩

/-- The program of a redirection, if one runs, touches neither the target nor the scratch file's
name, nor the directories and links that lead to them, other than by its output. -/
def Spares (config : Config) (argv : List Bytes) (target : Bytes) (op : Operator) (s : Shell) :
    Prop :=
  ∀ file held before,
    s.startOf (s.env.resolve target) (s.env.resolve config.scratch) op =
      some (file, held, before) →
    ∀ ended, childOf programs argv file held before = some ended →
      before.system.files.Spared ended.system.files (s.env.resolve target)
        (s.env.resolve config.scratch) file

/-- How many bytes the target holds. -/
def lengthAt (s : Shell) (target : Bytes) : Nat :=
  ((s.system.files.contentAt (s.env.resolve target)).getD []).length

/-- The disk refuses nothing that the shell does for a redirection. It takes the old content twice,
once aside and once back, and the error message. -/
structure DiskSuffices (config : Config) (argv : List Bytes) (target : Bytes) (op : Operator)
    (s : Shell) : Prop where
  before : s.system.disk.Takes (s.lengthAt target + (errorMessage.length + s.lengthAt target))
  after : ∀ file held before,
    s.startOf (s.env.resolve target) (s.env.resolve config.scratch) op =
      some (file, held, before) →
    ∀ ended, childOf programs argv file held before = some ended →
      ended.system.disk.Takes (s.lengthAt target)

section Redirect

variable {programs} {config : Config} {argv : List Bytes} {target : Bytes} {op : Operator}
  {s : Shell} {permitted : Bool} {content : Option Bytes}

/-- What the store refuses fails, and the tree is settled as before. -/
theorem redirect_refused
    (h : s.system.files.Settled s.newMode (s.env.resolve target) (s.env.resolve config.scratch)
      permitted content)
    (ha : Store.accepts permitted content op = false) :
    ∃ cause system,
      redirect programs config argv target op s = .error cause (s.withSystem system) ∧
      system.files.Settled s.newMode (s.env.resolve target) (s.env.resolve config.scratch) permitted
        content := by
  rw [redirect_eq, h.leadsToFile]
  cases content with
  | none => cases ha
  | some old =>
    cases op with
    | overwrite => exact ⟨_, s.system, rfl, h⟩
    | prepend =>
      simp only [Option.isSome_some, putInFront_eq]
      rcases h.prepare with ⟨cause, after, hp, ht, -⟩ | ⟨hp, -⟩
      · rw [hp]
        exact ⟨cause, after.system, by rw [← refused_system hp], ht⟩
      · simp [Store.accepts, hp] at ha

/-- The output goes into a new file. -/
theorem new_accepted
    (h : s.system.files.Settled s.newMode (s.env.resolve target) (s.env.resolve config.scratch)
      permitted none)
    (hs : Spares programs config argv target op s)
    (hdisk : s.system.disk.Takes (errorMessage.length + 0)) :
    ∃ s', redirect programs config argv target op s = .ok () s' ∧ s'.env = s.env ∧
      Grew s.transcript s'.transcript [] (offer programs config argv target op s).launch.toList ∧
      s'.system.files.Settled s.newMode (s.env.resolve target) (s.env.resolve config.scratch)
        permitted (some (offer programs config argv target op s).bytes) := by
  obtain ⟨file, t', ho, hat, hn, ht⟩ := h.create .both
  have hstart : s.startOf (s.env.resolve target) (s.env.resolve config.scratch) op =
      some (file, [file], s.withFiles t') := by
    unfold startOf
    rw [h.leadsToFile]
    cases op <;> simp only [Option.isSome_none, ho]
  have htakes : (s.withFiles t').system.disk.Takes (errorMessage.length + 0) := hdisk
  have hw := ranInto_wrote programs (s.env.resolve target) (s := s.withFiles t') hn
    (fun trail hf => absurd hf (ht.free.find_false trail)) htakes (hs file _ _ hstart)
  rw [redirect_eq, h.leadsToFile]
  refine ⟨ranInto programs argv (s.env.resolve target) file [file] (s.withFiles t'), ?_, by simp,
    ?_, ?_⟩
  · cases op <;> simp only [Option.isSome_none, intoNewFile_eq, ho] <;>
      exact (runInto_well _ _ _ _ _ htakes).1
  · simpa [offer, hstart] using
      ranInto_grew programs argv (s.env.resolve target) file [file] (s.withFiles t')
  · simpa [offer, hstart] using ht.wrote hat hw

/-- The output comes in front of what the file holds. -/
theorem prepend_accepted {old : Bytes}
    (h : s.system.files.Settled s.newMode (s.env.resolve target) (s.env.resolve config.scratch)
      true (some old))
    (hs : Spares programs config argv target .prepend s)
    (hbefore : s.system.disk.Takes (old.length + (errorMessage.length + old.length)))
    (hafter : ∀ file held before,
      s.startOf (s.env.resolve target) (s.env.resolve config.scratch) .prepend =
        some (file, held, before) →
      ∀ ended, childOf programs argv file held before = some ended →
        ended.system.disk.Takes old.length) :
    ∃ s', redirect programs config argv target .prepend s = .ok () s' ∧ s'.env = s.env ∧
      Grew s.transcript s'.transcript []
        (offer programs config argv target .prepend s).launch.toList ∧
      s'.system.files.Settled s.newMode (s.env.resolve target) (s.env.resolve config.scratch)
        true (some ((offer programs config argv target .prepend s).bytes ++ old)) := by
  rcases h.prepare with
    ⟨cause, s', -, -, hfull⟩ | ⟨-, file, aside, mode, before, hready, hm, hne, ht, hleft⟩
  · exact absurd (hbefore.mono (Nat.le_add_right _ _)) (hfull rfl)
  have hstart : s.startOf (s.env.resolve target) (s.env.resolve config.scratch) .prepend =
      some (file, [file, aside], before) := by
    unfold startOf
    rw [h.leadsToFile]
    simp only [Option.isSome_some, hready]
  have htakes := hleft _ hbefore
  have hw := ranInto_wrote programs (s.env.resolve target) ht.content
    (fun trail hf => (ht.scratch_here hf).symm ▸ hne.symm) (htakes.mono (Nat.le_add_right _ _))
    (hs file _ before hstart)
  obtain ⟨hran, -⟩ := runInto_well programs argv (s.env.resolve target) file [file, aside] htakes
  have hback := ranInto_takes (s.env.resolve target) htakes (hafter file _ before hstart)
  obtain ⟨s', hfinish, hfiles, -, henv, htranscript⟩ := (ht.wrote hw).finish hne hm (n := 0) hback
  rw [redirect_eq, h.leadsToFile]
  simp only [Option.isSome_some, putInFront_eq, hready]
  refine ⟨s', ?_, ?_, ?_, ?_⟩
  · simp only [hran, Action.outcomeOf]
    exact hfinish
  · rw [henv, ranInto_env, prepare_system hready]
    rfl
  · rw [htranscript]
    have hgrew := ranInto_grew programs argv (s.env.resolve target) file [file, aside] before
    rw [show before.transcript = s.transcript by rw [prepare_system hready]; rfl] at hgrew
    simpa [offer, hstart] using hgrew
  · rw [hfiles]
    have hsettled := ((ht.wrote hw).append hne old).withoutScratch hne s.newMode
    simpa [offer, hstart, hm] using hsettled

/-- What the store accepts is carried out. -/
theorem redirect_accepted
    (h : s.system.files.Settled s.newMode (s.env.resolve target) (s.env.resolve config.scratch)
      permitted content)
    (ha : Store.accepts permitted content op = true)
    (hs : Spares programs config argv target op s)
    (hdisk : DiskSuffices programs config argv target op s) :
    ∃ s', redirect programs config argv target op s = .ok () s' ∧ s'.env = s.env ∧
      Grew s.transcript s'.transcript [] (offer programs config argv target op s).launch.toList ∧
      s'.system.files.Settled s.newMode (s.env.resolve target) (s.env.resolve config.scratch)
        permitted (some ((offer programs config argv target op s).bytes ++ content.getD [])) := by
  have hlength : s.lengthAt target = (content.getD []).length := by
    unfold lengthAt
    rw [h.contentAt]
  obtain ⟨hbefore, hafter⟩ := hdisk
  rw [hlength] at hbefore hafter
  cases content with
  | none =>
    simpa using new_accepted h hs (hbefore.mono (Nat.le_add_left _ _))
  | some old =>
    cases op with
    | overwrite => cases ha
    | prepend =>
      obtain rfl : permitted = true := ha
      exact prepend_accepted h hs hbefore hafter

end Redirect

/-! ## Lines -/

section Commands

variable {programs} {config : Config} {raw : Bytes} {s s' : Shell}

theorem runCommands_ok (h : runCommand programs config raw s = .ok () s')
    (hl : s'.env.leaving = false) (rest : List Bytes) :
    runCommands programs config (raw :: rest) s = runCommands programs config rest s' := by
  rw [runCommands_cons_run, tryCommand, h]
  simp [hl]

theorem runCommands_error {cause : Failure} (h : runCommand programs config raw s = .error cause s')
    (hl : s'.env.leaving = false) (hroom : s'.transcript.room = none) (rest : List Bytes) :
    runCommands programs config (raw :: rest) s =
      runCommands programs config rest (s'.note (.said errorMessage)) := by
  have hsay : report s' = .ok () (s'.note (.said errorMessage)) := by
    simp [report, say, Transcript.say, hroom, note]
  rw [runCommands_cons_run, tryCommand, h]
  simp [hsay, hl]

end Commands

/-- Carries out lines, one after the other. -/
def runLines (config : Config) : List Bytes → Action Shell IoError Unit
  | [] => pure ()
  | line :: lines => do
    runLine programs config line
    runLines config lines

/-- The state after one command of a line, with its failure reported. -/
def after (config : Config) (raw : Bytes) (s : Shell) : Shell :=
  Action.stateAfter (runCommands programs config [raw] s)

theorem after_eq {config : Config} {raw : Bytes} {s s' : Shell}
    (h : ∀ rest, runCommands programs config (raw :: rest) s =
      runCommands programs config rest s') :
    after programs config raw s = s' := by
  unfold after
  rw [h []]
  rfl

/-- The command is a redirection to the target, or there is nothing in it. -/
def RedirectsTo (target raw : Bytes) : Prop :=
  Command.parse raw = .ok .empty ∨ ∃ argv op, Command.parse raw = .ok (.redirect argv target op)

/-- What commands offer to their targets, one after the other. -/
def offers (config : Config) : List Bytes → Shell → List Offer
  | [], _ => []
  | raw :: rest, s =>
    match Command.parse raw with
    | .ok (.redirect argv target op) =>
      offer programs config argv target op s :: offers config rest (after programs config raw s)
    | _ => offers config rest (after programs config raw s)

/-- Something is true of every redirection among the commands, each in the state that those before
it leave. -/
def Throughout (config : Config) (P : List Bytes → Bytes → Operator → Shell → Prop) :
    List Bytes → Shell → Prop
  | [], _ => True
  | raw :: rest, s =>
    (∀ argv target op, Command.parse raw = .ok (.redirect argv target op) → P argv target op s) ∧
    Throughout config P rest (after programs config raw s)

/-- Every program that the commands run spares what it has to. -/
def AllSpare (config : Config) (commands : List Bytes) (s : Shell) : Prop :=
  Throughout programs config (Spares programs config) commands s

/-- The disk suffices for all commands. -/
def DiskSufficesAll (config : Config) (commands : List Bytes) (s : Shell) : Prop :=
  Throughout programs config (DiskSuffices programs config) commands s

/-- The shell has come from `s₀`, and the store tells what its target holds, what it has said and
which programs it has launched since. -/
structure Refines (config : Config) (target : Bytes) (permitted : Bool) (s₀ s : Shell)
    (store : Store) : Prop where
  settled : s.system.files.Settled s₀.newMode (s₀.env.resolve target)
    (s₀.env.resolve config.scratch) permitted store.content
  env : s.env = s₀.env
  grew : Grew s₀.transcript s.transcript (List.replicate store.refusals errorMessage).flatten
    store.launches

section Refinement

variable {programs} {config : Config} {target : Bytes} {permitted : Bool} {s₀ s : Shell}
  {store : Store}

theorem newMode_congr {s t : Shell} (h : s.env = t.env) : s.newMode = t.newMode := by
  unfold newMode
  rw [h]

/-- The environment is the one that the shell has come with. -/
theorem Refines.here (h : Refines config target permitted s₀ s store) :
    s.system.files.Settled s.newMode (s.env.resolve target) (s.env.resolve config.scratch)
      permitted store.content := by
  rw [newMode_congr h.env, h.env]
  exact h.settled

/-- A redirection does what the store does with its offer. -/
theorem refines_redirect (hleaving : s₀.env.leaving = false) (hroom : s₀.transcript.room = none)
    (h : Refines config target permitted s₀ s store) {raw : Bytes} {argv : List Bytes}
    {op : Operator} (hparse : Command.parse raw = .ok (.redirect argv target op))
    (hs : Spares programs config argv target op s)
    (hdisk : DiskSuffices programs config argv target op s) :
    ∃ s', (∀ rest, runCommands programs config (raw :: rest) s =
        runCommands programs config rest s') ∧
      Refines config target permitted s₀ s'
        (store.serve permitted (offer programs config argv target op s)) := by
  have hsettled := h.here
  have hrun : runCommand programs config raw s =
      noting raw (redirect programs config argv target op) s := by
    unfold runCommand
    rw [hparse]
    rfl
  have hop : (offer programs config argv target op s).op = op := by
    unfold offer; split <;> rfl
  by_cases ha : Store.accepts permitted store.content op = true
  · obtain ⟨s', hr, henv, hgrew, ht⟩ := redirect_accepted hsettled ha hs hdisk
    have hnoted : runCommand programs config raw s = .ok () (s'.note (.carriedOut raw none)) := by
      rw [hrun]; unfold noting; rw [hr]
    refine ⟨_, runCommands_ok hnoted ?_, ?_⟩
    · exact (congrArg Environment.leaving (henv.trans h.env)).trans hleaving
    · unfold Store.serve
      rw [hop, if_pos ha]
      refine ⟨?_, henv.trans h.env, ?_⟩
      · rw [newMode_congr h.env, h.env] at ht; exact ht
      · have hall := (h.grew.trans hgrew).trans (grew_note s'.transcript (.carriedOut raw none))
        simpa [Transcript.saidIn, launchesIn] using hall
  · have ha' : Store.accepts permitted store.content op = false := by simpa using ha
    obtain ⟨cause, system, hr, ht⟩ := redirect_refused hsettled ha'
    have hnoted : runCommand programs config raw s =
        .error cause ((s.withSystem system).note (.carriedOut raw (some cause))) := by
      rw [hrun]; unfold noting; rw [hr]
    refine ⟨_, runCommands_error hnoted ?_ ?_, ?_⟩
    · exact (congrArg Environment.leaving h.env).trans hleaving
    · exact h.grew.room.trans hroom
    · unfold Store.serve
      rw [hop, if_neg ha]
      refine ⟨?_, h.env, ?_⟩
      · rw [newMode_congr h.env, h.env] at ht; exact ht
      · have hgrew := (h.grew.trans (grew_note s.transcript (.carriedOut raw (some cause)))).trans
          (grew_note _ (.said errorMessage))
        simpa [Transcript.saidIn, launchesIn, List.replicate_succ'] using hgrew

/-- One command of a line. -/
theorem refines_step (hleaving : s₀.env.leaving = false) (hroom : s₀.transcript.room = none)
    (h : Refines config target permitted s₀ s store) {raw : Bytes} (hr : RedirectsTo target raw)
    (hs : ∀ argv target op, Command.parse raw = .ok (.redirect argv target op) →
      Spares programs config argv target op s)
    (hdisk : ∀ argv target op, Command.parse raw = .ok (.redirect argv target op) →
      DiskSuffices programs config argv target op s) :
    ∃ store', (∀ rest, runCommands programs config (raw :: rest) s =
        runCommands programs config rest (after programs config raw s)) ∧
      Refines config target permitted s₀ (after programs config raw s) store' ∧
      ∀ rest, (offers programs config (raw :: rest) s).foldl (Store.serve permitted) store =
        (offers programs config rest (after programs config raw s)).foldl
          (Store.serve permitted) store' := by
  rcases hr with hempty | ⟨argv, op, hparse⟩
  · have hrun : runCommand programs config raw s = .ok () s := by
      unfold runCommand
      rw [hempty]
      rfl
    have hstep := runCommands_ok hrun ((congrArg Environment.leaving h.env).trans hleaving)
    have hafter := after_eq programs hstep
    refine ⟨store, by rw [hafter]; exact hstep, by rw [hafter]; exact h, fun rest => ?_⟩
    rw [offers, hempty]
  · obtain ⟨s', hstep, hrefines⟩ := refines_redirect hleaving hroom h hparse (hs _ _ _ hparse)
      (hdisk _ _ _ hparse)
    have hafter := after_eq programs hstep
    refine ⟨_, by rw [hafter]; exact hstep, by rw [hafter]; exact hrefines, fun rest => ?_⟩
    rw [offers, hparse]
    rfl

/-- The commands of a line, with others still to come. -/
theorem refines_commands (hleaving : s₀.env.leaving = false) (hroom : s₀.transcript.room = none)
    (rest commands : List Bytes) : ∀ (s : Shell) (store : Store),
    Refines config target permitted s₀ s store → (∀ raw ∈ commands, RedirectsTo target raw) →
    AllSpare programs config (commands ++ rest) s →
    DiskSufficesAll programs config (commands ++ rest) s →
    ∃ s' store', runCommands programs config commands s = .ok () s' ∧
      Refines config target permitted s₀ s' store' ∧ AllSpare programs config rest s' ∧
      DiskSufficesAll programs config rest s' ∧
      (offers programs config (commands ++ rest) s).foldl (Store.serve permitted) store =
        (offers programs config rest s').foldl (Store.serve permitted) store' := by
  induction commands with
  | nil => intro s store h _ hs hdisk; exact ⟨s, store, rfl, h, hs, hdisk, rfl⟩
  | cons raw commands ih =>
    intro s store h hr hs hdisk
    obtain ⟨store₁, hstep, h₁, hoffers₁⟩ :=
      refines_step hleaving hroom h (hr raw List.mem_cons_self) hs.1 hdisk.1
    obtain ⟨s', store', hrun, h', hs', hdisk', hoffers⟩ :=
      ih _ store₁ h₁ (fun r hm => hr r (List.mem_cons_of_mem _ hm)) hs.2 hdisk.2
    refine ⟨s', store', (hstep commands).trans hrun, h', hs', hdisk', ?_⟩
    exact (hoffers₁ (commands ++ rest)).trans hoffers

/-- Lines, one after the other. -/
theorem refines_lines (hleaving : s₀.env.leaving = false) (hroom : s₀.transcript.room = none)
    (lines : List Bytes) : ∀ (s : Shell) (store : Store),
    Refines config target permitted s₀ s store →
    (∀ raw ∈ lines.flatMap commandsOf, RedirectsTo target raw) →
    AllSpare programs config (lines.flatMap commandsOf) s →
    DiskSufficesAll programs config (lines.flatMap commandsOf) s →
    ∃ s', runLines programs config lines s = .ok () s' ∧
      Refines config target permitted s₀ s'
        ((offers programs config (lines.flatMap commandsOf) s).foldl
          (Store.serve permitted) store) := by
  induction lines with
  | nil => intro s store h _ _ _; exact ⟨s, rfl, h⟩
  | cons line lines ih =>
    intro s store h hr hs hdisk
    rw [List.flatMap_cons] at hr hs hdisk ⊢
    obtain ⟨s₁, store₁, hrun, h₁, hs₁, hdisk₁, hoffers⟩ := refines_commands hleaving hroom
      (lines.flatMap commandsOf) (commandsOf line) s store h
      (fun raw hm => hr raw (List.mem_append_left _ hm)) hs hdisk
    obtain ⟨s', hrest, h'⟩ :=
      ih s₁ store₁ h₁ (fun raw hm => hr raw (List.mem_append_right _ hm)) hs₁ hdisk₁
    refine ⟨s', ?_, ?_⟩
    · rw [runLines, Action.bind_run, runLine, hrun]
      exact hrest
    · rw [hoffers]
      exact h'

end Refinement

/-! ## Programs that only print -/

/-- Where a redirection to a settled target stands when its program is looked for, the open file is
empty, and it is not the scratch file. -/
theorem startOf_settled {s : Shell} {target scratch : Bytes} {op : Operator} {permitted : Bool}
    {content : Option Bytes}
    (h : s.system.files.Settled s.newMode target scratch permitted content)
    {file : Ino} {held : List Ino} {before : Shell}
    (hstart : s.startOf target scratch op = some (file, held, before)) :
    (∃ mode, before.system.files.node? file = some (.file mode [])) ∧
      ∀ trail, before.system.files.find false scratch = .ok trail → trail.here ≠ file := by
  cases content with
  | none =>
    rcases startOf_cases hstart with ⟨-, -, files, ho, rfl⟩ | ⟨hl, -⟩
    · obtain ⟨i, t', ho', -, hn, ht⟩ := h.create .both
      rw [ho'] at ho
      cases ho
      exact ⟨⟨_, hn⟩, fun trail hf => absurd hf (ht.free.find_false trail)⟩
    · rw [h.leadsToFile] at hl
      cases hl
  | some old =>
    rcases startOf_cases hstart with ⟨hl, -⟩ | ⟨-, -, aside, -, hp⟩
    · rw [h.leadsToFile] at hl
      cases hl
    · rcases h.prepare with
        ⟨cause, after, hp', -⟩ | ⟨-, i, aside', mode, before', hp', -, hne, ht, -⟩
      · rw [hp'] at hp
        cases hp
      · rw [hp'] at hp
        cases hp
        exact ⟨⟨mode, ht.content⟩, fun trail hf => (ht.scratch_here hf).symm ▸ hne.symm⟩

theorem printing_spares (text : Launch → Bytes) {config : Config} {argv : List Bytes}
    {target : Bytes} {op : Operator} {s : Shell} {permitted : Bool} {content : Option Bytes}
    (h : s.system.files.Settled s.newMode (s.env.resolve target) (s.env.resolve config.scratch)
      permitted content) : Spares (printing text) config argv target op s := by
  intro file held before hstart ended hc
  obtain ⟨⟨mode, hn⟩, ha⟩ := startOf_settled h hstart
  obtain ⟨order, -, he, -⟩ := runInto_child target hc
  cases run_of_endedInto he
  exact (Tree.wrote_message hn ha (text order)).toSpared

/-- Programs that only print leave the disk to the shell. -/
theorem printing_diskSuffices (text : Launch → Bytes) {config : Config} {argv : List Bytes}
    {target : Bytes} {op : Operator} {s : Shell} {permitted : Bool} {content : Option Bytes}
    (h : s.system.files.Settled s.newMode (s.env.resolve target) (s.env.resolve config.scratch)
      permitted content)
    (hdisk : s.system.disk.Takes (s.lengthAt target + (errorMessage.length + s.lengthAt target))) :
    DiskSuffices (printing text) config argv target op s := by
  refine ⟨hdisk, fun file held before hstart ended hc => ?_⟩
  obtain ⟨order, -, he, -⟩ := runInto_child (s.env.resolve target) hc
  cases run_of_endedInto he
  refine System.takes_answered (n := s.lengthAt target) ?_
  have hlength : s.lengthAt target = (content.getD []).length := by
    unfold lengthAt
    rw [h.contentAt]
  rw [hlength] at hdisk ⊢
  rcases startOf_cases hstart with ⟨-, -, files, -, rfl⟩ | ⟨hl, -, aside, -, hp⟩
  · exact hdisk.mono (Nat.le_add_right _ _)
  · rw [h.leadsToFile] at hl
    cases content with
    | none => cases hl
    | some old =>
      rcases h.prepare with
        ⟨cause, after, hp', -⟩ | ⟨-, i, aside', mode, before', hp', -, -, -, hleft⟩
      · rw [hp'] at hp
        cases hp
      · rw [hp'] at hp
        cases hp
        exact (hleft _ hdisk).mono (Nat.le_add_left _ _)

/-- Programs that only print spare what they have to, and the disk suffices for all commands if it
takes what the shell writes before each program has run. -/
theorem printing_throughout (text : Launch → Bytes) {config : Config} {target : Bytes}
    {permitted : Bool} {s₀ : Shell} (hleaving : s₀.env.leaving = false)
    (hroom : s₀.transcript.room = none) (commands : List Bytes) :
    ∀ (s : Shell) (store : Store), Refines config target permitted s₀ s store →
      (∀ raw ∈ commands, RedirectsTo target raw) →
      Throughout (printing text) config (fun _ _ _ s => s.system.disk.Takes
        (s.lengthAt target + (errorMessage.length + s.lengthAt target))) commands s →
      AllSpare (printing text) config commands s ∧
        DiskSufficesAll (printing text) config commands s := by
  induction commands with
  | nil => exact fun _ _ _ _ _ => ⟨trivial, trivial⟩
  | cons raw commands ih =>
    intro s store h hr hdisk
    have hboth : ∀ argv target' op, Command.parse raw = .ok (.redirect argv target' op) →
        Spares (printing text) config argv target' op s ∧
          DiskSuffices (printing text) config argv target' op s := by
      intro argv target' op hparse
      rcases hr raw List.mem_cons_self with hempty | ⟨argv', op', hparse'⟩
      · rw [hempty] at hparse; cases hparse
      · rw [hparse'] at hparse; cases hparse
        exact ⟨printing_spares text h.here,
          printing_diskSuffices text h.here (hdisk.1 argv target op hparse')⟩
    obtain ⟨store', -, h', -⟩ := refines_step hleaving hroom h (hr raw List.mem_cons_self)
      (fun argv target op hp => (hboth argv target op hp).1)
      (fun argv target op hp => (hboth argv target op hp).2)
    obtain ⟨hspare, hsuffices⟩ :=
      ih _ store' h' (fun r hm => hr r (List.mem_cons_of_mem _ hm)) hdisk.2
    exact ⟨⟨fun argv target op hp => (hboth argv target op hp).1, hspare⟩,
      ⟨fun argv target op hp => (hboth argv target op hp).2, hsuffices⟩⟩

/-! ## The refinement -/

/-- **Redirections to one file refine the store.** The target is missing and can be made, or is a
regular file, and the scratch file's name is free. Then lines whose commands all redirect their
output to the target run to the end, and the target holds what the store holds that has served
their offers; the shell has said one error message for each refusal; it has launched the programs
of the accepted commands alone; its environment is what it was, and the scratch file's name is free
again.

The shell's user owns the files, so the permissions of their owner tell whether an existing target
takes a prepend. -/
theorem runLines_refines (config : Config) (lines : List Bytes)
    (target : Bytes) (s : Shell) {permitted : Bool} {content : Option Bytes}
    (hleaving : s.env.leaving = false) (hroom : s.transcript.room = none)
    (h : s.system.files.Settled s.newMode (s.env.resolve target) (s.env.resolve config.scratch)
      permitted content)
    (hr : ∀ raw ∈ lines.flatMap commandsOf, RedirectsTo target raw)
    (hs : AllSpare programs config (lines.flatMap commandsOf) s)
    (hdisk : DiskSufficesAll programs config (lines.flatMap commandsOf) s) :
    ∃ s' store,
      store = (offers programs config (lines.flatMap commandsOf) s).foldl (Store.serve permitted)
        { content } ∧
      runLines programs config lines s = .ok () s' ∧
      s'.system.files.contentAt (s.env.resolve target) = store.content ∧
      s'.system.files.Settled s.newMode (s.env.resolve target) (s.env.resolve config.scratch)
        permitted store.content ∧
      s'.env = s.env ∧
      s'.transcript.said =
        s.transcript.said ++ (List.replicate store.refusals errorMessage).flatten ∧
      launchesIn s'.transcript.events = launchesIn s.transcript.events ++ store.launches := by
  have h₀ : Refines config target permitted s s { content } := ⟨h, rfl, Grew.refl _⟩
  obtain ⟨s', hrun, h'⟩ := refines_lines hleaving hroom lines s _ h₀ hr hs hdisk
  exact ⟨s', _, rfl, hrun, h'.settled.contentAt, h'.settled, h'.env, h'.grew.said, h'.grew.launches⟩

section Runs

open Bytes (ofString)

/-- A program, and a name `out` that is free. -/
def freeOut : Tree := ⟨[.directory 0o755 [(ofString "say", 1)], .file 0o755 []]⟩

/-- The last argument of a program and a newline. -/
def lastWord (order : Launch) : Bytes := order.argv.getLast?.getD [] ++ [Bytes.newline]

/-- The program prints its last argument and a newline. -/
def saying : Programs := printing lastWord

/-- Two outputs are accepted, and one is refused. -/
def sayings : List Bytes :=
  [ofString "/say one > out; /say two >+ out", ofString "/say three > out"]

theorem freeOut_settled :
    freeOut.Settled 0o644 (ofString "/out") (ofString "/temp") true none := by
  refine ⟨⟨[], ofString "temp", rfl, by decide, by decide, rfl, by decide⟩, rfl, [], ofString "out",
    ⟨by decide, by decide, rfl, by decide⟩, ?_⟩
  intro dir name hl
  have hl' : freeOut.locate true (ofString "/temp") =
      .ok (.missing [] (ofString "temp") false) := rfl
  rw [hl'] at hl
  cases hl
  decide

theorem sayings_redirect :
    ∀ raw ∈ sayings.flatMap commandsOf, RedirectsTo (ofString "out") raw := by
  have hc : sayings.flatMap commandsOf =
      [ofString "/say one > out", ofString " /say two >+ out", ofString "/say three > out"] := by
    decide
  rw [hc]
  intro raw hm
  simp only [List.mem_cons, List.not_mem_nil, or_false] at hm
  rcases hm with rfl | rfl | rfl
  · exact Or.inr ⟨[ofString "/say", ofString "one"], .overwrite, rfl⟩
  · exact Or.inr ⟨[ofString "/say", ofString "two"], .prepend, rfl⟩
  · exact Or.inr ⟨[ofString "/say", ofString "three"], .overwrite, rfl⟩

/-- The disk takes what the shell writes. -/
theorem sayings_disk : Throughout saying {} (fun _ _ _ s => s.system.disk.Takes
    (s.lengthAt (ofString "out") + (errorMessage.length + s.lengthAt (ofString "out"))))
    (sayings.flatMap commandsOf) (atRoot freeOut) := by
  refine ⟨fun _ _ _ _ => ⟨nofun, ?_⟩, fun _ _ _ _ => ⟨?_, ?_⟩, fun _ _ _ _ => ⟨?_, ?_⟩, trivial⟩
  all_goals decide +kernel

/-- The newest output is in front, and the third command is refused. -/
theorem sayings_newest_first :
    ∃ s', runLines saying {} sayings (atRoot freeOut) = .ok () s' ∧
      s'.system.files.contentAt (ofString "/out") = some (ofString "two\none\n") ∧
      s'.transcript.said = errorMessage ∧ (launchesIn s'.transcript.events).length = 2 := by
  have h₀ : Refines {} (ofString "out") true (atRoot freeOut) (atRoot freeOut) ⟨none, 0, []⟩ :=
    ⟨freeOut_settled, rfl, Grew.refl _⟩
  obtain ⟨hspare, hsuffices⟩ :=
    printing_throughout lastWord rfl rfl _ _ _ h₀ sayings_redirect sayings_disk
  obtain ⟨s', store, hstore, hrun, hcontent, -, -, hsaid, hlaunches⟩ :=
    runLines_refines saying {} sayings (ofString "out") (atRoot freeOut) rfl rfl h₀.settled
      sayings_redirect hspare hsuffices
  rw [hstore] at hcontent hsaid hlaunches
  refine ⟨s', hrun, hcontent.trans ?_, hsaid.trans ?_, ?_⟩
  · decide +kernel
  · decide +kernel
  · rw [hlaunches]
    decide +kernel

/-- A file `out` that its owner may only read. -/
def lockedOut : Tree :=
  ⟨[.directory 0o755 [(ofString "out", 1), (ofString "say", 2)], .file 0o444 (ofString "old\n"),
    .file 0o755 []]⟩

/-- **Counterexample**: to a regular file that may not be written `>+` puts nothing in front. The
program is not run, and the shell says that there was an error. -/
theorem locked_target_refuses :
    lockedOut.find true (ofString "/out") = .ok [(ofString "out", 1)] ∧
    ∃ s', runLines saying {} [ofString "/say one >+ out"] (atRoot lockedOut) = .ok () s' ∧
      s'.system.files.contentAt (ofString "/out") = some (ofString "old\n") ∧
      s'.transcript.said = errorMessage ∧ launchesIn s'.transcript.events = [] := by
  refine ⟨rfl, _, rfl, by decide, by decide, by decide⟩

end Runs

end Shell

end LineShell
