import LineShell.Proofs.ProgramLookup

/-!
# The search path

The program that a name stands for is found by a search. A name with a slash is a path of its own;
any other name is looked for in the directories of the search path.

* `Tree.CanRun`, `Tree.PassedOver`: what a path has to lead to, and everything else it may lead to.
* `Separated`: a text and its pieces between separators. There is one list of them
  (`separated_iff`).
* `Search`: the outcome of a search, without a word on how to go about it. The search that the shell
  makes has just this outcome (`findProgram_searches`).
* `bare_name_unfound_iff`: without a search path a name should never be found. Still it is found if
  such a program lies in the working directory, as in `program_here_found`.
-/
namespace LineShell

open Bytes (ofString slash)
open LineShell.Action (stateAfter)

/-! ## Paths that can be run -/

namespace Tree

variable {t : Tree} {path : Bytes}

/-- The path leads to a regular file, behind all links, that someone may run. -/
def CanRun (t : Tree) (path : Bytes) : Prop :=
  ∃ trail mode data, t.LeadsTo path trail ∧ t.node? trail.here = some (.file mode data) ∧
    mode.anyExecute = true

/-- Why a path cannot be run. -/
inductive PassedOver (t : Tree) (path : Bytes) : Prop
  /-- A zero byte is in no name. -/
  | unnamable (h : (0 : UInt8) ∈ path)
  /-- Nothing is there, perhaps at the far end of a link, or the way there is closed. -/
  | nowhere {cause : OsError} (h : t.find true path = .error cause)
  /-- A directory or a device is there. -/
  | irregular {trail : Trail} (h : t.LeadsTo path trail)
    (hn : ∀ mode data, t.node? trail.here ≠ some (.file mode data))
  /-- Nobody may run the file. -/
  | locked {trail : Trail} {mode : Mode} {data : Bytes} (h : t.LeadsTo path trail)
    (hn : t.node? trail.here = some (.file mode data)) (hm : mode.anyExecute = false)

theorem runnable_iff {i : Ino} :
    t.runnable i = true ↔
      ∃ mode data, t.node? i = some (.file mode data) ∧ mode.anyExecute = true := by
  unfold runnable
  cases t.node? i with
  | none => simp
  | some n => cases n <;> simp

/-- The test that the search makes. -/
theorem isExecutable_iff_canRun : t.isExecutable path = true ↔ t.CanRun path := by
  simp only [isExecutable_iff, runnable_iff]
  constructor
  · rintro ⟨trail, hl, mode, data, hn, hm⟩
    exact ⟨trail, mode, data, hl, hn, hm⟩
  · rintro ⟨trail, mode, data, hl, hn, hm⟩
    exact ⟨trail, hl, mode, data, hn, hm⟩

/-- Every path can be run or is passed over, and none is both. -/
theorem passedOver_iff : t.PassedOver path ↔ ¬ t.CanRun path := by
  constructor
  · rintro h ⟨trail, mode, data, hl, hn, hm⟩
    cases h with
    | unnamable h =>
      have hz := (leadsTo_iff.1 hl).1
      rw [List.contains_iff_mem.2 h] at hz
      cases hz
    | nowhere h =>
      rw [(leadsTo_iff.1 hl).2] at h
      cases h
    | irregular h hno =>
      obtain rfl := h.unique hl
      exact hno mode data hn
    | locked h hn' hm' =>
      obtain rfl := h.unique hl
      rw [hn] at hn'
      cases hn'
      rw [hm] at hm'
      cases hm'
  · intro h
    by_cases hz : (0 : UInt8) ∈ path
    · exact .unnamable hz
    cases hf : t.find true path with
    | error cause => exact .nowhere hf
    | ok trail =>
      have hl : t.LeadsTo path trail := leadsTo_iff.2 ⟨by simpa using hz, hf⟩
      by_cases hfile : ∃ mode data, t.node? trail.here = some (.file mode data)
      · obtain ⟨mode, data, hn⟩ := hfile
        exact .locked hl hn (Bool.eq_false_iff.2 fun hm => h ⟨trail, mode, data, hl, hn, hm⟩)
      · exact .irregular hl fun mode data hn => hfile ⟨mode, data, hn⟩

theorem isExecutable_false_iff : t.isExecutable path = false ↔ t.PassedOver path := by
  rw [passedOver_iff, ← isExecutable_iff_canRun, Bool.not_eq_true]

end Tree

/-! ## The entries of the search path -/

/-- The pieces make up the text with a separator between every two of them. There is at least one,
and any of them may be empty. -/
structure Separated (sep : UInt8) (pieces : List Bytes) (text : Bytes) : Prop where
  joined : Bytes.joinWith sep pieces = text
  ne_nil : pieces ≠ []
  free : ∀ piece ∈ pieces, sep ∉ piece

theorem splitOn_joinWith {sep : UInt8} {pieces : List Bytes} (hne : pieces ≠ [])
    (hfree : ∀ piece ∈ pieces, sep ∉ piece) : (Bytes.joinWith sep pieces).splitOn sep = pieces := by
  induction pieces with
  | nil => exact absurd rfl hne
  | cons piece pieces ih =>
    have hpiece : ∀ b ∈ piece, (b == sep) = false := by
      intro b hb
      rw [beq_eq_false_iff_ne]
      rintro rfl
      exact hfree piece List.mem_cons_self hb
    unfold Bytes.splitOn at ih ⊢
    cases pieces with
    | nil =>
      have hsplit := Bytes.splitWhen_append hpiece (rfl : Bytes.splitWhen (· == sep) [] = [[]])
      rwa [List.append_nil] at hsplit
    | cons next pieces =>
      have hrest := ih (List.cons_ne_nil next pieces)
        fun p hp => hfree p (List.mem_cons_of_mem _ hp)
      have hsep : Bytes.splitWhen (· == sep) (sep :: Bytes.joinWith sep (next :: pieces)) =
          [] :: next :: pieces := by
        rw [Bytes.splitWhen, if_pos (beq_self_eq_true sep), hrest]
      rw [Bytes.joinWith, Bytes.splitWhen_append hpiece hsep, List.append_nil]
      exact List.cons_ne_nil next pieces

/-- A text has one list of pieces. -/
theorem separated_iff {sep : UInt8} {pieces : List Bytes} {text : Bytes} :
    Separated sep pieces text ↔ pieces = text.splitOn sep := by
  constructor
  · rintro ⟨rfl, hne, hfree⟩
    exact (splitOn_joinWith hne hfree).symm
  · rintro rfl
    refine ⟨Bytes.joinWith_splitOn sep text, Bytes.splitWhen_ne_nil _ text, fun piece hp hm => ?_⟩
    have hb := Bytes.splitWhen_free (· == sep) text piece hp sep hm
    rw [beq_self_eq_true] at hb
    cases hb

/-- Where a name is looked for on behalf of an entry of the search path: the entry is taken against
the working directory, and the name against the entry. -/
def placeOf (dir name entry : Bytes) : Bytes := Path.join (Path.join dir entry) name

/-- An empty entry stands for the working directory. -/
theorem placeOf_nil (dir name : Bytes) : placeOf dir name [] = Path.join dir name := by
  unfold placeOf Path.join
  cases Path.isAbsolute name with
  | true => rfl
  | false =>
    cases hend : dir.isEmpty || dir.getLast? == some slash with
    | true => simp [Path.isAbsolute, hend]
    | false => simp [Path.isAbsolute]

/-- An absolute entry has nothing to do with the working directory. -/
theorem placeOf_absolute {entry : Bytes} (h : Path.isAbsolute entry = true) (dir name : Bytes) :
    placeOf dir name entry = Path.join entry name := by
  rw [placeOf, Path.join_absolute h]

/-! ## The search -/

/-- The outcome of a search for the program that a name stands for. -/
inductive Search (t : Tree) (search dir name : Bytes) : Option Bytes → Prop
  /-- The empty name stands for nothing. -/
  | unnamed (h : name = []) : Search t search dir name none
  /-- A name with a slash is a path, whatever the search path is. -/
  | path (h : slash ∈ name) (hrun : t.CanRun (Path.join dir name)) :
      Search t search dir name (some (Path.join dir name))
  | unusable (h : slash ∈ name) (hpass : t.PassedOver (Path.join dir name)) :
      Search t search dir name none
  /-- Any other name stands for the program of the first entry that has one. -/
  | entry (hne : name ≠ []) (h : slash ∉ name) {entries : List Bytes} {i : Nat} {entry : Bytes}
      (hentries : Separated colon entries search) (hi : entries[i]? = some entry)
      (hrun : t.CanRun (placeOf dir name entry))
      (hpass : ∀ j earlier, j < i → entries[j]? = some earlier →
        t.PassedOver (placeOf dir name earlier)) :
      Search t search dir name (some (placeOf dir name entry))
  | nowhere (hne : name ≠ []) (h : slash ∉ name) {entries : List Bytes}
      (hentries : Separated colon entries search)
      (hpass : ∀ entry ∈ entries, t.PassedOver (placeOf dir name entry)) :
      Search t search dir name none

section Search

variable {t : Tree} {search dir name : Bytes}

theorem findProgram_path (h : slash ∈ name) : findProgram t search dir name =
    if t.isExecutable (Path.join dir name) then some (Path.join dir name) else none := by
  have hne : name ≠ [] := List.ne_nil_of_mem h
  rw [findProgram, if_neg (by simpa using hne), programCandidates,
    if_pos (List.contains_iff_mem.2 h)]
  cases hrun : t.isExecutable (Path.join dir name) with
  | true => rw [List.find?_cons_of_pos hrun, if_pos rfl]
  | false => simp [hrun]

theorem findProgram_bare (hne : name ≠ []) (h : slash ∉ name) : findProgram t search dir name =
    ((search.splitOn colon).map (placeOf dir name)).find? t.isExecutable := by
  rw [findProgram, if_neg (by simpa using hne), programCandidates, if_neg (by simpa using h)]
  rfl

/-- What the shell finds is the outcome of a search. -/
theorem search_findProgram (t : Tree) (search dir name : Bytes) :
    Search t search dir name (findProgram t search dir name) := by
  by_cases hne : name = []
  · subst hne
    exact .unnamed rfl
  by_cases hslash : slash ∈ name
  · rw [findProgram_path hslash]
    split
    · rename_i hrun
      exact .path hslash (Tree.isExecutable_iff_canRun.1 hrun)
    · rename_i hrun
      exact .unusable hslash (Tree.isExecutable_false_iff.1 (Bool.eq_false_iff.2 hrun))
  have hentries : Separated colon (search.splitOn colon) search := separated_iff.2 rfl
  rw [findProgram_bare hne hslash]
  cases hfind : ((search.splitOn colon).map (placeOf dir name)).find? t.isExecutable with
  | none =>
    have hpass := List.find?_eq_none.1 hfind
    refine .nowhere hne hslash hentries fun entry hm => ?_
    have hno := hpass _ (List.mem_map_of_mem hm)
    exact Tree.isExecutable_false_iff.1 (Bool.eq_false_iff.2 hno)
  | some path =>
    obtain ⟨hrun, i, hi, hpath, hpass⟩ := List.find?_eq_some_iff_getElem.1 hfind
    rw [List.getElem_map] at hpath
    subst hpath
    refine .entry hne hslash hentries (List.getElem?_eq_getElem (by simpa using hi))
      (Tree.isExecutable_iff_canRun.1 hrun) fun j earlier hj he => ?_
    have hno := hpass j hj
    obtain ⟨hj', rfl⟩ := List.getElem?_eq_some_iff.1 he
    rw [List.getElem_map, Bool.not_eq_true'] at hno
    exact Tree.isExecutable_false_iff.1 hno

/-- A search has one outcome, and this is what the shell finds. -/
theorem Search.eq_findProgram {found : Option Bytes} (h : Search t search dir name found) :
    findProgram t search dir name = found := by
  cases h with
  | unnamed h =>
    subst h
    rfl
  | path h hrun => rw [findProgram_path h, if_pos (Tree.isExecutable_iff_canRun.2 hrun)]
  | unusable h hpass =>
    rw [findProgram_path h, Tree.isExecutable_false_iff.2 hpass]
    rfl
  | @entry hne h entries i entry hentries hi hrun hpass =>
    obtain rfl := separated_iff.1 hentries
    obtain ⟨hlt, rfl⟩ := List.getElem?_eq_some_iff.1 hi
    rw [findProgram_bare hne h, List.find?_eq_some_iff_getElem]
    refine ⟨Tree.isExecutable_iff_canRun.2 hrun, i, by simpa using hlt, List.getElem_map _,
      fun j hj => ?_⟩
    rw [List.getElem_map, Bool.not_eq_true']
    exact Tree.isExecutable_false_iff.2
      (hpass j _ hj (List.getElem?_eq_getElem (Nat.lt_trans hj hlt)))
  | nowhere hne h hentries hpass =>
    obtain rfl := separated_iff.1 hentries
    rw [findProgram_bare hne h, List.find?_eq_none]
    intro path hm
    obtain ⟨entry, he, rfl⟩ := List.mem_map.1 hm
    rw [Tree.isExecutable_false_iff.2 (hpass entry he)]
    exact Bool.false_ne_true

end Search

/-- **The search for a program.** On any tree, with any search path and working directory, the shell
finds for a name just the outcome of the search for it. In it, an absolute name is its own path; an
empty entry of the search path stands for the working directory; and an absolute entry has nothing
to do with it. Whatever cannot be run is passed over, and nothing else is. -/
theorem findProgram_searches (t : Tree) (search dir name : Bytes) :
    (∀ found, findProgram t search dir name = found ↔ Search t search dir name found) ∧
    (Path.isAbsolute name = true → Path.join dir name = name) ∧
    placeOf dir name [] = Path.join dir name ∧
    (∀ entry, Path.isAbsolute entry = true → placeOf dir name entry = Path.join entry name) ∧
    ∀ path, t.PassedOver path ↔ ¬ t.CanRun path := by
  refine ⟨fun found => ⟨?_, fun h => h.eq_findProgram⟩, fun h => Path.join_absolute h,
    placeOf_nil dir name, fun entry h => placeOf_absolute h dir name,
    fun path => Tree.passedOver_iff⟩
  rintro rfl
  exact search_findProgram t search dir name

/-- Below the root directory, `tool` is a link to nothing, `bin/tool` a directory, `etc/tool` a file
that nobody may run, and `usr/tool` one that everybody may run. -/
def manyTools : Tree :=
  ⟨[.directory 0o755 [(ofString "tool", 1), (ofString "bin", 2), (ofString "etc", 4),
      (ofString "usr", 6)],
    .link (ofString "gone"), .directory 0o755 [(ofString "tool", 3)], .directory 0o755 [],
    .directory 0o755 [(ofString "tool", 5)], .file 0o644 [],
    .directory 0o755 [(ofString "tool", 7)], .file 0o755 []]⟩

/-- The search goes on behind each of them, and behind a name with a zero byte. -/
theorem last_entry_found :
    findProgram manyTools (ofString ":bin:/etc/:\x00:usr") [slash] (ofString "tool") =
      some (ofString "/usr/tool") ∧
    Path.join (ofString "/usr") (ofString "/etc/tool") = ofString "/etc/tool" := by
  have hjoin := (findProgram_searches manyTools [] (ofString "/usr") (ofString "/etc/tool")).2.1
  refine ⟨((findProgram_searches manyTools (ofString ":bin:/etc/:\x00:usr") [slash]
    (ofString "tool")).1 _).2 ?_, hjoin rfl⟩
  have hentries : Separated colon [[], ofString "bin", ofString "/etc/", [0], ofString "usr"]
      (ofString ":bin:/etc/:\x00:usr") := separated_iff.2 rfl
  have hrun : manyTools.CanRun (placeOf [slash] (ofString "tool") (ofString "usr")) :=
    ⟨[(ofString "tool", 7), (ofString "usr", 6)], 0o755, [], rfl, rfl, rfl⟩
  have hlink : manyTools.find true (ofString "/tool") = .error .noEntry := rfl
  have hdir : manyTools.LeadsTo (ofString "/bin/tool")
      [(ofString "tool", 3), (ofString "bin", 2)] := rfl
  have hfile : manyTools.LeadsTo (ofString "/etc/tool")
      [(ofString "tool", 5), (ofString "etc", 4)] := rfl
  refine Search.entry (i := 4) (by decide) (by decide) hentries rfl hrun fun j earlier hj he => ?_
  match j, hj with
  | 0, _ => cases he; exact .nowhere hlink
  | 1, _ => cases he; exact .irregular hdir nofun
  | 2, _ => cases he; exact .locked hfile rfl rfl
  | 3, _ => cases he; exact .unnamable (by decide)

/-! ## Without a search path -/

namespace Shell

/-- A program of that name lies in the working directory. -/
def LiesHere (s : Shell) (name : Bytes) : Prop :=
  name ≠ [] ∧ s.system.files.CanRun (s.env.resolve name)

/-- No program is found for the name, and so none is started: the command cannot be found, and a
redirection fails or leaves the error message in its target, if that takes it. The transcript is the
same in all these cases. -/
structure Unfound (programs : Programs) (config : Config) (name : Bytes) (s : Shell) : Prop where
  nowhere : s.env.findProgram s.system.files name = none
  reported : Builtin.ofName? name = none → ∀ arguments,
    run programs config name arguments s = .error (.commandNotFound name.decode) s
  refused : ∀ arguments target op,
    s.startOf (s.env.resolve target) (s.env.resolve config.scratch) op = none →
    ∃ cause system, redirect programs config (name :: arguments) target op s =
      .error cause (s.withSystem system)
  told : ∀ arguments target op file held before,
    s.startOf (s.env.resolve target) (s.env.resolve config.scratch) op =
      some (file, held, before) →
    (stateAfter (redirect programs config (name :: arguments) target op s)).transcript =
        s.transcript ∧
      Told programs (name :: arguments) (s.env.resolve target) file held before
        (redirect programs config (name :: arguments) target op s)

section Unset

variable {name : Bytes} {s : Shell}

/-- The search path that is taken without one has one entry, which is empty. -/
theorem separated_nil (sep : UInt8) : Separated sep [[]] [] := separated_iff.2 rfl

theorem findProgram_here (hslash : slash ∉ name) (hpath : s.env.vars.get? searchVariable = none)
    (h : s.LiesHere name) : s.env.findProgram s.system.files name = some (s.env.resolve name) := by
  obtain ⟨hne, hrun⟩ := h
  rw [Environment.resolve, ← placeOf_nil] at hrun ⊢
  rw [Environment.findProgram, hpath]
  exact (Search.entry (i := 0) hne hslash (separated_nil colon) rfl hrun
    fun j _ hj => absurd hj (Nat.not_lt_zero j)).eq_findProgram

theorem findProgram_unset (hslash : slash ∉ name) (hpath : s.env.vars.get? searchVariable = none)
    (h : ¬ s.LiesHere name) : s.env.findProgram s.system.files name = none := by
  rw [Environment.findProgram, hpath]
  by_cases hne : name = []
  · exact (Search.unnamed hne).eq_findProgram
  refine (Search.nowhere hne hslash (separated_nil colon) fun entry hm => ?_).eq_findProgram
  obtain rfl := List.mem_singleton.1 hm
  rw [placeOf_nil]
  exact Tree.passedOver_iff.2 fun hrun => h ⟨hne, hrun⟩

/-- **A name without a search path.** No variable holds a search path, and the name has no slash.
Then the name is found nowhere, with and without redirection, just if no program of that name lies
in the working directory. If one does, it is what the name stands for, and the shell orders it to
start, also with its output in an open file, if that can be handed on. -/
theorem bare_name_unfound_iff (programs : Programs) (config : Config) (hslash : slash ∉ name)
    (hpath : s.env.vars.get? searchVariable = none) :
    (Unfound programs config name s ↔ ¬ s.LiesHere name) ∧
    (s.LiesHere name → s.env.findProgram s.system.files name = some (s.env.resolve name) ∧
      ∀ arguments order, order = ⟨s.env.resolve name, name :: arguments, s.env.vars, s.env.dir⟩ →
        (Builtin.ofName? name = none → Handler.program ∈ config.handlers →
          (stateAfter (run programs config name arguments s)).orders = s.orders ++ [order]) ∧
        ∀ target op file held before,
          s.startOf (s.env.resolve target) (s.env.resolve config.scratch) op =
            some (file, held, before) → before.system.refusal = none →
          (stateAfter (redirect programs config (name :: arguments) target op s)).orders =
            s.orders ++ [order]) := by
  refine ⟨⟨fun h hhere => ?_, fun h => ?_⟩, fun hhere => ?_⟩
  · have hnone := h.nowhere
    rw [findProgram_here hslash hpath hhere] at hnone
    cases hnone
  · have hnone := findProgram_unset hslash hpath h
    have horder : ∀ arguments, s.orderOf (name :: arguments) = none := by
      intro arguments
      rw [orderOf, List.headD_cons, hnone]
      rfl
    exact ⟨hnone, fun hname arguments => run_notFound programs hname hnone arguments,
      fun arguments target op ho => redirect_of_startOf_none programs config _ ho,
      fun arguments target op file held before ho =>
        redirect_notFound programs config _ ho (horder arguments)⟩
  · have hfound := findProgram_here hslash hpath hhere
    refine ⟨hfound, ?_⟩
    rintro arguments order rfl
    have horder : s.orderOf (name :: arguments) =
        some ⟨s.env.resolve name, name :: arguments, s.env.vars, s.env.dir⟩ := by
      rw [orderOf, List.headD_cons, hfound]
      rfl
    refine ⟨fun hname hprogram => ?_, fun target op file held before ho hrefusal => ?_⟩
    · rw [run_orders programs hname hprogram, horder]
      rfl
    · rw [redirect_orders programs config _ ho, if_pos hrefusal, horder]
      rfl

end Unset

/-- A program in the root directory. -/
def toolHere : Tree := ⟨[.directory 0o755 [(ofString "tool", 1)], .file 0o755 []]⟩

/-- A shell in the root directory without any variables does not find another name. -/
theorem other_name_unfound :
    (atRoot toolHere).env.vars.get? searchVariable = none ∧
    Unfound idle {} (ofString "other") (atRoot toolHere) := by
  have hpath : (atRoot toolHere).env.vars.get? searchVariable = none := rfl
  have hother : ¬ (atRoot toolHere).LiesHere (ofString "other") := by
    rintro ⟨-, trail, mode, data, hl, -⟩
    cases hl
  exact ⟨hpath, (bare_name_unfound_iff idle {} (by decide) hpath).1.2 hother⟩

/-- **Counterexample**: without a search path the shell starts the program that lies in its working
directory. -/
theorem program_here_found :
    (atRoot toolHere).env.vars.get? searchVariable = none ∧ slash ∉ ofString "tool" ∧
    (atRoot toolHere).env.findProgram toolHere (ofString "tool") = some (ofString "/tool") ∧
    run idle {} (ofString "tool") [] (atRoot toolHere) = .ok () ((atRoot toolHere).note
      (.launched ⟨ofString "/tool", [ofString "tool"], [], [slash]⟩ true)) :=
  ⟨rfl, by decide, rfl, rfl⟩

end Shell

end LineShell
