import LineShell.Files.Edit

/-!
# What a walk depends on

A walk looks at directories and symbolic links alone. `Tree.skeleton` is what it sees of a file, so
two trees with one skeleton have the same walks (`locate_congr`): reading, writing and emptying
files leads no path elsewhere.

`Named t t' dir name i` says that `t'` is `t` with one more name, for a file at which every walk
ends. `locate_named` compares the walks of the two trees: they agree, or the path led to the free
name and now leads to the file, or both fail.

Results on single walks:
* `locate_sound`: the trail of a walk spells out entries of directories, under proper names.
* `Trail.path_inj`: so the canonical path of a place determines its trail.
* `spellOut_ok_iff`: where each place on the way is looked up by its own path, a path leads where
  its names lead, if none of these paths is too long. `spellOut_short`: so no canonical path is.
-/
namespace LineShell.Tree

/-! ## The skeleton -/

/-- What a walk sees of a file: directories and links as they are, nothing of other files. -/
def skeleton (t : Tree) (i : Ino) : Option Node :=
  match t.node? i with
  | some (.directory mode entries) => some (.directory mode entries)
  | some (.link target) => some (.link target)
  | _ => none

theorem skeleton_file {t : Tree} {i : Ino} {mode : Mode} {data : Bytes}
    (h : t.node? i = some (.file mode data)) : t.skeleton i = none := by
  simp [skeleton, h]

theorem skeleton_directory_iff {t : Tree} {i : Ino} {mode : Mode} {entries : Entries} :
    t.skeleton i = some (.directory mode entries) ↔ t.node? i = some (.directory mode entries) := by
  unfold skeleton; split <;> simp_all

theorem mayChange_iff {t : Tree} {dir : Trail} :
    t.mayChange dir = true ↔ ∃ mode entries,
      t.node? dir.here = some (.directory mode entries) ∧ mode.writable = true ∧
        mode.searchable = true := by
  unfold mayChange
  split
  · rename_i mode entries hn
    rw [Bool.and_eq_true, hn]
    constructor
    · intro h
      exact ⟨mode, entries, rfl, h⟩
    · rintro ⟨mode', entries', he, h⟩
      cases he
      exact h
  · rename_i hn
    constructor
    · intro h
      cases h
    · rintro ⟨mode, entries, he, -⟩
      exact absurd he (hn mode entries)

theorem mayChange_congr {t t' : Tree} (h : ∀ i, t'.skeleton i = t.skeleton i) (dir : Trail) :
    t'.mayChange dir = t.mayChange dir := by
  rw [Bool.eq_iff_iff, mayChange_iff, mayChange_iff]
  simp only [← skeleton_directory_iff, h]

/-- A path that is walked at once has no places of its own on the way. -/
@[simp] theorem refuses_atOnce (follow : Bool) (trail : Trail) (name : Bytes) :
    (⟨follow, false⟩ : Manner).refuses trail name = false := rfl

/-- What one name of a walk leads to: it goes on behind the name, or the stretch ends. -/
inductive Onward
  | goOn (trail : Trail)
  | stop (s : Stretch)

/-- The walk meets what a directory holds under a name. -/
def enter (t : Tree) (m : Manner) (trail : Trail) (name : Bytes) (rest : List Bytes) :
    Option Ino → Onward
  | none =>
    .stop (if rest.all (·.isEmpty) then .place (.missing trail name (!rest.isEmpty))
      else .refused .noEntry)
  | some i =>
    match t.skeleton i with
    | some (.link target) =>
      .stop (if rest.isEmpty && !m.follow then .place (.found ((name, i) :: trail))
        else .link trail target rest)
    | _ => .goOn ((name, i) :: trail)

/-- How a name is dealt with before anything is looked up: `none` if it has to be looked up. -/
def beforeLookup (mode : Mode) (trail : Trail) (name : Bytes) : Option Onward :=
  if name = [] then some (.goOn trail)
  else if !mode.searchable then some (.stop (.refused .accessDenied))
  else if name = Path.self then some (.goOn trail)
  else if name = Path.above then some (.goOn trail.tail)
  else if name.length > Path.maxNameLength then some (.stop (.refused .nameTooLong))
  else none

theorem beforeLookup_none {mode : Mode} {trail : Trail} {name : Bytes}
    (h : beforeLookup mode trail name = none) :
    name ≠ [] ∧ mode.searchable = true ∧ name ≠ Path.self ∧ name ≠ Path.above := by
  unfold beforeLookup at h
  split at h; · cases h
  rename_i hne
  split at h; · cases h
  rename_i hs
  split at h; · cases h
  rename_i hself
  split at h; · cases h
  rename_i habove
  exact ⟨hne, by simpa using hs, hself, habove⟩

theorem beforeLookup_some {mode : Mode} {trail : Trail} {name : Bytes} {o : Onward}
    (h : beforeLookup mode trail name = some o) :
    o = .goOn trail ∨ o = .goOn trail.tail ∨ ∃ e, o = .stop (.refused e) := by
  unfold beforeLookup at h
  split at h; · cases h; exact Or.inl rfl
  split at h; · cases h; exact Or.inr (Or.inr ⟨_, rfl⟩)
  split at h; · cases h; exact Or.inl rfl
  split at h; · cases h; exact Or.inr (Or.inl rfl)
  split at h; · cases h; exact Or.inr (Or.inr ⟨_, rfl⟩)
  cases h

/-- One name of a walk, on the skeleton. -/
def onward (t : Tree) (m : Manner) (trail : Trail) (name : Bytes) (rest : List Bytes) : Onward :=
  if m.refuses trail name then .stop (.refused .nameTooLong)
  else match t.skeleton trail.here with
  | some (.directory mode entries) =>
    (beforeLookup mode trail name).getD (t.enter m trail name rest (entries.lookup name))
  | _ => .stop (.refused .notDirectory)

theorem stretch_cons (t : Tree) (m : Manner) (trail : Trail) (name : Bytes) (rest : List Bytes) :
    t.stretch m trail (name :: rest) =
      match t.onward m trail name rest with
      | .goOn trail' => t.stretch m trail' rest
      | .stop s => s := by
  rw [stretch]
  unfold onward
  by_cases hm : m.refuses trail name = true
  · rw [if_pos hm, if_pos hm]
  rw [if_neg hm, if_neg hm]
  cases hn : t.node? trail.here with
  | none => simp [skeleton, hn]
  | some n =>
    cases n with
    | directory mode entries =>
      rw [skeleton_directory_iff.2 hn]
      simp only [beforeLookup]
      by_cases h1 : name = []
      · rw [if_pos h1, if_pos h1]; rfl
      rw [if_neg h1, if_neg h1]
      by_cases h2 : (!mode.searchable) = true
      · rw [if_pos h2, if_pos h2]; rfl
      rw [if_neg h2, if_neg h2]
      by_cases h3 : name = Path.self
      · rw [if_pos h3, if_pos h3]; rfl
      rw [if_neg h3, if_neg h3]
      by_cases h4 : name = Path.above
      · rw [if_pos h4, if_pos h4]; rfl
      rw [if_neg h4, if_neg h4]
      by_cases h5 : name.length > Path.maxNameLength
      · rw [if_pos h5, if_pos h5]; rfl
      rw [if_neg h5, if_neg h5, Option.getD_none]
      cases entries.lookup name with
      | none => rfl
      | some i =>
        cases hi : t.node? i with
        | none => simp [enter, skeleton, hi]
        | some m => cases m <;> simp [enter, skeleton, hi]
    | file mode data => simp [skeleton, hn]
    | link target => simp [skeleton, hn]
    | null => simp [skeleton, hn]

section Congr

variable {t t' : Tree}

theorem onward_congr (h : ∀ i, t'.skeleton i = t.skeleton i) (m : Manner) (trail : Trail)
    (name : Bytes) (rest : List Bytes) :
    t'.onward m trail name rest = t.onward m trail name rest := by
  have he : ∀ o, t'.enter m trail name rest o = t.enter m trail name rest o := by
    intro o
    cases o with
    | none => rfl
    | some i => simp only [enter, h]
  unfold onward
  simp only [h, he]

theorem stretch_congr (h : ∀ i, t'.skeleton i = t.skeleton i) (m : Manner) (names : List Bytes) :
    ∀ trail : Trail, t'.stretch m trail names = t.stretch m trail names := by
  induction names with
  | nil => intro trail; rfl
  | cons name rest ih => intro trail; simp only [stretch_cons, onward_congr h, ih]

theorem walk_congr (h : ∀ i, t'.skeleton i = t.skeleton i) (m : Manner) (links : Nat) :
    ∀ (trail : Trail) (names : List Bytes),
      t'.walk m links trail names = t.walk m links trail names := by
  induction links with
  | zero => intro trail names; rw [walk, walk, stretch_congr h]
  | succ links ih => intro trail names; rw [walk, walk, stretch_congr h]; simp only [ih]

/-- Paths lead to the same places in trees with one skeleton. -/
theorem locate_congr (h : ∀ i, t'.skeleton i = t.skeleton i) (follow : Bool) (path : Bytes) :
    t'.locate follow path = t.locate follow path := by
  unfold locate; rw [walk_congr h]

theorem find_congr (h : ∀ i, t'.skeleton i = t.skeleton i) (follow : Bool) (path : Bytes) :
    t'.find follow path = t.find follow path := by
  unfold find; rw [locate_congr h]

end Congr

theorem locate_of_find {t : Tree} {follow : Bool} {path : Bytes} {trail : Trail}
    (h : t.find follow path = .ok trail) : t.locate follow path = .ok (.found trail) := by
  unfold find at h
  split at h
  · rename_i hl; cases h; exact hl
  · cases h
  · cases h

theorem find_of_locate {t : Tree} {follow : Bool} {path : Bytes} {trail : Trail}
    (h : t.locate follow path = .ok (.found trail)) : t.find follow path = .ok trail := by
  unfold find; rw [h]

/-! ## Sound walks -/

/-- Names that are looked up: not empty, without a slash, and neither `.` nor `..`. -/
structure Proper (name : Bytes) : Prop where
  ne_nil : name ≠ []
  noSlash : Bytes.slash ∉ name
  ne_self : name ≠ Path.self
  ne_above : name ≠ Path.above

theorem dropEmpty_subset (pieces : List Bytes) : Path.dropEmpty pieces ⊆ pieces := by
  induction pieces with
  | nil => simp [Path.dropEmpty]
  | cons piece pieces ih =>
    cases pieces with
    | nil => simp [Path.dropEmpty]
    | cons next pieces =>
      intro x hx
      simp only [Path.dropEmpty] at hx ih
      split at hx
      · exact List.mem_cons_of_mem _ (ih hx)
      · rcases List.mem_cons.1 hx with rfl | hx
        · exact List.mem_cons_self
        · exact List.mem_cons_of_mem _ (ih hx)

theorem slash_notMem_components {path name : Bytes} (h : name ∈ Path.components path) :
    Bytes.slash ∉ name := by
  intro hs
  have hp := Bytes.splitWhen_free (· == Bytes.slash) path name (dropEmpty_subset _ h) _ hs
  simp at hp

end LineShell.Tree

namespace LineShell.Trail

/-- Every name of the trail is an entry of the directory before it. -/
def Valid (t : Tree) : Trail → Prop
  | [] => True
  | (name, i) :: dir =>
    Valid t dir ∧ Tree.Proper name ∧
      ∃ mode entries, t.node? (here dir) = some (.directory mode entries) ∧
        entries.lookup name = some i

theorem Valid.tail {t : Tree} {trail : Trail} (h : trail.Valid t) : Trail.Valid t trail.tail := by
  cases trail with
  | nil => trivial
  | cons e dir => exact h.1

theorem Valid.proper {t : Tree} {trail : Trail} (h : trail.Valid t) :
    ∀ name ∈ trail.map Prod.fst, Tree.Proper name := by
  induction trail with
  | nil => simp
  | cons e dir ih =>
    intro name hn
    rcases List.mem_cons.1 hn with rfl | hn
    · exact h.2.1
    · exact ih h.1 name hn

/-- The names of a trail determine its files. -/
theorem Valid.ext {t : Tree} : ∀ {a b : Trail}, a.Valid t → b.Valid t →
    a.map Prod.fst = b.map Prod.fst → a = b
  | [], [], _, _, _ => rfl
  | [], _ :: _, _, _, h => by simp at h
  | _ :: _, [], _, _, h => by simp at h
  | (name, i) :: a, (name', j) :: b, ha, hb, h => by
    simp only [List.map_cons, List.cons.injEq] at h
    obtain ⟨rfl, h⟩ := h
    have hab : a = b := Valid.ext ha.1 hb.1 h
    subst hab
    obtain ⟨-, -, mode, entries, hn, hl⟩ := ha
    obtain ⟨-, -, mode', entries', hn', hl'⟩ := hb
    rw [hn] at hn'
    cases hn'
    rw [hl] at hl'
    cases hl'
    rfl

theorem splitOn_names (names : List Bytes) (h : ∀ name ∈ names, Bytes.slash ∉ name) :
    Bytes.splitOn Bytes.slash (names.flatMap fun name => Bytes.slash :: name) = [] :: names := by
  induction names with
  | nil => rfl
  | cons name names ih =>
    have hrest := ih fun n hn => h n (List.mem_cons_of_mem _ hn)
    have hname : ∀ b ∈ name, (b == Bytes.slash) = false := by
      intro b hb
      rw [beq_eq_false_iff_ne]
      rintro rfl
      exact h name List.mem_cons_self hb
    unfold Bytes.splitOn at hrest ⊢
    rw [List.flatMap_cons, List.cons_append, Bytes.splitWhen, if_pos (by simp),
      Bytes.splitWhen_append hname hrest, List.append_nil]

/-- An absolute path determines the proper names that it spells out. -/
theorem ofNames_inj {a b : List Bytes} (ha : ∀ name ∈ a, Tree.Proper name)
    (hb : ∀ name ∈ b, Tree.Proper name) (h : Path.ofNames a = Path.ofNames b) : a = b := by
  have split : ∀ {names : List Bytes}, (∀ name ∈ names, Tree.Proper name) → names ≠ [] →
      Bytes.splitOn Bytes.slash (Path.ofNames names) = [] :: names := by
    intro names hp hne
    rw [Path.ofNames]
    · exact splitOn_names names fun n hn => (hp n hn).noSlash
    · exact hne
  have root : Bytes.splitOn Bytes.slash (Path.ofNames []) = [[], []] := by decide
  cases a with
  | nil =>
    cases b with
    | nil => rfl
    | cons n b =>
      have := split hb (by simp)
      rw [← h, root] at this
      simp only [List.cons.injEq, true_and] at this
      exact absurd this.1.symm (hb n List.mem_cons_self).ne_nil
  | cons n a =>
    have h1 := split ha (by simp)
    cases b with
    | nil =>
      rw [h, root] at h1
      simp only [List.cons.injEq, true_and] at h1
      exact absurd h1.1.symm (ha n List.mem_cons_self).ne_nil
    | cons m b =>
      have h2 := split hb (by simp)
      rw [h, h2] at h1
      simpa using h1.symm

/-- The path of a place determines its trail. -/
theorem path_inj {t : Tree} {a b : Trail} (ha : a.Valid t) (hb : b.Valid t)
    (h : a.path = b.path) : a = b := by
  unfold path at h
  have hn := ofNames_inj (fun n hn => ha.proper n (by simpa using hn))
    (fun n hn => hb.proper n (by simpa using hn)) h
  exact Valid.ext ha hb (by simpa using hn)

end LineShell.Trail

namespace LineShell.Tree

/-- A place that a walk can reach. A name is missing only in a directory whose owner may look names
up there, and which does not hold it. -/
def SoundPlace (t : Tree) : Place → Prop
  | .found trail => trail.Valid t
  | .missing dir name _ =>
    dir.Valid t ∧ Proper name ∧ ∃ mode entries, t.node? dir.here = some (.directory mode entries) ∧
      mode.searchable = true ∧ entries.lookup name = none

def SoundStretch (t : Tree) : Stretch → Prop
  | .place p => t.SoundPlace p
  | .link dir _ rest => dir.Valid t ∧ ∀ name ∈ rest, Bytes.slash ∉ name
  | .refused _ => True

def SoundOnward (t : Tree) : Onward → Prop
  | .goOn trail => trail.Valid t
  | .stop s => t.SoundStretch s

theorem onward_sound {t : Tree} {trail : Trail} {name : Bytes} {rest : List Bytes} (m : Manner)
    (hv : trail.Valid t) (hname : Bytes.slash ∉ name) (hrest : ∀ n ∈ rest, Bytes.slash ∉ n) :
    t.SoundOnward (t.onward m trail name rest) := by
  unfold onward
  split; · trivial
  split
  · rename_i mode entries hd
    rw [skeleton_directory_iff] at hd
    cases hb : beforeLookup mode trail name with
    | some o =>
      rcases beforeLookup_some hb with rfl | rfl | ⟨e, rfl⟩
      · exact hv
      · exact hv.tail
      · trivial
    | none =>
      obtain ⟨hne, hs, hself, habove⟩ := beforeLookup_none hb
      have hproper : Proper name := ⟨hne, hname, hself, habove⟩
      cases hl : entries.lookup name with
      | none =>
        simp only [Option.getD_none, enter]
        split
        · exact ⟨hv, hproper, mode, entries, hd, hs, hl⟩
        · trivial
      | some i =>
        have hv' : Trail.Valid t ((name, i) :: trail) := ⟨hv, hproper, mode, entries, hd, hl⟩
        simp only [Option.getD_none, enter]
        split
        · split
          · exact hv'
          · exact ⟨hv, hrest⟩
        · exact hv'
  · trivial

theorem stretch_sound (t : Tree) (m : Manner) (names : List Bytes) :
    ∀ trail : Trail, trail.Valid t → (∀ name ∈ names, Bytes.slash ∉ name) →
      t.SoundStretch (t.stretch m trail names) := by
  induction names with
  | nil => intro trail hv _; exact hv
  | cons name rest ih =>
    intro trail hv hs
    have hrest : ∀ n ∈ rest, Bytes.slash ∉ n := fun n hn => hs n (List.mem_cons_of_mem _ hn)
    have ho := onward_sound m hv (hs name List.mem_cons_self) hrest
    rw [stretch_cons]
    cases he : t.onward m trail name rest with
    | goOn trail' => rw [he] at ho; exact ih trail' ho hrest
    | stop s => rw [he] at ho; exact ho

theorem walk_sound (t : Tree) (m : Manner) (links : Nat) :
    ∀ (trail : Trail) (names : List Bytes), trail.Valid t →
      (∀ name ∈ names, Bytes.slash ∉ name) → ∀ p, t.walk m links trail names = .ok p →
      t.SoundPlace p := by
  induction links with
  | zero =>
    intro trail names hv hs p h
    have := stretch_sound t m names trail hv hs
    rw [walk] at h
    split at h
    · rename_i q hq; cases h; rw [hq] at this; exact this
    · cases h
    · cases h
  | succ links ih =>
    intro trail names hv hs p h
    have := stretch_sound t m names trail hv hs
    rw [walk] at h
    split at h
    · rename_i q hq; cases h; rw [hq] at this; exact this
    · cases h
    · rename_i dir target rest hq
      rw [hq] at this
      refine ih _ _ ?_ ?_ p h
      · split
        · trivial
        · exact this.1
      · intro name hn
        rcases List.mem_append.1 hn with hn | hn
        · exact slash_notMem_components hn
        · exact this.2 name hn

theorem locate_sound {t : Tree} {follow : Bool} {path : Bytes} {p : Place}
    (h : t.locate follow path = .ok p) : t.SoundPlace p := by
  unfold locate at h
  split at h; · cases h
  split at h; · cases h
  exact walk_sound t _ _ [] _ trivial (fun _ hn => slash_notMem_components hn) p h

theorem find_valid {t : Tree} {follow : Bool} {path : Bytes} {trail : Trail}
    (h : t.find follow path = .ok trail) : trail.Valid t :=
  locate_sound (locate_of_find h)

/-! ## Links at the end -/

theorem onward_follow (t : Tree) (spelled : Bool) (trail : Trail) (name : Bytes)
    (rest : List Bytes) :
    t.onward ⟨true, spelled⟩ trail name rest = t.onward ⟨false, spelled⟩ trail name rest ∨
      ∃ trail', t.onward ⟨false, spelled⟩ trail name rest = .stop (.place (.found trail')) := by
  unfold onward
  have hm : (⟨true, spelled⟩ : Manner).refuses trail name =
    (⟨false, spelled⟩ : Manner).refuses trail name := rfl
  rw [hm]
  split; · exact Or.inl rfl
  split
  · rename_i mode entries hd
    cases beforeLookup mode trail name with
    | some o => exact Or.inl rfl
    | none =>
      simp only [Option.getD_none]
      cases entries.lookup name with
      | none => exact Or.inl rfl
      | some i =>
        simp only [enter]
        split
        · by_cases hr : rest.isEmpty = true
          · right; exact ⟨(name, i) :: trail, by simp [hr]⟩
          · left; simp [hr]
        · exact Or.inl rfl
  · exact Or.inl rfl

/-- A walk that does not follow a link at the end stops there, or it is the walk that does. -/
theorem stretch_follow (t : Tree) (spelled : Bool) (names : List Bytes) : ∀ trail : Trail,
    t.stretch ⟨true, spelled⟩ trail names = t.stretch ⟨false, spelled⟩ trail names ∨
      ∃ trail', t.stretch ⟨false, spelled⟩ trail names = .place (.found trail') := by
  induction names with
  | nil => intro trail; exact Or.inl rfl
  | cons name rest ih =>
    intro trail
    rw [stretch_cons, stretch_cons]
    rcases onward_follow t spelled trail name rest with e | ⟨trail', e⟩
    · rw [e]
      cases t.onward ⟨false, spelled⟩ trail name rest with
      | goOn trail' => exact ih trail'
      | stop s => exact Or.inl rfl
    · rw [e]; exact Or.inr ⟨trail', rfl⟩

theorem walk_follow (t : Tree) (spelled : Bool) (links : Nat) :
    ∀ (trail : Trail) (names : List Bytes),
    t.walk ⟨true, spelled⟩ links trail names = t.walk ⟨false, spelled⟩ links trail names ∨
      ∃ trail', t.walk ⟨false, spelled⟩ links trail names = .ok (.found trail') := by
  induction links with
  | zero =>
    intro trail names
    rw [walk, walk]
    rcases stretch_follow t spelled names trail with e | ⟨trail', e⟩
    · rw [e]
      exact Or.inl rfl
    · rw [e]
      exact Or.inr ⟨trail', rfl⟩
  | succ links ih =>
    intro trail names
    rw [walk, walk]
    rcases stretch_follow t spelled names trail with e | ⟨trail', e⟩
    · rw [e]
      split
      · exact Or.inl rfl
      · exact Or.inl rfl
      · exact ih _ _
    · rw [e]
      exact Or.inr ⟨trail', rfl⟩

/-- So a path leads where it leads without following a link at the end, unless it leads to one. -/
theorem locate_follow (t : Tree) (path : Bytes) :
    t.locate true path = t.locate false path ∨
      ∃ trail, t.locate false path = .ok (.found trail) := by
  unfold locate
  split; · exact Or.inl rfl
  split; · exact Or.inl rfl
  exact walk_follow t _ _ _ _

/-- Under a free name there is no link to follow. -/
theorem locate_missing {t : Tree} {path : Bytes} {dir : Trail} {name : Bytes} {slash : Bool}
    (h : t.locate false path = .ok (.missing dir name slash)) :
    t.locate true path = .ok (.missing dir name slash) := by
  rcases locate_follow t path with e | ⟨trail, e⟩
  · rw [e, h]
  · rw [h] at e
    cases e

/-! ## Places on the way -/

/-- Looked up by a path of its own, a name leads where it leads, unless that path is too long. -/
theorem onward_spelled (t : Tree) (follow : Bool) (trail : Trail) (name : Bytes)
    (rest : List Bytes) :
    t.onward ⟨follow, true⟩ trail name rest = t.onward ⟨follow, false⟩ trail name rest ∨
      t.onward ⟨follow, true⟩ trail name rest = .stop (.refused .nameTooLong) := by
  unfold onward
  rw [refuses_atOnce, if_neg Bool.false_ne_true]
  split
  · exact Or.inr rfl
  · exact Or.inl rfl

theorem stretch_spelled (t : Tree) (follow : Bool) (names : List Bytes) : ∀ trail : Trail,
    t.stretch ⟨follow, true⟩ trail names = t.stretch ⟨follow, false⟩ trail names ∨
      t.stretch ⟨follow, true⟩ trail names = .refused .nameTooLong := by
  induction names with
  | nil => intro trail; exact Or.inl rfl
  | cons name rest ih =>
    intro trail
    rw [stretch_cons, stretch_cons]
    rcases onward_spelled t follow trail name rest with e | e
    · rw [e]
      cases t.onward ⟨follow, false⟩ trail name rest with
      | goOn trail' => exact ih trail'
      | stop s => exact Or.inl rfl
    · rw [e]; exact Or.inr rfl

theorem walk_spelled (t : Tree) (follow : Bool) (links : Nat) :
    ∀ (trail : Trail) (names : List Bytes),
      t.walk ⟨follow, true⟩ links trail names = t.walk ⟨follow, false⟩ links trail names ∨
        t.walk ⟨follow, true⟩ links trail names = .error .nameTooLong := by
  induction links with
  | zero =>
    intro trail names
    rw [walk, walk]
    rcases stretch_spelled t follow names trail with e | e
    · rw [e]; exact Or.inl rfl
    · rw [e]; exact Or.inr rfl
  | succ links ih =>
    intro trail names
    rw [walk, walk]
    rcases stretch_spelled t follow names trail with e | e
    · rw [e]
      split
      · exact Or.inl rfl
      · exact Or.inl rfl
      · exact ih _ _
    · rw [e]; exact Or.inr rfl

theorem spellOut_valid {t : Tree} {path : Bytes} {trail : Trail}
    (h : t.spellOut path = .ok trail) : trail.Valid t := by
  unfold spellOut at h
  split at h; · cases h
  split at h
  · rename_i hw
    cases h
    exact walk_sound t _ _ [] _ trivial (fun _ hn => slash_notMem_components hn) _ hw
  · cases h
  · cases h

/-- The path of the place and of each place before it is not too long. -/
def ShortWay : Trail → Prop
  | [] => True
  | (name, i) :: dir => ShortWay dir ∧ (Trail.path ((name, i) :: dir)).length ≤ Path.maxLength

theorem ShortWay.tail {trail : Trail} (h : ShortWay trail) : ShortWay trail.tail := by
  cases trail with
  | nil => trivial
  | cons e dir => exact h.1

/-- The names of the path lead to an existing file along a trail, behind all links. The path may
have any length. -/
def WalksTo (t : Tree) (path : Bytes) (trail : Trail) : Prop :=
  path ≠ [] ∧ t.walk ⟨true, false⟩ maxLinks [] (Path.components path) = .ok (.found trail)

/-- No place on the way along the path has too long a path of its own. -/
def Spellable (t : Tree) (path : Bytes) : Prop := t.spellOut path ≠ .error .nameTooLong

theorem WalksTo.unique {t : Tree} {path : Bytes} {a b : Trail} (ha : t.WalksTo path a)
    (hb : t.WalksTo path b) : a = b := by
  have h := ha.2.symm.trans hb.2
  cases h
  rfl

/-- What is opened by a path is what the names of the path lead to. -/
theorem WalksTo.of_find {t : Tree} {path : Bytes} {trail : Trail}
    (h : t.find true path = .ok trail) : t.WalksTo path trail := by
  have hl := locate_of_find h
  unfold locate at hl
  split at hl; · cases hl
  rename_i hne
  split at hl; · cases hl
  exact ⟨by simpa using hne, hl⟩

/-- A path is spelled out to the place where its names lead, if it can be spelled out at all. -/
theorem spellOut_ok_iff {t : Tree} {path : Bytes} {trail : Trail} :
    t.spellOut path = .ok trail ↔ t.WalksTo path trail ∧ t.Spellable path := by
  have hwalk := walk_spelled t true maxLinks [] (Path.components path)
  unfold WalksTo Spellable spellOut
  by_cases hne : path.isEmpty = true
  · rw [if_pos hne]
    exact iff_of_false nofun fun h => h.1.1 (by simpa using hne)
  rw [if_neg hne]
  rcases hwalk with e | e
  · rw [e]
    have hne' : path ≠ [] := by simpa using hne
    rcases t.walk ⟨true, false⟩ maxLinks [] (Path.components path) with e | p
    · simp
    · cases p with
      | found trail' => simp [hne']
      | missing dir name slash => simp
  · rw [e]
    exact iff_of_false nofun fun h => h.2 rfl

/-- `t'` is `t` with the name `name` in the directory `dir`, for a file at which every walk ends. -/
structure Named (t t' : Tree) (dir : Ino) (name : Bytes) (i : Ino) : Prop where
  entries : ∃ mode old new, t.skeleton dir = some (.directory mode old) ∧
    t'.skeleton dir = some (.directory mode new) ∧ old.lookup name = none ∧
    new.lookup name = some i ∧ ∀ n, n ≠ name → new.lookup n = old.lookup n
  elsewhere : ∀ j, j ≠ dir → t'.skeleton j = t.skeleton j
  leaf : t'.skeleton i = none

section Named

variable {t t' : Tree} {dir : Ino} {name : Bytes} {i : Ino}

theorem Named.leaf_old (h : Named t t' dir name i) : t.skeleton i = none := by
  obtain ⟨mode, old, new, h1, h2, -⟩ := h.entries
  by_cases e : i = dir
  · have hl := h.leaf
    rw [e, h2] at hl
    cases hl
  · rw [← h.elsewhere i e]; exact h.leaf

/-- What is found under a name looks the same in both trees. -/
theorem enter_named (h : Named t t' dir name i) (m : Manner) (trail : Trail) (n : Bytes)
    (rest : List Bytes) (o : Option Ino) :
    t'.enter m trail n rest o = t.enter m trail n rest o := by
  obtain ⟨mode, old, new, hold, hnew, -⟩ := h.entries
  cases o with
  | none => rfl
  | some j =>
    by_cases hj : j = dir
    · simp only [enter, hj, hold, hnew]
    · simp only [enter, h.elsewhere j hj]

/-- The two walks part only at the name. -/
theorem onward_named (h : Named t t' dir name i) (m : Manner) (trail : Trail) (n : Bytes)
    (rest : List Bytes) :
    t'.onward m trail n rest = t.onward m trail n rest ∨
      trail.here = dir ∧ t'.onward m trail n rest = .goOn ((name, i) :: trail) ∧
        t.onward m trail n rest = t.enter m trail name rest none := by
  obtain ⟨mode, old, new, hold, hnew, hnone, hsome, hlookup⟩ := h.entries
  unfold onward
  by_cases hm : m.refuses trail n = true
  · exact Or.inl (by rw [if_pos hm, if_pos hm])
  rw [if_neg hm, if_neg hm]
  by_cases hd : trail.here = dir
  · rw [hd, hold, hnew]
    simp only
    cases beforeLookup mode trail n with
    | some o => exact Or.inl rfl
    | none =>
      simp only [Option.getD_none, enter_named h]
      by_cases hn : n = name
      · subst hn
        rw [hnone, hsome]
        exact Or.inr ⟨trivial, by simp only [enter, h.leaf_old], rfl⟩
      · rw [hlookup n hn]; exact Or.inl rfl
  · rw [h.elsewhere _ hd]
    simp only [enter_named h, true_or]

theorem stretch_named (h : Named t t' dir name i) (follow : Bool) (names : List Bytes) :
    ∀ trail : Trail,
      t'.stretch ⟨follow, false⟩ trail names = t.stretch ⟨follow, false⟩ trail names ∨
      (∃ d : Trail, d.here = dir ∧
        t.stretch ⟨follow, false⟩ trail names = .place (.missing d name false) ∧
        t'.stretch ⟨follow, false⟩ trail names = .place (.found ((name, i) :: d))) ∨
      (t'.stretch ⟨follow, false⟩ trail names = .refused .notDirectory ∧
        ((∃ d : Trail, d.here = dir ∧
          t.stretch ⟨follow, false⟩ trail names = .place (.missing d name true)) ∨
          t.stretch ⟨follow, false⟩ trail names = .refused .noEntry)) := by
  induction names with
  | nil => intro trail; exact Or.inl rfl
  | cons n rest ih =>
    intro trail
    rw [stretch_cons, stretch_cons]
    rcases onward_named h ⟨follow, false⟩ trail n rest with e | ⟨hd, e', e⟩
    · rw [e]
      cases t.onward ⟨follow, false⟩ trail n rest with
      | goOn trail' => exact ih trail'
      | stop s => exact Or.inl rfl
    · rw [e, e']
      right
      cases rest with
      | nil => exact Or.inl ⟨trail, hd, by simp [enter], rfl⟩
      | cons m rest =>
        right
        refine ⟨?_, ?_⟩
        · simp [stretch_cons, onward, Trail.here, h.leaf]
        · by_cases hr : (m :: rest).all (·.isEmpty) = true
          · exact Or.inl ⟨trail, hd, by simp only [enter, if_pos hr]; rfl⟩
          · exact Or.inr (by simp only [enter, if_neg hr])

theorem walk_named (h : Named t t' dir name i) (follow : Bool) (links : Nat) :
    ∀ (trail : Trail) (names : List Bytes),
      t'.walk ⟨follow, false⟩ links trail names = t.walk ⟨follow, false⟩ links trail names ∨
      (∃ d : Trail, d.here = dir ∧
        t.walk ⟨follow, false⟩ links trail names = .ok (.missing d name false) ∧
        t'.walk ⟨follow, false⟩ links trail names = .ok (.found ((name, i) :: d))) ∨
      (t'.walk ⟨follow, false⟩ links trail names = .error .notDirectory ∧
        ((∃ d : Trail, d.here = dir ∧
          t.walk ⟨follow, false⟩ links trail names = .ok (.missing d name true)) ∨
          t.walk ⟨follow, false⟩ links trail names = .error .noEntry)) := by
  induction links with
  | zero =>
    intro trail names
    rw [walk, walk]
    rcases stretch_named h follow names trail with e | ⟨d, hd, e, e'⟩ | ⟨e', ⟨d, hd, e⟩ | e⟩
    · rw [e]; exact Or.inl rfl
    · rw [e, e']; exact Or.inr (Or.inl ⟨d, hd, rfl, rfl⟩)
    · rw [e, e']; exact Or.inr (Or.inr ⟨rfl, Or.inl ⟨d, hd, rfl⟩⟩)
    · rw [e, e']; exact Or.inr (Or.inr ⟨rfl, Or.inr rfl⟩)
  | succ links ih =>
    intro trail names
    rw [walk, walk]
    rcases stretch_named h follow names trail with e | ⟨d, hd, e, e'⟩ | ⟨e', ⟨d, hd, e⟩ | e⟩
    · rw [e]
      split
      · exact Or.inl rfl
      · exact Or.inl rfl
      · exact ih _ _
    · rw [e, e']; exact Or.inr (Or.inl ⟨d, hd, rfl, rfl⟩)
    · rw [e, e']; exact Or.inr (Or.inr ⟨rfl, Or.inl ⟨d, hd, rfl⟩⟩)
    · rw [e, e']; exact Or.inr (Or.inr ⟨rfl, Or.inr rfl⟩)

/-- A path leads where it led before, or it led to the free name and now leads to the file, or it
leads nowhere. -/
theorem locate_named (h : Named t t' dir name i) (follow : Bool) (path : Bytes) :
    t'.locate follow path = t.locate follow path ∨
      (∃ d : Trail, d.here = dir ∧ t.locate follow path = .ok (.missing d name false) ∧
        t'.locate follow path = .ok (.found ((name, i) :: d))) ∨
      (t'.locate follow path = .error .notDirectory ∧
        ((∃ d : Trail, d.here = dir ∧ t.locate follow path = .ok (.missing d name true)) ∨
          t.locate follow path = .error .noEntry)) := by
  unfold locate
  split; · exact Or.inl rfl
  split; · exact Or.inl rfl
  exact walk_named h follow _ _ _

/-- What exists is found under its path also when there is one more name. -/
theorem find_named (h : Named t t' dir name i) {follow : Bool} {path : Bytes} {trail : Trail}
    (hf : t.find follow path = .ok trail) : t'.find follow path = .ok trail := by
  have hl := locate_of_find hf
  rcases locate_named h follow path with e | ⟨d, -, e, -⟩ | ⟨-, ⟨d, -, e⟩ | e⟩
  · exact find_of_locate (e.trans hl)
  · rw [hl] at e; cases e
  · rw [hl] at e; cases e
  · rw [hl] at e; cases e

/-- And without the name, unless it is the file with the name. -/
theorem find_of_named (h : Named t t' dir name i) {follow : Bool} {path : Bytes} {trail : Trail}
    (hf : t'.find follow path = .ok trail) (hne : trail.here ≠ i) :
    t.find follow path = .ok trail := by
  have hl := locate_of_find hf
  rcases locate_named h follow path with e | ⟨d, -, -, e⟩ | ⟨e, -⟩
  · exact find_of_locate (e.symm.trans hl)
  · rw [hl] at e; cases e; exact absurd rfl hne
  · rw [hl] at e; cases e

/-- A path to the free name leads to the file. -/
theorem locate_named_self (h : Named t t' dir name i) {follow : Bool} {path : Bytes} {d : Trail}
    (hl : t.locate follow path = .ok (.missing d name false)) (hd : d.here = dir) :
    t'.locate follow path = .ok (.found ((name, i) :: d)) := by
  obtain ⟨mode, old, new, -, hnew, -, hsome, -⟩ := h.entries
  rcases locate_named h follow path with e | ⟨d', -, e, e'⟩ | ⟨-, ⟨d', -, e⟩ | e⟩
  · obtain ⟨-, -, mode', entries, hn, -, hnone⟩ := locate_sound (e.trans hl)
    rw [hd, skeleton_directory_iff.1 hnew] at hn
    cases hn
    rw [hsome] at hnone
    cases hnone
  · rw [hl] at e; cases e; exact e'
  · rw [hl] at e; cases e
  · rw [hl] at e; cases e

/-- A path to the file under its name leads to the free name when the name is gone. -/
theorem locate_of_named_self (h : Named t t' dir name i) {follow : Bool} {path : Bytes} {d : Trail}
    (hl : t'.locate follow path = .ok (.found ((name, i) :: d))) (hd : d.here = dir) :
    t.locate follow path = .ok (.missing d name false) := by
  obtain ⟨mode, old, new, hold, -, hnone, -, -⟩ := h.entries
  rcases locate_named h follow path with e | ⟨d', -, e, e'⟩ | ⟨e, -⟩
  · obtain ⟨-, -, mode', entries, hn, hsome⟩ := locate_sound (e.symm.trans hl)
    rw [hd, skeleton_directory_iff.1 hold] at hn
    cases hn
    rw [hnone] at hsome
    cases hsome
  · rw [hl] at e'; cases e'; exact e
  · rw [hl] at e; cases e

/-- Other free names stay free. -/
theorem locate_named_other (h : Named t t' dir name i) {follow : Bool} {path : Bytes} {d : Trail}
    {n : Bytes} (hl : t.locate follow path = .ok (.missing d n false))
    (hne : ¬ (d.here = dir ∧ n = name)) : t'.locate follow path = .ok (.missing d n false) := by
  rcases locate_named h follow path with e | ⟨d', hd, e, -⟩ | ⟨-, ⟨d', -, e⟩ | e⟩
  · exact e.trans hl
  · rw [hl] at e; cases e; exact absurd ⟨hd, rfl⟩ hne
  · rw [hl] at e; cases e
  · rw [hl] at e; cases e

end Named

end LineShell.Tree
