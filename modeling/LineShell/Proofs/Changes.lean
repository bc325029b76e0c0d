import LineShell.Proofs.Walks

/-!
# What changing a tree leaves alone

* `Kept files names t t'`: every file of `t` is in `t'` with its kind, its permissions and its link
  target; only the contents of the files in `files` and the entries in `names` may differ.
* `kept_write`, `kept_truncate`, `kept_append`: the content of one file changes, and no path leads
  elsewhere (`skeleton_write` and so on).
* `openCreating_cases`: opening for writing finds a file or makes one, under one free name.
* `unlink_cases`: unlinking takes one name away.
* `named_unbind`, `Created.named`: with and without the name the trees are `Named`.
-/
namespace LineShell

/-! ## Entries -/

namespace Entries

theorem lookup_append_self {es : Entries} {name : Bytes} {i : Ino} (h : es.lookup name = none) :
    (es ++ [(name, i)]).lookup name = some i := by
  induction es with
  | nil => simp
  | cons e es ih =>
    obtain ⟨n, j⟩ := e
    by_cases hn : name = n
    · simp [hn] at h
    · have hb : (name == n) = false := by simpa using hn
      simp only [List.lookup_cons, hb] at h
      simpa [List.lookup_cons, hb] using ih h

theorem lookup_append_ne {es : Entries} {name n : Bytes} {i : Ino} (h : n ≠ name) :
    (es ++ [(name, i)]).lookup n = es.lookup n := by
  have hb : (n == name) = false := by simpa using h
  induction es with
  | nil => simp [List.lookup_cons, hb]
  | cons e es ih =>
    obtain ⟨m, j⟩ := e
    simp only [List.cons_append, List.lookup_cons, ih]

theorem lookup_filter_self (es : Entries) (name : Bytes) :
    (es.filter fun e => e.1 != name).lookup name = none := by
  rw [List.lookup_eq_none_iff]
  intro e he
  have hne := (List.mem_filter.1 he).2
  simp only [bne_iff_ne, ne_eq] at hne
  simpa using fun h => hne h.symm

theorem lookup_filter_ne (es : Entries) {name n : Bytes} (h : n ≠ name) :
    (es.filter fun e => e.1 != name).lookup n = es.lookup n := by
  induction es with
  | nil => rfl
  | cons e es ih =>
    obtain ⟨m, j⟩ := e
    by_cases hm : m = name
    · subst hm
      have hb : (n == m) = false := by simpa using h
      simpa [List.lookup_cons, hb] using ih
    · simp [hm, List.lookup_cons, ih]

end Entries

namespace Tree

/-! ## Contents -/

section Contents

variable {t : Tree} {i : Ino} {mode : Mode} {data : Bytes}

theorem skeleton_put_file (h : t.node? i = some (.file mode data)) (mode' : Mode) (data' : Bytes)
    (j : Ino) : (t.put i (.file mode' data')).skeleton j = t.skeleton j := by
  by_cases hj : j = i
  · subst hj
    rw [skeleton_file (node?_put_self h), skeleton_file h]
  · unfold skeleton; rw [node?_put_ne hj]

theorem skeleton_write (t : Tree) (i : Ino) (start : Nat) (bs : Bytes) (j : Ino) :
    (t.write i start bs).skeleton j = t.skeleton j := by
  unfold write
  split
  · rename_i h; exact skeleton_put_file h _ _ j
  · rfl

theorem skeleton_truncate (t : Tree) (i j : Ino) : (t.truncate i).skeleton j = t.skeleton j := by
  unfold truncate
  split
  · rename_i h; exact skeleton_put_file h _ _ j
  · rfl

theorem skeleton_append (t : Tree) (i : Ino) (bs : Bytes) (j : Ino) :
    (t.append i bs).skeleton j = t.skeleton j := skeleton_write t i _ bs j

theorem node?_write (h : t.node? i = some (.file mode data)) (start : Nat) (bs : Bytes) :
    (t.write i start bs).node? i = some (.file mode (splice data start bs)) := by
  unfold write; rw [h]; exact node?_put_self h

theorem node?_write_ne (start : Nat) (bs : Bytes) {j : Ino} (hj : j ≠ i) :
    (t.write i start bs).node? j = t.node? j := by
  unfold write
  split
  · exact node?_put_ne hj
  · rfl

theorem node?_truncate (h : t.node? i = some (.file mode data)) :
    (t.truncate i).node? i = some (.file mode []) := by
  unfold truncate; rw [h]; exact node?_put_self h

theorem node?_truncate_ne {j : Ino} (hj : j ≠ i) : (t.truncate i).node? j = t.node? j := by
  unfold truncate
  split
  · exact node?_put_ne hj
  · rfl

theorem node?_append_ne (bs : Bytes) {j : Ino} (hj : j ≠ i) :
    (t.append i bs).node? j = t.node? j := node?_write_ne _ bs hj

theorem contents_file (h : t.node? i = some (.file mode data)) : t.contents i = data := by
  unfold contents; rw [h]

/-- Only a regular file holds bytes. -/
theorem file_of_contents (h : t.contents i ≠ []) :
    ∃ mode data, t.node? i = some (.file mode data) := by
  unfold contents at h
  split at h
  · rename_i mode data hn
    exact ⟨mode, data, hn⟩
  · exact absurd rfl h

theorem contents_truncate (t : Tree) (i : Ino) : (t.truncate i).contents i = [] := by
  cases hn : t.node? i with
  | none => simp [truncate, contents, hn]
  | some n =>
    cases n with
    | file mode data => exact contents_file (node?_truncate hn)
    | directory mode es => simp [truncate, contents, hn]
    | link target => simp [truncate, contents, hn]
    | null => simp [truncate, contents, hn]

theorem contents_append_ne (bs : Bytes) {j : Ino} (hj : j ≠ i) :
    (t.append i bs).contents j = t.contents j := by
  unfold contents
  rw [node?_append_ne bs hj]

theorem put_self {n : Node} (h : t.node? i = some n) : t.put i n = t := by
  obtain ⟨nodes⟩ := t
  obtain ⟨hlt, hn⟩ := List.getElem?_eq_some_iff.1 h
  simp only [put, Tree.mk.injEq]
  rw [← hn, List.set_getElem_self]

theorem put_put (t : Tree) (i : Ino) (n n' : Node) : (t.put i n).put i n' = t.put i n' := by
  simp [put]

theorem append_file (h : t.node? i = some (.file mode data)) (bs : Bytes) :
    t.append i bs = t.put i (.file mode (data ++ bs)) := by
  unfold append write
  rw [h, contents_file h]
  simp only [splice_end]

/-- Only a regular file takes bytes. -/
theorem append_other (h : ∀ mode data, t.node? i ≠ some (.file mode data)) (bs : Bytes) :
    t.append i bs = t := by
  unfold append write
  split
  · rename_i mode data hn
    exact absurd hn (h mode data)
  · rfl

theorem write_nil (t : Tree) (i : Ino) (start : Nat) : t.write i start [] = t := by
  unfold write
  split
  · rename_i h
    exact put_self h
  · rfl

/-- Bytes written at the end one after the other are there together. -/
theorem append_append (t : Tree) (i : Ino) (bs bs' : Bytes) :
    (t.append i bs).append i bs' = t.append i (bs ++ bs') := by
  by_cases h : ∃ mode data, t.node? i = some (.file mode data)
  · obtain ⟨mode, data, h⟩ := h
    rw [append_file (contents_append bs h), append_file h, append_file h, put_put,
      List.append_assoc]
  · have hother : ∀ bs, t.append i bs = t :=
      append_other fun mode data hn => h ⟨mode, data, hn⟩
    rw [hother, hother, hother]

end Contents

/-! ## Kept files -/

/-- `n'` is `n` but for its content, if `data` holds, and for its entries under `names`. -/
inductive KeptNode (data : Prop) (names : Bytes → Prop) : Node → Node → Prop
  | file {mode : Mode} {old new : Bytes} (h : ¬ data → new = old) :
      KeptNode data names (.file mode old) (.file mode new)
  | directory {mode : Mode} {old new : Entries}
      (h : ∀ name i, ¬ names name → ((name, i) ∈ new ↔ (name, i) ∈ old)) :
      KeptNode data names (.directory mode old) (.directory mode new)
  | link (target : Bytes) : KeptNode data names (.link target) (.link target)
  | null : KeptNode data names .null .null

/-- Only the contents of the files in `files` and the entries in `names` may differ. There may be
new files, but no directory that is not in `names` names them. -/
def Kept (files : Ino → Prop) (names : Ino → Bytes → Prop) (t t' : Tree) : Prop :=
  ∀ i n, t.node? i = some n → ∃ n', t'.node? i = some n' ∧ KeptNode (files i) (names i) n n'

section Kept

variable {files files' : Ino → Prop} {names names' : Ino → Bytes → Prop} {t t' t'' : Tree}

theorem KeptNode.refl {data : Prop} {names : Bytes → Prop} (n : Node) :
    KeptNode data names n n := by
  cases n with
  | file mode d => exact .file fun _ => rfl
  | directory mode es => exact .directory fun _ _ _ => Iff.rfl
  | link target => exact .link target
  | null => exact .null

theorem KeptNode.trans {data : Prop} {names : Bytes → Prop} {n n' n'' : Node}
    (h : KeptNode data names n n') (h' : KeptNode data names n' n'') :
    KeptNode data names n n'' := by
  cases h with
  | file h =>
    cases h' with
    | file h' => exact .file fun hd => (h' hd).trans (h hd)
  | directory h =>
    cases h' with
    | directory h' => exact .directory fun name i hn => (h' name i hn).trans (h name i hn)
  | link => exact h'
  | null => exact h'

theorem KeptNode.mono {data data' : Prop} {names names' : Bytes → Prop} {n n' : Node}
    (h : KeptNode data names n n') (hd : data → data') (hn : ∀ name, names name → names' name) :
    KeptNode data' names' n n' := by
  cases h with
  | file h => exact .file fun hnd => h fun hd' => hnd (hd hd')
  | directory h => exact .directory fun name i hnn => h name i fun hn' => hnn (hn name hn')
  | link => exact .link _
  | null => exact .null

theorem Kept.refl (t : Tree) : Kept files names t t := fun _ n h => ⟨n, h, .refl n⟩

theorem Kept.trans (h : Kept files names t t') (h' : Kept files names t' t'') :
    Kept files names t t'' := by
  intro i n hn
  obtain ⟨n', hn', k⟩ := h i n hn
  obtain ⟨n'', hn'', k'⟩ := h' i n' hn'
  exact ⟨n'', hn'', k.trans k'⟩

theorem Kept.mono (h : Kept files names t t') (hf : ∀ i, files i → files' i)
    (hn : ∀ i name, names i name → names' i name) : Kept files' names' t t' := by
  intro i n hi
  obtain ⟨n', hn', k⟩ := h i n hi
  exact ⟨n', hn', k.mono (hf i) (hn i)⟩

theorem kept_put {i : Ino} {n n' : Node} (hn : t.node? i = some n)
    (k : KeptNode (files i) (names i) n n') : Kept files names t (t.put i n') := by
  intro j m hm
  by_cases hj : j = i
  · subst hj
    rw [hn] at hm; cases hm
    exact ⟨n', node?_put_self hn, k⟩
  · exact ⟨m, by rw [node?_put_ne hj]; exact hm, .refl m⟩

theorem kept_write {i : Ino} (hi : files i) (t : Tree) (start : Nat) (bs : Bytes) :
    Kept files names t (t.write i start bs) := by
  unfold write
  split
  · rename_i h; exact kept_put h (.file fun hn => absurd hi hn)
  · exact Kept.refl t

theorem kept_truncate {i : Ino} (hi : files i) (t : Tree) :
    Kept files names t (t.truncate i) := by
  unfold truncate
  split
  · rename_i h; exact kept_put h (.file fun hn => absurd hi hn)
  · exact Kept.refl t

theorem kept_unbind {dir : Ino} {name : Bytes} (hn : names dir name) (t : Tree) :
    Kept files names t (t.unbind dir name) := by
  unfold unbind
  split
  · rename_i mode es h
    refine kept_put h (.directory fun m i hm => ?_)
    have hne : m ≠ name := fun e => hm (e ▸ hn)
    simp [List.mem_filter, hne]
  · exact Kept.refl t

end Kept

/-! ## Opening -/

/-- Permissions and kind decide whether a file can be opened, not what it holds. -/
theorem openNode_put_file {t : Tree} {i : Ino} {mode : Mode} {data : Bytes}
    (h : t.node? i = some (.file mode data)) (data' : Bytes) (access : Access) (j : Ino) :
    (t.put i (.file mode data')).openNode access j = t.openNode access j := by
  by_cases hj : j = i
  · subst hj
    unfold openNode
    rw [node?_put_self h, h]
  · unfold openNode
    rw [node?_put_ne hj]

theorem openExisting_write (t : Tree) (i : Ino) (start : Nat) (bs : Bytes) (access : Access)
    (path : Bytes) :
    (t.write i start bs).openExisting access path = t.openExisting access path := by
  unfold openExisting
  rw [find_congr (skeleton_write t i start bs)]
  split
  · unfold write
    split
    · rename_i h; exact openNode_put_file h _ access _
    · rfl
  · rfl

theorem openExisting_truncate (t : Tree) (i : Ino) (access : Access) (path : Bytes) :
    (t.truncate i).openExisting access path = t.openExisting access path := by
  unfold openExisting
  rw [find_congr (skeleton_truncate t i)]
  split
  · unfold truncate
    split
    · rename_i h; exact openNode_put_file h _ access _
    · rfl
  · rfl

/-- What is opened is the file itself. -/
theorem openNode_eq {t : Tree} {access : Access} {i j : Ino} (h : t.openNode access i = .ok j) :
    j = i := by
  unfold openNode at h
  split at h
  · split at h; · cases h
    split at h <;> cases h
    rfl
  · split at h <;> cases h
    rfl
  · cases h; rfl
  · cases h

/-- A file that can be read and written can be opened for either. -/
theorem openNode_both {t : Tree} {i j : Ino} (h : t.openNode .both i = .ok j) (access : Access) :
    t.openNode access i = .ok i := by
  unfold openNode at h ⊢
  split at h
  · simp at h
  · rename_i mode data hn
    have hm : (mode.readable && mode.writable) = true := by
      by_cases hp : Access.both.permits mode = true
      · exact hp
      · rw [if_neg hp] at h; cases h
    rw [Bool.and_eq_true] at hm
    cases access with
    | read => simp [Access.permits, hm.1]
    | write => simp [Access.permits, hm.2]
    | both => simp [Access.permits, hm.1, hm.2]
  · rfl
  · cases h

/-! ## New files -/

/-- `t'` is `t` with an empty regular file made under a free name, with the permissions `made`. -/
structure Created (made : Mode) (t t' : Tree) (dir : Trail) (name : Bytes) (i : Ino) : Prop where
  free : ∃ mode es, t.node? dir.here = some (.directory mode es) ∧ mode.writable = true ∧
    mode.searchable = true ∧ es.lookup name = none ∧
    t'.node? dir.here = some (.directory mode (es ++ [(name, i)]))
  new : t.node? i = none
  file : t'.node? i = some (.file made [])
  others : ∀ j, j ≠ dir.here → j ≠ i → t'.node? j = t.node? j

section Created

variable {made : Mode} {t t' : Tree} {dir : Trail} {name : Bytes} {i : Ino}

theorem created_of_create {path : Bytes} {follow slash : Bool}
    (hl : t.locate follow path = .ok (.missing dir name slash))
    (h : t.create dir name (.file made []) = .ok (i, t')) : Created made t t' dir name i := by
  obtain ⟨-, -, mode, es, hd, hs, hn⟩ := locate_sound hl
  unfold create at h
  rw [hd] at h
  simp only at h
  split at h
  · rename_i hw
    simp only [Except.ok.injEq, Prod.mk.injEq] at h
    obtain ⟨rfl, rfl⟩ := h
    have hd' : (t.add (.file made [])).2.node? dir.here = some (.directory mode es) :=
      node?_add_old hd
    have hfresh : t.node? (t.add (.file made [])).1 = none := by simp [node?, add]
    have hne : (t.add (.file made [])).1 ≠ dir.here := by
      intro e; rw [e, hd] at hfresh; cases hfresh
    unfold bind
    rw [hd']
    refine ⟨⟨mode, es, hd, hw, hs, hn, node?_put_self hd'⟩, hfresh, ?_, ?_⟩
    · rw [node?_put_ne hne]; exact node?_add_new t _
    · intro j hjd hji
      rw [node?_put_ne hjd]
      simp only [node?, add]
      rcases Nat.lt_or_ge j t.nodes.length with hlt | hge
      · rw [List.getElem?_append_left hlt]
      · rw [List.getElem?_eq_none hge, List.getElem?_eq_none]
        rw [List.length_append, List.length_singleton]
        exact Nat.lt_of_le_of_ne hge fun e => hji e.symm
  · cases h

theorem Created.named (h : Created made t t' dir name i) : Named t t' dir.here name i := by
  obtain ⟨mode, es, hd, -, -, hn, hd'⟩ := h.free
  refine ⟨⟨mode, es, es ++ [(name, i)], skeleton_directory_iff.2 hd,
    skeleton_directory_iff.2 hd', hn, Entries.lookup_append_self hn,
    fun n hne => Entries.lookup_append_ne hne⟩, ?_, skeleton_file h.file⟩
  intro j hj
  by_cases hji : j = i
  · subst hji
    simp [skeleton, h.file, h.new]
  · unfold skeleton; rw [h.others j hj hji]

/-- The new file is not its own directory. -/
theorem Created.dir_ne (h : Created made t t' dir name i) : dir.here ≠ i := by
  obtain ⟨mode, es, hd, -⟩ := h.free
  intro e
  rw [e, h.new] at hd
  cases hd

theorem Created.kept {files : Ino → Prop} {names : Ino → Bytes → Prop}
    (h : Created made t t' dir name i) (hn : names dir.here name) : Kept files names t t' := by
  obtain ⟨mode, es, hd, -, -, -, hd'⟩ := h.free
  intro j n hj
  by_cases hjd : j = dir.here
  · subst hjd
    rw [hd] at hj; cases hj
    refine ⟨_, hd', .directory fun m k hm => ?_⟩
    have hne : m ≠ name := fun e => hm (e ▸ hn)
    simp [hne]
  · have hji : j ≠ i := fun e => by rw [e, h.new] at hj; cases hj
    exact ⟨n, by rw [h.others j hjd hji]; exact hj, .refl n⟩

theorem Created.mayChange (h : Created made t t' dir name i) : t'.mayChange dir = true := by
  obtain ⟨mode, es, -, hw, hs, -, hd'⟩ := h.free
  exact mayChange_iff.2 ⟨mode, _, hd', hw, hs⟩

end Created

/-- A file opened for writing existed, and nothing changed, or it is a new one. -/
theorem openCreating_cases {t t' : Tree} {access : Access} {made : Mode} {path : Bytes} {i : Ino}
    (h : t.openCreating access made path = .ok (i, t')) :
    (t' = t ∧ ∃ trail, t.find true path = .ok trail ∧ trail.here = i ∧
      t.openNode access i = .ok i) ∨
    ∃ dir name, t.locate true path = .ok (.missing dir name false) ∧
      Created made t t' dir name i := by
  unfold openCreating at h
  split at h
  · split at h <;> cases h
  · split at h
    · rename_i trail hl
      left
      cases ho : t.openNode access trail.here with
      | error e => rw [ho] at h; cases h
      | ok j =>
        rw [ho] at h
        simp only [Except.map, Except.ok.injEq, Prod.mk.injEq] at h
        obtain ⟨rfl, rfl⟩ := h
        obtain rfl := openNode_eq ho
        exact ⟨rfl, trail, find_of_locate hl, rfl, ho⟩
    · cases h
    · rename_i dir name hl
      exact Or.inr ⟨dir, name, hl, created_of_create hl h⟩
    · cases h

/-- An existing file is opened as it is. -/
theorem openCreating_found {t t' : Tree} {access : Access} {made : Mode} {path : Bytes}
    {trail : Trail} {i : Ino} (hf : t.find true path = .ok trail)
    (h : t.openCreating access made path = .ok (i, t')) :
    t' = t ∧ i = trail.here ∧ t.openNode access i = .ok i := by
  rcases openCreating_cases h with ⟨ht, trail', hf', hi, ho⟩ | ⟨dir, name, hl, -⟩
  · rw [hf] at hf'; cases hf'
    exact ⟨ht, hi.symm, ho⟩
  · rw [locate_of_find hf] at hl; cases hl

/-- What can be opened for writing is no directory, and can be read when it is empty. -/
theorem read_truncate {t : Tree} {i j : Ino} (h : t.openNode .both i = .ok j) :
    (t.truncate i).read i = .ok [] := by
  have hd : ∀ mode es, (t.truncate i).node? i ≠ some (.directory mode es) := by
    intro mode es hn
    have hn' : t.node? i = some (.directory mode es) :=
      skeleton_directory_iff.1 ((skeleton_truncate t i i).symm.trans (skeleton_directory_iff.2 hn))
    unfold openNode at h
    rw [hn'] at h
    simp at h
  unfold read
  split
  · rename_i hn; exact absurd hn (hd _ _)
  · rw [contents_truncate]

/-! ## Names that go away -/

/-- Unlinking takes the last name of the path away from its directory. -/
theorem unlink_cases {t t' : Tree} {path : Bytes} (h : t.unlink path = .ok t') :
    ∃ (name : Bytes) (i : Ino) (dir : Trail), t.find false path = .ok ((name, i) :: dir) ∧
      t.mayChange dir = true ∧ t' = t.unbind dir.here name := by
  unfold unlink at h
  split at h
  · cases h
  · cases h
  · rename_i name i dir hf
    split at h; · cases h
    split at h
    · rename_i hm
      cases h
      exact ⟨name, i, dir, hf, hm, rfl⟩
    · cases h

/-- A name of something that is no directory can be taken away where entries may be changed. -/
theorem unlink_eq {t : Tree} {path name : Bytes} {i : Ino} {dir : Trail}
    (hf : t.find false path = .ok ((name, i) :: dir)) (hi : t.skeleton i = none)
    (hm : t.mayChange dir = true) : t.unlink path = .ok (t.unbind dir.here name) := by
  unfold unlink
  rw [hf]
  have hd : (t.node? i).any Node.isDirectory = false := by
    unfold skeleton at hi
    cases hn : t.node? i with
    | none => rfl
    | some n => cases n <;> simp_all [Node.isDirectory]
  simp only [hd, Bool.false_eq_true, if_false, if_pos hm]

theorem named_unbind {t : Tree} {name : Bytes} {i : Ino} {dir : Trail}
    (hv : Trail.Valid t ((name, i) :: dir)) (hi : t.skeleton i = none) :
    Named (t.unbind dir.here name) t dir.here name i := by
  obtain ⟨-, -, mode, es, hd, hl⟩ := hv
  have hu : (t.unbind dir.here name).node? dir.here =
      some (.directory mode (es.filter fun e => e.1 != name)) := by
    unfold unbind; rw [hd]; exact node?_put_self hd
  have hothers : ∀ j, j ≠ dir.here → (t.unbind dir.here name).node? j = t.node? j := by
    intro j hj; unfold unbind; rw [hd]; exact node?_put_ne hj
  refine ⟨⟨mode, _, es, skeleton_directory_iff.2 hu, skeleton_directory_iff.2 hd,
    Entries.lookup_filter_self es name, hl, fun n hn => (Entries.lookup_filter_ne es hn).symm⟩,
    ?_, hi⟩
  intro j hj
  unfold skeleton; rw [hothers j hj]

theorem node?_unbind_ne {t : Tree} {dir j : Ino} {name : Bytes} (hj : j ≠ dir) :
    (t.unbind dir name).node? j = t.node? j := by
  unfold unbind
  split
  · exact node?_put_ne hj
  · rfl

/-- Taking a name away does the same where the directory is the same. -/
theorem node?_unbind_congr {t t' : Tree} {dir j : Ino} {name : Bytes}
    (hdir : t'.node? dir = t.node? dir) (hj : t'.node? j = t.node? j) :
    (t'.unbind dir name).node? j = (t.unbind dir name).node? j := by
  by_cases e : j = dir
  · subst e
    unfold unbind
    rw [hj]
    split
    · rename_i hn
      rw [node?_put_self hn, node?_put_self (hj.trans hn)]
    · exact hj
  · rw [node?_unbind_ne e, node?_unbind_ne e, hj]

/-- Without its name a new file is the only thing that is new. -/
theorem Created.node?_unbind {made : Mode} {t t' : Tree} {dir : Trail} {name : Bytes} {i j : Ino}
    (h : Created made t t' dir name i) (hj : j ≠ i) :
    (t'.unbind dir.here name).node? j = t.node? j := by
  obtain ⟨mode, es, hd, -, -, hn, hd'⟩ := h.free
  by_cases e : j = dir.here
  · subst e
    have hes : es.filter (fun e => e.1 != name) = es := by
      rw [List.filter_eq_self]
      intro e he
      have hne : name ≠ e.1 := by simpa using List.lookup_eq_none_iff.1 hn e he
      simpa using hne.symm
    unfold unbind
    rw [hd', hd]
    simp [node?_put_self hd', List.filter_append, hes]
  · rw [node?_unbind_ne e, h.others j e hj]

/-- Regular files are what they were. -/
theorem node?_unbind_file {t : Tree} {dir j : Ino} {name data : Bytes} {mode : Mode} :
    (t.unbind dir name).node? j = some (.file mode data) ↔
      t.node? j = some (.file mode data) := by
  by_cases hj : j = dir
  · subst hj
    unfold unbind
    split
    · rename_i mode' es hn
      simp [node?_put_self hn, hn]
    · rfl
  · rw [node?_unbind_ne hj]

/-- What walks see of a directory without one of its names. -/
theorem skeleton_unbind (t : Tree) (dir : Ino) (name : Bytes) (j : Ino) :
    (t.unbind dir name).skeleton j =
      if j = dir then (t.skeleton j).map fun
        | .directory mode es => .directory mode (es.filter fun e => e.1 != name)
        | n => n
      else t.skeleton j := by
  by_cases hj : j = dir
  · subst hj
    rw [if_pos rfl]
    unfold unbind skeleton
    cases hn : t.node? j with
    | none => simp [hn]
    | some n =>
      cases n with
      | directory mode es => simp [node?_put_self hn]
      | file mode data => simp [hn]
      | link target => simp [hn]
      | null => simp [hn]
  · rw [if_neg hj]
    unfold skeleton
    rw [node?_unbind_ne hj]

end Tree

end LineShell
