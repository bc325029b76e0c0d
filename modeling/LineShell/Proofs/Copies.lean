import LineShell.Proofs.Changes
import LineShell.Shell.Disk

/-!
# What writing and copying leave behind

* `System.Wrote`: bytes have come to the end of a file, and nothing else happened but to the disk.
* `System.copy_grew`: whatever becomes of a copy, the target has grown, and by a beginning of what
  the source held unless it is the source itself.
* `System.copy_ok`: a copy that ends well has brought over everything, and a file is copied to its
  own end only if it is empty: otherwise the copy goes on until the disk is full.
* `Disk.Takes`: the disk refuses nothing and has room. `System.copy_takes`: then a copy ends well.
-/
namespace LineShell

namespace Action

variable {σ ε δ α β : Type}

/-- The state after an action, whether it failed or not. -/
def stateAfter : EStateM.Result ε σ α → σ
  | .ok _ s => s
  | .error _ s => s

/-- The outcome of an action. -/
def outcomeOf : EStateM.Result ε σ α → Except ε α
  | .ok a _ => .ok a
  | .error e _ => .error e

@[simp] theorem bind_run (x : Action σ ε α) (f : α → Action σ ε β) (s : σ) :
    (x >>= f) s = match x s with
      | .ok a s' => f a s'
      | .error e s' => .error e s' := by
  simp only [bind, EStateM.bind]
  cases x s <;> rfl

@[simp] theorem pure_run (a : α) (s : σ) : (pure a : Action σ ε α) s = .ok a s := rfl

@[simp] theorem get_run (s : σ) : (get : Action σ ε σ) s = .ok s s := rfl

@[simp] theorem set_run (s s' : σ) : (set s' : Action σ ε PUnit) s = .ok ⟨⟩ s' := rfl

@[simp] theorem throw_run (e : ε) (s : σ) : (throw e : Action σ ε α) s = .error e s := rfl

@[simp] theorem modify_run (f : σ → σ) (s : σ) :
    (modify f : Action σ ε PUnit) s = .ok ⟨⟩ (f s) := rfl

end Action

open LineShell.Action (stateAfter)

/-! ## One call -/

/-- The disk refuses nothing and takes at least so many bytes. -/
structure Disk.Takes (d : Disk) (n : Nat) : Prop where
  answers : ∀ answer ∈ d.answers, answer = none
  room : n ≤ d.room

theorem Disk.Takes.mono {d : Disk} {m n : Nat} (h : d.Takes n) (hmn : m ≤ n) : d.Takes m :=
  ⟨h.answers, Nat.le_trans hmn h.room⟩

namespace System

variable {s s' : System}

/-- The system when a call has been answered. -/
def answered (s : System) : System :=
  { s with disk := { s.disk with answers := s.disk.answers.tail } }

/-- The refusal of the next call, if it is refused. -/
def refusal (s : System) : Option OsError := s.disk.answers.head?.join

theorem ask_eq (s : System) :
    ask s = match s.refusal with
      | some e => .error e s.answered
      | none => .ok () s.answered := by
  obtain ⟨files, input, room, answers⟩ := s
  rcases answers with - | ⟨_ | e, answers⟩ <;> rfl

/-- Some bytes have been written from a position on, and the standard input is where it was. -/
structure Wrote (i : Ino) (position : Nat) (bytes : Bytes) (s s' : System) : Prop where
  files : s'.files = s.files.write i position bytes
  input : s'.input = s.input

/-- Some bytes have come to the end of a file, and the standard input is where it was. -/
structure Grew (i : Ino) (bytes : Bytes) (s s' : System) : Prop where
  files : s'.files = s.files.append i bytes
  input : s'.input = s.input

theorem Grew.answered (i : Ino) (s : System) : Grew i [] s s.answered :=
  ⟨(Tree.write_nil s.files i _).symm, rfl⟩

theorem Grew.trans {i : Ino} {bs bs' : Bytes} {s s' s'' : System} (h : Grew i bs s s')
    (h' : Grew i bs' s' s'') : Grew i (bs ++ bs') s s'' :=
  ⟨by rw [h'.files, h.files, Tree.append_append], h'.input.trans h.input⟩

/-- The system when a file has taken what it can of some bytes. -/
def written (i : Ino) (position : Nat) (bytes : Bytes) (s : System) : System :=
  { s with
    files := s.files.write i position (bytes.take (s.taken i bytes.length))
    disk := ⟨s.disk.room - s.taken i bytes.length, s.disk.answers.tail⟩ }

theorem write_eq (i : Ino) (position : Nat) (bytes : Bytes) (s : System) :
    write i position bytes s = match s.refusal with
      | some e => .error e s.answered
      | none =>
        if s.taken i bytes.length < bytes.length then .error .noSpace (s.written i position bytes)
        else .ok () (s.written i position bytes) := by
  unfold write
  rw [Action.bind_run, ask_eq]
  cases s.refusal with
  | some e => rfl
  | none =>
    simp only [Action.bind_run, Action.get_run, Action.set_run]
    have ht : s.answered.taken i bytes.length = s.taken i bytes.length := rfl
    rw [ht]
    split <;> rfl

/-- Whatever becomes of a write, a beginning of the bytes has been written, and all of them if the
write ends well. -/
theorem write_wrote (i : Ino) (position : Nat) (bytes : Bytes) (s : System) :
    ∃ part, part <+: bytes ∧ Wrote i position part s (stateAfter (write i position bytes s)) ∧
      (∀ s', write i position bytes s = .ok () s' → part = bytes) := by
  rw [write_eq]
  cases s.refusal with
  | some e =>
    exact ⟨[], List.nil_prefix, ⟨(Tree.write_nil s.files i position).symm, rfl⟩, nofun⟩
  | none =>
    by_cases h : s.taken i bytes.length < bytes.length
    · simp only [if_pos h]
      exact ⟨_, List.take_prefix _ bytes, ⟨rfl, rfl⟩, nofun⟩
    · simp only [if_neg h]
      exact ⟨_, List.take_prefix _ bytes, ⟨rfl, rfl⟩,
        fun _ _ => List.take_of_length_le (Nat.le_of_not_lt h)⟩

/-- All bytes are at the end of the file if they were written there. -/
theorem grew_of_write {i : Ino} {bytes : Bytes}
    (h : write i (s.files.contents i).length bytes s.answered = .ok () s') : Grew i bytes s s' := by
  obtain ⟨part, -, hwrote, hall⟩ := write_wrote i (s.files.contents i).length bytes s.answered
  rw [hall s' h, h] at hwrote
  exact ⟨hwrote.files, hwrote.input⟩

/-! ## Copies -/

/-- A block of what is left, and what is behind it. -/
theorem block_split (content : Bytes) (position n : Nat) :
    (content.drop position).take n ++
      content.drop (position + ((content.drop position).take n).length) =
        content.drop position := by
  rw [← List.drop_drop]
  exact (List.prefix_iff_eq_append.1 (List.take_prefix n (content.drop position))).symm ▸ rfl

theorem readBlock_ok {t : Tree} {i : Ino} {position : Nat} {block : Bytes}
    (h : t.readBlock i position = .ok block) :
    block = ((t.contents i).drop position).take Tree.blockSize := by
  unfold Tree.readBlock Tree.read at h
  split at h
  · cases h
  · cases h; rfl

/-- How the first block of a copy goes. -/
inductive FirstBlock (source target : Ino) (blocks position : Nat) (s : System) :
    EStateM.Result OsError System Unit → Prop
  | refused {e : OsError} (h : s.refusal = some e ∨ s.files.readBlock source position = .error e) :
      FirstBlock source target blocks position s (.error e s.answered)
  | finished (h : s.files.readBlock source position = .ok []) :
      FirstBlock source target blocks position s (.ok () s.answered)
  | stuck {block : Bytes} {e : OsError} {s' : System}
      (h : s.files.readBlock source position = .ok block)
      (hw : write target (s.files.contents target).length block s.answered = .error e s') :
      FirstBlock source target blocks position s (.error e s')
  | copied {block : Bytes} {s' : System} (h : s.files.readBlock source position = .ok block)
      (hne : block ≠ [])
      (hw : write target (s.files.contents target).length block s.answered = .ok () s') :
      FirstBlock source target blocks position s
        (copyFrom source target blocks (position + block.length) s')

theorem copyFrom_first (source target : Ino) (blocks position : Nat) (s : System) :
    FirstBlock source target blocks position s
      (copyFrom source target (blocks + 1) position s) := by
  rw [copyFrom, Action.bind_run, ask_eq]
  cases hr : s.refusal with
  | some e => exact .refused (Or.inl hr)
  | none =>
    simp only [Action.bind_run, Action.get_run]
    have hfiles : s.answered.files = s.files := rfl
    rw [hfiles]
    cases hb : s.files.readBlock source position with
    | error e => exact .refused (Or.inr hb)
    | ok block =>
      cases block with
      | nil => exact .finished hb
      | cons b bs =>
        simp only [Action.bind_run, Action.get_run, hfiles]
        cases hw : write target (s.files.contents target).length (b :: bs) s.answered with
        | error e s' => exact .stuck hb hw
        | ok u s' => exact .copied hb (List.cons_ne_nil b bs) hw

/-- Whatever becomes of a copy, the target has grown, and by a beginning of what the source held
unless that is the target itself and not empty. -/
theorem copyFrom_grew (source target : Ino) (blocks : Nat) : ∀ (position : Nat) (s : System),
    ∃ part, Grew target part s (stateAfter (copyFrom source target blocks position s)) ∧
      ((source = target → (s.files.contents source).drop position = []) →
        part <+: (s.files.contents source).drop position) := by
  induction blocks with
  | zero =>
    exact fun _ s => ⟨[], ⟨(Tree.write_nil s.files target _).symm, rfl⟩, fun _ => List.nil_prefix⟩
  | succ blocks ih =>
    intro position s
    have hfirst := copyFrom_first source target blocks position s
    generalize copyFrom source target (blocks + 1) position s = r at hfirst
    cases hfirst with
    | refused => exact ⟨[], .answered target s, fun _ => List.nil_prefix⟩
    | finished h => exact ⟨[], .answered target s, fun _ => List.nil_prefix⟩
    | @stuck block e s' h hw =>
      obtain ⟨part, hpart, hwrote, -⟩ :=
        write_wrote target (s.files.contents target).length block s.answered
      rw [hw] at hwrote
      refine ⟨part, ⟨hwrote.files, hwrote.input⟩, fun _ => hpart.trans ?_⟩
      rw [readBlock_ok h]
      exact List.take_prefix _ _
    | @copied block s' h hne hw =>
      have hgrew := grew_of_write hw
      obtain ⟨part, hpart, hsource⟩ := ih (position + block.length) s'
      refine ⟨_, hgrew.trans hpart, fun hself => ?_⟩
      have hst : source ≠ target := by
        intro hst
        rw [readBlock_ok h, hself hst, List.take_nil] at hne
        exact hne rfl
      have hsplit := block_split (s.files.contents source) position Tree.blockSize
      rw [← readBlock_ok h] at hsplit
      have hbehind := hsource fun e => absurd e hst
      rw [hgrew.files, Tree.contents_append_ne _ hst] at hbehind
      rw [← hsplit]
      exact List.prefix_append_right_inj _ |>.2 hbehind

/-- An empty block is at the end of the file. -/
theorem block_nil {content : Bytes} {position : Nat}
    (h : (content.drop position).take Tree.blockSize = []) : content.drop position = [] := by
  rcases List.take_eq_nil_iff.1 h with h | h
  · cases h
  · exact h

/-- A copy of another file that ends well has brought over all that was left. -/
theorem copyFrom_ok {source target : Ino} (hst : source ≠ target) {blocks : Nat} :
    ∀ {position : Nat} {s s' : System},
    (s.files.contents source).length < blocks + position →
    copyFrom source target blocks position s = .ok () s' →
    Grew target ((s.files.contents source).drop position) s s' := by
  induction blocks with
  | zero =>
    intro position s s' hblocks h
    cases h
    rw [List.drop_eq_nil_of_le (by omega)]
    exact ⟨(Tree.write_nil s.files target _).symm, rfl⟩
  | succ blocks ih =>
    intro position s s' hblocks h
    have hfirst := copyFrom_first source target blocks position s
    generalize copyFrom source target (blocks + 1) position s = r at hfirst h
    cases hfirst with
    | refused => cases h
    | finished hb =>
      cases h
      rw [block_nil (readBlock_ok hb).symm]
      exact .answered target s
    | stuck => cases h
    | @copied block s₁ hb hne hw =>
      have hpos := List.length_pos_iff.2 hne
      have hgrew := grew_of_write hw
      have hsame : s₁.files.contents source = s.files.contents source := by
        rw [hgrew.files, Tree.contents_append_ne _ hst]
      have hbehind := ih (by rw [hsame]; omega) h
      rw [hsame] at hbehind
      have hsplit := block_split (s.files.contents source) position Tree.blockSize
      rw [← readBlock_ok hb] at hsplit
      rw [← hsplit]
      exact hgrew.trans hbehind

/-- What a write that ends well takes from the disk. -/
theorem room_of_write {i : Ino} {position : Nat} {bytes : Bytes}
    (h : write i position bytes s = .ok () s') :
    s'.disk.room = s.disk.room - s.taken i bytes.length ∧
      bytes.length ≤ s.taken i bytes.length := by
  rw [write_eq] at h
  split at h
  · cases h
  · split at h
    · cases h
    · rename_i hle
      cases h
      exact ⟨rfl, Nat.le_of_not_lt hle⟩

theorem taken_file {i : Ino} {mode : Mode} {data : Bytes} (n : Nat)
    (h : s.files.node? i = some (.file mode data)) : s.taken i n = min n s.disk.room := by
  unfold taken
  rw [h, if_neg (by simp)]

/-- A file that is copied to its own end grows as fast as it is read, so the copy ends well only if
nothing is left to begin with. -/
theorem copyFrom_self {i : Ino} {blocks : Nat} : ∀ {position : Nat} {s s' : System},
    s.disk.room < blocks → copyFrom i i blocks position s = .ok () s' →
    (s.files.contents i).drop position = [] ∧ Grew i [] s s' := by
  induction blocks with
  | zero => intro _ _ _ hblocks; omega
  | succ blocks ih =>
    intro position s s' hblocks h
    have hfirst := copyFrom_first i i blocks position s
    generalize copyFrom i i (blocks + 1) position s = r at hfirst h
    cases hfirst with
    | refused => cases h
    | finished hb =>
      cases h
      exact ⟨block_nil (readBlock_ok hb).symm, .answered i s⟩
    | stuck => cases h
    | @copied block s₁ hb hne hw =>
      exfalso
      have hpos := List.length_pos_iff.2 hne
      have hleft : 0 < ((s.files.contents i).drop position).length := by
        rw [readBlock_ok hb, List.length_take] at hpos
        omega
      rw [List.length_drop] at hleft
      have hsome : s.files.contents i ≠ [] := by
        intro hnil
        rw [hnil] at hleft
        exact Nat.not_lt_zero _ (Nat.lt_of_lt_of_le hleft (Nat.sub_le _ _))
      obtain ⟨mode, data, hn⟩ := Tree.file_of_contents hsome
      obtain ⟨hroom, hall⟩ := room_of_write hw
      have ht : s.answered.taken i block.length = min block.length s.disk.room :=
        taken_file (s := s.answered) _ hn
      rw [ht] at hroom hall
      have hend := (ih (by rw [hroom]; show s.disk.room - _ < _; omega) h).1
      have hgrown : s₁.files.contents i = data ++ block := by
        rw [(grew_of_write hw).files]
        exact Tree.contents_file (Tree.contents_append block hn)
      rw [hgrown, List.drop_eq_nil_iff, List.length_append] at hend
      rw [Tree.contents_file hn] at hleft
      omega

theorem takes_answered {n : Nat} (h : s.disk.Takes n) : s.answered.disk.Takes n :=
  ⟨fun a ha => h.answers a (List.mem_of_mem_tail ha), h.room⟩

theorem refusal_of_takes {n : Nat} (h : s.disk.Takes n) : s.refusal = none := by
  unfold refusal
  cases ha : s.disk.answers with
  | nil => rfl
  | cons a answers =>
    rw [h.answers a (by rw [ha]; exact List.mem_cons_self)]
    rfl

theorem ask_takes {n : Nat} (h : s.disk.Takes n) :
    ∃ s', ask s = .ok () s' ∧ s'.files = s.files ∧ s'.input = s.input ∧ s'.disk.Takes n := by
  rw [ask_eq, refusal_of_takes h]
  exact ⟨_, rfl, rfl, rfl, takes_answered h⟩

/-- A disk that takes the bytes takes them all. -/
theorem write_takes {n : Nat} {bytes : Bytes} (i : Ino) (position : Nat)
    (h : s.disk.Takes (bytes.length + n)) :
    ∃ s', write i position bytes s = .ok () s' ∧ s'.disk.Takes n := by
  have hroom := h.room
  have htaken : s.taken i bytes.length = bytes.length := by
    unfold taken
    split
    · rfl
    · exact Nat.min_eq_left (by omega)
  rw [write_eq, refusal_of_takes h]
  simp only
  rw [htaken, if_neg (Nat.lt_irrefl _)]
  refine ⟨_, rfl, fun a ha => h.answers a (List.mem_of_mem_tail ha), ?_⟩
  show n ≤ s.disk.room - s.taken i bytes.length
  rw [htaken]
  omega

/-- Only what it holds counts for reading a file. -/
theorem read_append_ne {t : Tree} {i j : Ino} (bs : Bytes) (hj : j ≠ i) :
    (t.append i bs).read j = t.read j := by
  unfold Tree.read Tree.contents
  rw [Tree.node?_append_ne bs hj]

theorem copyFrom_takes {source target : Ino} {n blocks : Nat} {content : Bytes}
    (hself : source = target → content = []) : ∀ {position : Nat} {s : System},
    s.files.read source = .ok content →
    s.disk.Takes (content.length - position + n) →
    ∃ s', copyFrom source target blocks position s = .ok () s' ∧ s'.disk.Takes n := by
  induction blocks with
  | zero => exact fun _ h => ⟨_, rfl, h.mono (Nat.le_add_left n _)⟩
  | succ blocks ih =>
    intro position s hread h
    obtain ⟨block, hblock, hlength⟩ : ∃ block, s.files.readBlock source position = .ok block ∧
        block.length ≤ content.length - position := by
      unfold Tree.readBlock
      rw [hread]
      refine ⟨_, rfl, ?_⟩
      rw [List.length_take, List.length_drop]
      exact Nat.min_le_right _ _
    obtain ⟨s₁, hw, hs₁⟩ := write_takes target (s.files.contents target).length
      (takes_answered (h.mono (m := block.length + (content.length - (position + block.length) + n))
        (by omega)))
    have hfirst := copyFrom_first source target blocks position s
    generalize copyFrom source target (blocks + 1) position s = r at hfirst
    cases hfirst with
    | refused he =>
      rw [refusal_of_takes h, hblock] at he
      rcases he with he | he <;> cases he
    | finished => exact ⟨_, rfl, takes_answered (h.mono (Nat.le_add_left n _))⟩
    | stuck hb hw' =>
      rw [hblock] at hb
      cases hb
      rw [hw] at hw'
      cases hw'
    | @copied _ s₂ hb hne hw' =>
      rw [hblock] at hb
      cases hb
      have hst : source ≠ target := by
        intro hst
        rw [hself hst] at hlength
        exact hne (List.eq_nil_of_length_eq_zero (Nat.le_zero.1 (by simpa using hlength)))
      have hread' : s₂.files.read source = .ok content := by
        rw [(grew_of_write hw').files, read_append_ne _ hst]
        exact hread
      rw [hw] at hw'
      cases hw'
      exact ih hread' hs₁

/-! ## Whole files -/

variable {source target : Ino}

/-- However a copy ends, the target has grown, and by a beginning of what the source held unless
that is the target itself and not empty. -/
theorem copy_grew (source target : Ino) (s : System) :
    ∃ part, Grew target part s (stateAfter (copy source target s)) ∧
      ((source = target → s.files.contents source = []) → part <+: s.files.contents source) :=
  copyFrom_grew source target _ 0 s

/-- **A copy that ends well** has brought over all that the source held, and a file is not copied to
its own end unless it is empty. -/
theorem copy_ok (h : copy source target s = .ok () s') :
    Grew target (s.files.contents source) s s' ∧
      (source = target → s.files.contents source = []) := by
  have hrun : copyFrom source target (s.disk.room + (s.files.contents source).length + 1) 0 s =
      .ok () s' := h
  by_cases hst : source = target
  · subst hst
    obtain ⟨hnil, hgrew⟩ := copyFrom_self (by omega) hrun
    rw [List.drop_zero] at hnil
    rw [hnil]
    exact ⟨hgrew, fun _ => rfl⟩
  · exact ⟨copyFrom_ok hst (by omega) hrun, fun he => absurd he hst⟩

/-- If the disk takes what a file holds, the file can be copied, though to its own end only if it is
empty. -/
theorem copy_takes {n : Nat} {content : Bytes} (hself : source = target → content = [])
    (hread : s.files.read source = .ok content) (h : s.disk.Takes (content.length + n)) :
    ∃ s', copy source target s = .ok () s' ∧ s'.disk.Takes n :=
  copyFrom_takes hself hread h

/-! ## Putting aside -/

theorem setAside_run (source scratch : Ino) (s : System) :
    setAside source scratch s = match copy source scratch s with
      | .ok () s' => ask s'
      | .error e s' => .error e s' := by
  unfold setAside
  rw [Action.bind_run]
  cases copy source scratch s <;> rfl

theorem grew_ask (i : Ino) (s : System) : Grew i [] s (stateAfter (ask s)) := by
  rw [ask_eq]
  cases s.refusal with
  | some e => exact .answered i s
  | none => exact .answered i s

/-- However it ends, the scratch file has grown as by a copy. -/
theorem setAside_grew (source scratch : Ino) (s : System) :
    ∃ part, Grew scratch part s (stateAfter (setAside source scratch s)) ∧
      ((source = scratch → s.files.contents source = []) → part <+: s.files.contents source) := by
  obtain ⟨part, hgrew, hpart⟩ := copy_grew source scratch s
  rw [setAside_run]
  cases hc : copy source scratch s with
  | error e s' =>
    rw [hc] at hgrew
    exact ⟨part, hgrew, hpart⟩
  | ok u s' =>
    rw [hc] at hgrew
    refine ⟨part, ?_, hpart⟩
    have hboth := Grew.trans hgrew (grew_ask scratch s')
    rwa [List.append_nil] at hboth

/-- What is put aside without a failure is there as a whole. -/
theorem setAside_ok (h : setAside source target s = .ok () s') :
    Grew target (s.files.contents source) s s' := by
  rw [setAside_run] at h
  cases hc : copy source target s with
  | error e s₁ =>
    rw [hc] at h
    cases h
  | ok u s₁ =>
    rw [hc] at h
    have hask := grew_ask target s₁
    rw [show ask s₁ = .ok () s' from h] at hask
    have hboth := Grew.trans (copy_ok hc).1 hask
    rwa [List.append_nil] at hboth

theorem setAside_takes {n : Nat} {content : Bytes} (hself : source = target → content = [])
    (hread : s.files.read source = .ok content) (h : s.disk.Takes (content.length + n)) :
    ∃ s', setAside source target s = .ok () s' ∧ s'.disk.Takes n := by
  obtain ⟨s₁, hcopy, hs₁⟩ := copy_takes hself hread h
  obtain ⟨s₂, hask, -, -, hs₂⟩ := ask_takes hs₁
  exact ⟨s₂, by rw [setAside_run, hcopy]; exact hask, hs₂⟩

end System

end LineShell
