import MacroAssembler.Proofs.Change

/-!
# How the sources grow

A pass only ever adds to the sources: files are added behind the others, and a line gets longer when
a statement is replaced by those that its macros stand for.  What has been expanded stays as it is.
But it moves along when a statement in front of it is replaced by several ones.

So a position is only good for a later look at the line if nothing in front of it moves any more.
That is the case if every statement up to it is `Settled`: it has been expanded, or it was passed
over as it is written, and wherever such a statement is replaced later, one statement takes its
place.  Then the line is kept up to the position, as far as it has been expanded, and it ends there
if it did before.
-/

namespace MacroAssembler

open Relation
variable {stage : Stage} {failing : Prop} {st st' : State}

/-! ## Paths -/

theorem Path.same_congr {a b : Text} (h : Path.same a b = true) (key : Text) :
    Path.same key a = Path.same key b := by
  have hparts : Path.parts a = Path.parts b := eq_of_beq h
  rw [Path.same, Path.same, hparts]

namespace SourceStore

variable {s : Statement} {id : Nat}

section Entries

variable {α : Type}

theorem atPath_congr {a b : Text} (h : Path.same a b = true) (entries : List (Text × α)) :
    atPath entries a = atPath entries b := by
  unfold atPath
  congr 2
  funext entry
  exact Path.same_congr h entry.1

theorem atPath_cons (key path : Text) (a : α) (entries : List (Text × α)) :
    atPath ((key, a) :: entries) path =
      if Path.same key path then some a else atPath entries path := by
  rw [atPath, List.find?_cons, atPath]
  dsimp only
  cases Path.same key path with
  | true => rfl
  | false => rfl

end Entries

variable (store : SourceStore)

/-! ## Lines -/

/-- How many statements a line has, if there is such a line. -/
def lengthAt (file line : Nat) : Option Nat :=
  ((store.file file).lines[line]?).map List.length

theorem lengthAt_eq (file line : Nat) :
    store.lengthAt file line = ((store.wordings file)[line]?).map List.length := by
  rw [lengthAt, wordings, SourceFile.wordings, Array.getElem?_map, Option.map_map]
  congr 1
  funext statements
  exact (List.length_map _).symm

theorem lt_of_statementAt {file : Nat} {pos : Position} (hs : store.statementAt file pos = some s) :
    ∃ n, store.lengthAt file pos.line = some n ∧ pos.statement < n := by
  obtain ⟨line, hline, hs⟩ := Option.bind_eq_some_iff.1 hs
  refine ⟨line.length, ?_, (List.getElem?_eq_some_iff.1 hs).1⟩
  rw [lengthAt, hline, Option.map_some]

theorem size_modifyFile (id : Nat) (f : SourceFile → SourceFile) :
    (store.modifyFile id f).files.size = store.files.size :=
  Array.size_modify

theorem lengthAt_modifyStatement (id file line : Nat) (pos : Position) {f : Statement → Statement}
    (hf : ∀ s, (f s).wording = s.wording) :
    (store.modifyFile id (·.modifyStatement pos f)).lengthAt file line =
      store.lengthAt file line := by
  rw [lengthAt_eq, lengthAt_eq, wordings_modifyStatement store id file pos hf]

/-- The lines of a file after a statement was replaced. -/
theorem lines_splice {at' : Position} (hs : store.statementAt id at' = some s) (text : Text)
    (file : Nat) :
    ((store.modifyFile id (·.splice at' text)).file file).lines =
      if id = file then (store.file file).lines.modify at'.line fun old =>
        old.take at'.statement ++ Source.expandedStatements s.column0 text ++
          old.drop (at'.statement + 1)
      else (store.file file).lines := by
  obtain ⟨line, hline, hs⟩ := Option.bind_eq_some_iff.1 hs
  rw [file_splice]
  split
  next hid =>
    subst hid
    refine Array.ext_getElem? fun i => ?_
    rw [SourceFile.splice, Array.getElem?_modify, Array.getElem?_modify]
    split
    next hi =>
      rw [← hi, hline, Option.map_some, Option.map_some, hs]
      rfl
    next => rfl
  next => rfl

/-- A line in which a statement was replaced has the others and the new ones. -/
theorem lengthAt_splice {at' : Position} (hs : store.statementAt id at' = some s) (text : Text)
    (file line : Nat) :
    (store.modifyFile id (·.splice at' text)).lengthAt file line =
      if id = file ∧ at'.line = line then (store.lengthAt file line).map
        (· - 1 + (Source.expandedStatements s.column0 text).length)
      else store.lengthAt file line := by
  obtain ⟨old, hold, hlt⟩ := Option.bind_eq_some_iff.1 hs
  have hlt := (List.getElem?_eq_some_iff.1 hlt).1
  rw [lengthAt, lengthAt, lines_splice store hs]
  by_cases hid : id = file
  · subst hid
    rw [if_pos rfl, Array.getElem?_modify]
    by_cases hline : at'.line = line
    · subst hline
      rw [if_pos rfl, if_pos ⟨rfl, rfl⟩, hold]
      simp only [Option.map_some, List.length_append, List.length_take, List.length_drop]
      congr 1
      omega
    · rw [if_neg hline, if_neg fun h => hline h.2]
  · rw [if_neg hid, if_neg fun h => hid h.1]

theorem file_push (source : SourceFile) {file : Nat} (h : file < store.files.size) :
    { store with files := store.files.push source }.file file = store.file file := by
  rw [SourceStore.file, SourceStore.file, Array.getD_eq_getD_getElem?, Array.getD_eq_getD_getElem?]
  dsimp only
  rw [Array.getElem?_push, if_neg (Nat.ne_of_lt h)]

end SourceStore

theorem Source.length_expandedStatements_pos (column0 : Bool) (text : Text) :
    0 < (expandedStatements column0 text).length := by
  obtain ⟨first, rest, hparts⟩ : ∃ first rest, Text.splitTopLevel '\\' text = first :: rest :=
    ⟨_, _, rfl⟩
  rw [expandedStatements, hparts, List.length_map, List.length_zipIdx, List.length_cons]
  exact Nat.succ_pos _

theorem Source.expanded_of_mem_expandedStatements {column0 : Bool} {text : Text} {s : Statement}
    (h : s ∈ expandedStatements column0 text) : s.expanded = true := by
  rw [expandedStatements, List.mem_map] at h
  obtain ⟨part, -, rfl⟩ := h
  rfl

/-! ## Edits -/

/-- A change of the sources.  Where a statement is replaced, it is noted in the history. -/
inductive SourceStore.Edit (history : List Event) : SourceStore → SourceStore → Prop
  | same (store : SourceStore) : Edit history store store
  /-- A file is read. -/
  | read {store store' : SourceStore} (h : store.Step store') : Edit history store store'
  /-- Something is found out about a statement. -/
  | annotated (store : SourceStore) (file : Nat) (pos : Position) {f : Statement → Statement}
      (hwording : ∀ s, (f s).wording = s.wording)
      (hexpanded : ∀ s, s.expanded = true → (f s).expanded = true) :
      Edit history store (store.modifyFile file (·.modifyStatement pos f))
  /-- A statement is replaced by those that its macros stand for. -/
  | spliced {store : SourceStore} {file : Nat} {pos : Position} {s : Statement} (text : Text)
      (hs : store.statementAt file pos = some s) (hnew : s.expanded = false)
      (hnoted : .spliced file pos (Source.expandedStatements s.column0 text).length ∈ history) :
      Edit history store (store.modifyFile file (·.splice pos text))

/-- What a step of a pass does to the sources. -/
theorem Change.edit (h : Change stage failing st st') :
    SourceStore.Edit st'.history st.store st'.store := by
  cases h with
  | act h =>
    rw [h.store_eq]
    exact .same _
  | files h => exact .read h
  | expanded file pos => exact .annotated _ file pos (fun _ => rfl) fun _ _ => rfl
  | spliced text hs hnew => exact .spliced text hs hnew List.mem_cons_self
  | matched => exact .annotated _ _ _ (fun _ => rfl) fun _ h => h
  | _ => exact .same _

/-- The history only grows. -/
theorem Change.history_suffix (h : Change stage failing st st') : st.history <:+ st'.history := by
  rcases h.history_eq with heq | ⟨event, heq, -⟩
  · exact ⟨[], heq.symm⟩
  · exact ⟨[event], heq.symm⟩

/-- What was passed over is noted for good. -/
theorem Change.asWritten_suffix (h : Change stage failing st st') :
    st.asWritten <:+ st'.asWritten := by
  cases h with
  | act h =>
    cases h with
    | control h => exact ⟨[], (congrArg Tracked.asWritten h).symm⟩
    | asWritten new => exact ⟨new, rfl⟩
    | _ => exact List.suffix_rfl
  | _ => exact List.suffix_rfl

/-- Where a statement was passed over, one statement at most takes its place. -/
def KeepsPlaces (passed : Nat → Position → Prop) (history : List Event) : Prop :=
  ∀ file pos count, passed file pos → .spliced file pos count ∈ history → count = 1

/-! ## Growth -/

namespace SourceStore

/-- One store has become another one by what passes do to the sources. -/
structure GrowsInto (store store' : SourceStore) : Prop where
  memory_eq : store'.memory = store.memory
  includeDirs_eq : store'.includeDirs = store.includeDirs
  disk_eq : store'.disk = store.disk
  binary : ∀ path bytes, atPath store.binaries path = some bytes →
    atPath store'.binaries path = some bytes
  size_le : store.files.size ≤ store'.files.size
  path_eq : ∀ file < store.files.size, (store'.file file).path = (store.file file).path
  length_eq_none : ∀ file < store.files.size, ∀ line, store.lengthAt file line = none →
    store'.lengthAt file line = none
  length_le : ∀ file < store.files.size, ∀ line n, store.lengthAt file line = some n →
    ∃ n', store'.lengthAt file line = some n' ∧ n ≤ n'

namespace GrowsInto

variable {store store' store'' : SourceStore}

theorem refl (store : SourceStore) : store.GrowsInto store where
  memory_eq := rfl
  includeDirs_eq := rfl
  disk_eq := rfl
  binary _ _ h := h
  size_le := Nat.le_refl _
  path_eq _ _ := rfl
  length_eq_none _ _ _ h := h
  length_le _ _ _ n h := ⟨n, h, Nat.le_refl n⟩

theorem trans (h : store.GrowsInto store') (h' : store'.GrowsInto store'') :
    store.GrowsInto store'' where
  memory_eq := h'.memory_eq.trans h.memory_eq
  includeDirs_eq := h'.includeDirs_eq.trans h.includeDirs_eq
  disk_eq := h'.disk_eq.trans h.disk_eq
  binary path bytes hbytes := h'.binary path bytes (h.binary path bytes hbytes)
  size_le := Nat.le_trans h.size_le h'.size_le
  path_eq file hfile :=
    (h'.path_eq file (Nat.lt_of_lt_of_le hfile h.size_le)).trans (h.path_eq file hfile)
  length_eq_none file hfile line hnone :=
    h'.length_eq_none file (Nat.lt_of_lt_of_le hfile h.size_le) line
      (h.length_eq_none file hfile line hnone)
  length_le file hfile line n hn := by
    obtain ⟨n₁, hn₁, hle₁⟩ := h.length_le file hfile line n hn
    obtain ⟨n₂, hn₂, hle₂⟩ :=
      h'.length_le file (Nat.lt_of_lt_of_le hfile h.size_le) line n₁ hn₁
    exact ⟨n₂, hn₂, Nat.le_trans hle₁ hle₂⟩

/-- A file is changed, but it keeps its path and its lines, which get no shorter. -/
theorem modifyFile {id : Nat} {f : SourceFile → SourceFile}
    (hpath : ∀ file, ((store.modifyFile id f).file file).path = (store.file file).path)
    (hnone : ∀ file line, store.lengthAt file line = none →
      (store.modifyFile id f).lengthAt file line = none)
    (hlength : ∀ file line n, store.lengthAt file line = some n →
      ∃ n', (store.modifyFile id f).lengthAt file line = some n' ∧ n ≤ n') :
    store.GrowsInto (store.modifyFile id f) where
  memory_eq := rfl
  includeDirs_eq := rfl
  disk_eq := rfl
  binary _ _ h := h
  size_le := Nat.le_of_eq (store.size_modifyFile id f).symm
  path_eq file _ := hpath file
  length_eq_none file _ := hnone file
  length_le file _ := hlength file

end GrowsInto

theorem Step.growsInto {store store' : SourceStore} (h : store.Step store') :
    store.GrowsInto store' := by
  cases h with
  | load path text =>
    have hlength : ∀ file < store.files.size, ∀ line,
        { store with files := store.files.push (SourceFile.ofText path text) }.lengthAt file line =
          store.lengthAt file line := by
      intro file hfile line
      rw [lengthAt, file_push store _ hfile]
      rfl
    exact {
      memory_eq := rfl
      includeDirs_eq := rfl
      disk_eq := rfl
      binary := fun _ _ h => h
      size_le := by
        dsimp only
        rw [Array.size_push]
        exact Nat.le_succ _
      path_eq := fun file hfile => by rw [file_push store _ hfile]
      length_eq_none := fun file hfile line h => (hlength file hfile line).trans h
      length_le := fun file hfile line n h =>
        ⟨n, (hlength file hfile line).trans h, Nat.le_refl n⟩ }
  | @binary path bytes hnew =>
    -- what was read before was read at another path
    refine { GrowsInto.refl store with binary := fun path' bytes' h => ?_ }
    have hother : ¬Path.same path path' = true := by
      intro hsame
      rw [atPath_congr hsame, h] at hnew
      cases hnew
    rw [atPath_cons, if_neg hother]
    exact h

theorem Edit.growsInto {history : List Event} {store store' : SourceStore}
    (h : Edit history store store') : store.GrowsInto store' := by
  cases h with
  | same => exact .refl _
  | read h => exact h.growsInto
  | annotated id pos hwording hexpanded =>
    have hlength := fun file line => store.lengthAt_modifyStatement id file line pos hwording
    refine .modifyFile (fun file => ?_) (fun file line hnone => ?_) fun file line n hn => ?_
    · rw [file_modifyStatement]
      split <;> rfl
    · exact (hlength file line).trans hnone
    · exact ⟨n, (hlength file line).trans hn, Nat.le_refl n⟩
  | @spliced id pos s text hs hnew hnoted =>
    have hlength := store.lengthAt_splice hs text
    have hpos := Source.length_expandedStatements_pos s.column0 text
    refine .modifyFile (fun file => ?_) (fun file line hnone => ?_) fun file line n hn => ?_
    · rw [file_splice]
      split <;> rfl
    · rw [hlength, hnone]
      split <;> rfl
    · rw [hlength, hn]
      split
      · exact ⟨n - 1 + (Source.expandedStatements s.column0 text).length, rfl, by omega⟩
      · exact ⟨n, rfl, Nat.le_refl n⟩

/-! ## Settled lines -/

/-- All statements in front of a position of a line will keep their places: they have been expanded,
or they stand where a statement was passed over. -/
def SettledTo (store : SourceStore) (passed : Nat → Position → Prop) (file : Nat) (pos : Position) :
    Prop :=
  file < store.files.size ∧ ∀ n < pos.statement, ∀ s,
    store.statementAt file ⟨pos.line, n⟩ = some s → s.expanded = true ∨ passed file ⟨pos.line, n⟩

/-- Up to a position, what had been expanded in a line stands there in another store as well, and if
the line ended there or before, it still does. -/
structure KeepsTo (store store' : SourceStore) (file : Nat) (pos : Position) : Prop where
  statement : ∀ n < pos.statement, ∀ s, store.statementAt file ⟨pos.line, n⟩ = some s →
    s.expanded = true → ∃ s', store'.statementAt file ⟨pos.line, n⟩ = some s' ∧
      s'.wording = s.wording ∧ s'.expanded = true
  ending : ∀ n ≤ pos.statement, store.lengthAt file pos.line = some n →
    store'.lengthAt file pos.line = some n

variable {store store' store'' : SourceStore} {passed passed' : Nat → Position → Prop} {file : Nat}
  {pos : Position}

theorem settledTo_start (h : file < store.files.size) (line : Nat) :
    store.SettledTo passed file ⟨line, 0⟩ :=
  ⟨h, fun n hn => absurd hn (Nat.not_lt_zero n)⟩

theorem SettledTo.mono (h : store.SettledTo passed file pos)
    (hpassed : ∀ file pos, passed file pos → passed' file pos) :
    store.SettledTo passed' file pos :=
  ⟨h.1, fun n hn s hs => (h.2 n hn s hs).imp_right (hpassed _ _)⟩

theorem KeepsTo.refl (store : SourceStore) (file : Nat) (pos : Position) :
    store.KeepsTo store file pos where
  statement _ _ s hs hexpanded := ⟨s, hs, rfl, hexpanded⟩
  ending _ _ h := h

theorem KeepsTo.trans (h : store.KeepsTo store' file pos) (h' : store'.KeepsTo store'' file pos) :
    store.KeepsTo store'' file pos where
  statement n hn s hs hexpanded := by
    obtain ⟨s₁, hs₁, hwording₁, hexpanded₁⟩ := h.statement n hn s hs hexpanded
    obtain ⟨s₂, hs₂, hwording₂, hexpanded₂⟩ := h'.statement n hn s₁ hs₁ hexpanded₁
    exact ⟨s₂, hs₂, hwording₂.trans hwording₁, hexpanded₂⟩
  ending n hn hend := h'.ending n hn (h.ending n hn hend)

/-- Where the statements in front of a position are the same, they stay settled. -/
theorem SettledTo.congr (h : store.SettledTo passed file pos)
    (hsize : store.files.size ≤ store'.files.size)
    (heq : ∀ n < pos.statement,
      store'.statementAt file ⟨pos.line, n⟩ = store.statementAt file ⟨pos.line, n⟩)
    (hlength : ∀ n ≤ pos.statement, store.lengthAt file pos.line = some n →
      store'.lengthAt file pos.line = some n) :
    store'.SettledTo passed file pos ∧ store.KeepsTo store' file pos := by
  refine ⟨⟨Nat.lt_of_lt_of_le h.1 hsize, fun n hn s hs => ?_⟩,
    ⟨fun n hn s hs hexpanded => ?_, hlength⟩⟩
  · exact h.2 n hn s ((heq n hn).symm.trans hs)
  · exact ⟨s, (heq n hn).trans hs, rfl, hexpanded⟩

/-- Where one statement takes the place of another one, nothing moves. -/
theorem exists_statementAt_splice {id : Nat} {at' : Position} {s : Statement} {text : Text}
    (hs : store.statementAt id at' = some s)
    (hsingle : (Source.expandedStatements s.column0 text).length = 1) :
    ∃ new, new ∈ Source.expandedStatements s.column0 text ∧ ∀ file pos,
      (store.modifyFile id (·.splice at' text)).statementAt file pos =
        if id = file ∧ at' = pos then some new else store.statementAt file pos := by
  obtain ⟨new, hnew⟩ := List.length_eq_one_iff.1 hsingle
  refine ⟨new, hnew ▸ List.mem_cons_self, fun file pos => ?_⟩
  rw [store.statementAt_splice hs, hnew]
  dsimp only
  by_cases hother : id ≠ file ∨ at'.line ≠ pos.line ∨ pos.statement < at'.statement
  · rw [if_pos hother, if_neg]
    rintro ⟨rfl, rfl⟩
    simp at hother
  · rw [if_neg hother]
    simp only [not_or, ne_eq, Decidable.not_not, Nat.not_lt] at hother
    obtain ⟨rfl, hline, hle⟩ := hother
    by_cases heq : at'.statement = pos.statement
    · have hpos : at' = pos := by
        cases at'
        cases pos
        simp_all
      rw [if_pos (by simp [heq]), if_pos ⟨rfl, hpos⟩, heq, Nat.sub_self]
      rfl
    · have hne : ¬at' = pos := fun h => heq (congrArg Position.statement h)
      have hbehind : ¬pos.statement < at'.statement + [new].length := by
        rw [List.length_singleton]
        omega
      rw [if_neg hbehind, if_neg fun h => hne h.2]
      rfl

/-- One statement takes the place of one that was passed over. -/
theorem SettledTo.splice_single {s : Statement} {at' : Position} {text : Text}
    (h : store.SettledTo passed file pos) (hs : store.statementAt file at' = some s)
    (hnew : s.expanded = false)
    (hsingle : (Source.expandedStatements s.column0 text).length = 1) :
    (store.modifyFile file (·.splice at' text)).SettledTo passed file pos ∧
      store.KeepsTo (store.modifyFile file (·.splice at' text)) file pos := by
  obtain ⟨new, hmem, hstatement⟩ := exists_statementAt_splice hs hsingle
  refine ⟨⟨?_, fun n hn s' hs' => ?_⟩, ⟨fun n hn s' hs' hexpanded => ?_, fun n _ hend => ?_⟩⟩
  · rw [size_modifyFile]
    exact h.1
  · rw [hstatement] at hs'
    by_cases hpos : at' = ⟨pos.line, n⟩
    · rw [if_pos ⟨rfl, hpos⟩] at hs'
      cases hs'
      exact .inl (Source.expanded_of_mem_expandedStatements hmem)
    · rw [if_neg fun h => hpos h.2] at hs'
      exact h.2 n hn s' hs'
  · have hpos : ¬at' = ⟨pos.line, n⟩ := by
      rintro rfl
      cases hs.symm.trans hs'
      rw [hnew] at hexpanded
      cases hexpanded
    rw [hstatement, if_neg fun h => hpos h.2]
    exact ⟨s', hs', rfl, hexpanded⟩
  · obtain ⟨m, hm, hlt⟩ := store.lt_of_statementAt hs
    rw [lengthAt_splice store hs, hend]
    split
    next hline =>
      rw [hline.2, hend] at hm
      cases hm
      rw [Option.map_some, hsingle, Nat.sub_add_cancel (by omega)]
    next => rfl

theorem SettledTo.annotate (h : store.SettledTo passed file pos) (id : Nat) (at' : Position)
    {f : Statement → Statement} (hwording : ∀ s, (f s).wording = s.wording)
    (hexpanded : ∀ s, s.expanded = true → (f s).expanded = true) :
    (store.modifyFile id (·.modifyStatement at' f)).SettledTo passed file pos ∧
      store.KeepsTo (store.modifyFile id (·.modifyStatement at' f)) file pos := by
  refine ⟨⟨?_, fun n hn s hs => ?_⟩, ⟨fun n hn s hs hs' => ?_, fun n _ hend => ?_⟩⟩
  · rw [size_modifyFile]
    exact h.1
  · rw [statementAt_modifyStatement] at hs
    split at hs
    · obtain ⟨s', hs', rfl⟩ := Option.map_eq_some_iff.1 hs
      exact (h.2 n hn s' hs').imp_left (hexpanded s')
    · exact h.2 n hn s hs
  · rw [statementAt_modifyStatement, hs]
    split
    · exact ⟨f s, rfl, hwording s, hexpanded s hs'⟩
    · exact ⟨s, rfl, rfl, hs'⟩
  · rw [lengthAt_modifyStatement store id file pos.line at' hwording]
    exact hend

/-- **What is settled stays settled**, and the line is kept up to there, if positions that were
passed over are only ever replaced by one statement. -/
theorem SettledTo.edit {history : List Event} (h : store.SettledTo passed file pos)
    (hedit : Edit history store store') (hplaces : KeepsPlaces passed history) :
    store'.SettledTo passed file pos ∧ store.KeepsTo store' file pos := by
  cases hedit with
  | same => exact ⟨h, .refl _ _ _⟩
  | read hread =>
    cases hread with
    | load path text =>
      have hfile : ¬file = store.files.size := Nat.ne_of_lt h.1
      refine h.congr ?_ (fun n _ => ?_) fun n _ hend => ?_
      · dsimp only
        rw [Array.size_push]
        exact Nat.le_succ _
      · rw [statementAt_push, if_neg hfile]
      · rw [lengthAt, file_push store _ h.1]
        exact hend
    | binary bytes hnew => exact h.congr (Nat.le_refl _) (fun _ _ => rfl) fun _ _ hend => hend
  | @annotated id at' f hwording hexpanded =>
    exact h.annotate id at' hwording hexpanded
  | @spliced id at' s text hs hnew hnoted =>
    by_cases hhit : id = file ∧ at'.line = pos.line ∧ at'.statement < pos.statement
    · obtain ⟨rfl, hline, hlt⟩ := hhit
      have hpos : (⟨pos.line, at'.statement⟩ : Position) = at' := by rw [← hline]
      have hsettled := h.2 at'.statement hlt s
      rw [hpos] at hsettled
      rcases hsettled hs with hexpanded | hpassed
      · rw [hnew] at hexpanded
        cases hexpanded
      · exact h.splice_single hs hnew (hplaces id at' _ hpassed hnoted)
    · -- the statement stands behind the position, or elsewhere
      refine h.congr (Nat.le_of_eq (size_modifyFile ..).symm) (fun n hn => ?_) fun n hn hend => ?_
      · rw [store.statementAt_splice hs]
        refine if_pos ?_
        by_cases hid : id = file
        · by_cases hline : at'.line = pos.line
          · refine .inr (.inr ?_)
            have hle : ¬at'.statement < pos.statement := fun hlt => hhit ⟨hid, hline, hlt⟩
            dsimp only
            omega
          · exact .inr (.inl hline)
        · exact .inl hid
      · rw [lengthAt_splice store hs, if_neg]
        · exact hend
        · rintro ⟨rfl, hline⟩
          obtain ⟨m, hm, hlt⟩ := store.lt_of_statementAt hs
          rw [hline, hend] at hm
          cases hm
          exact hhit ⟨rfl, hline, Nat.lt_of_lt_of_le hlt hn⟩

end SourceStore

/-! ## Passes -/

/-- The positions that statements were passed over at, in passes before this one or in this one. -/
def PassedOver (earlier : Nat → Position → Prop) (taken : List Taking) (file : Nat)
    (pos : Position) : Prop :=
  earlier file pos ∨ ∃ t ∈ taken, t.file = file ∧ t.pos = pos

section Steps

variable {stage : Stage} {failing : Prop} {st st' : State} {earlier : Nat → Position → Prop}

theorem mem_history_of_steps (h : ReflTransGen (Change stage failing) st st') {event : Event}
    (hevent : event ∈ st.history) : event ∈ st'.history := by
  induction h with
  | refl => exact hevent
  | tail _ hlast ih => exact hlast.history_suffix.mem ih

theorem mem_asWritten_of_steps (h : ReflTransGen (Change stage failing) st st') {t : Taking}
    (ht : t ∈ st.asWritten) : t ∈ st'.asWritten := by
  induction h with
  | refl => exact ht
  | tail _ hlast ih => exact hlast.asWritten_suffix.mem ih

theorem passedOver_of_steps (h : ReflTransGen (Change stage failing) st st') {file : Nat}
    {pos : Position} (hpassed : PassedOver earlier st.asWritten file pos) :
    PassedOver earlier st'.asWritten file pos :=
  hpassed.imp_right fun ⟨t, ht, hfile⟩ => ⟨t, mem_asWritten_of_steps h ht, hfile⟩

/-- A pass that keeps the places has kept them before. -/
theorem KeepsPlaces.of_steps (h : ReflTransGen (Change stage failing) st st')
    (hplaces : KeepsPlaces (PassedOver earlier st'.asWritten) st'.history) :
    KeepsPlaces (PassedOver earlier st.asWritten) st.history :=
  fun file pos count hpassed hmem =>
    hplaces file pos count (passedOver_of_steps h hpassed) (mem_history_of_steps h hmem)

theorem growsInto_of_steps (h : ReflTransGen (Change stage failing) st st') :
    st.store.GrowsInto st'.store := by
  induction h with
  | refl => exact .refl _
  | tail _ hlast ih => exact ih.trans hlast.edit.growsInto

/-- **In a pass that keeps the places, what is settled stays settled**, and the line is kept up to
there. -/
theorem settledTo_of_steps {file : Nat} {pos : Position}
    (h : ReflTransGen (Change stage failing) st st')
    (hplaces : KeepsPlaces (PassedOver earlier st'.asWritten) st'.history)
    (hsettled : st.store.SettledTo (PassedOver earlier st.asWritten) file pos) :
    st'.store.SettledTo (PassedOver earlier st'.asWritten) file pos ∧
      st.store.KeepsTo st'.store file pos := by
  induction h with
  | refl => exact ⟨hsettled, .refl _ _ _⟩
  | @tail mid st' _ hlast ih =>
    have hstep : ReflTransGen (Change stage failing) mid st' := .single hlast
    obtain ⟨hmid, hkeeps⟩ := ih (hplaces.of_steps hstep)
    obtain ⟨hsettled', hkeeps'⟩ := hmid.edit hlast.edit fun file pos count hpassed =>
      hplaces file pos count (passedOver_of_steps hstep hpassed)
    exact ⟨hsettled'.mono fun _ _ => passedOver_of_steps hstep, hkeeps.trans hkeeps'⟩

end Steps

end MacroAssembler
