import MacroAssembler.Proofs.Companion
import MacroAssembler.Proofs.SettledRow

/-!
# Sources that differ in their rows

The sources that an assembly has left and those of a second assembly over them have the same text:
they differ in the rows that passes have found for the instructions.  Two such stores have the same
files under the same numbers, and lines of the same lengths with the same statements in them.

A row stands with a statement that was executed as an instruction.  So it has been expanded, and all
in front of it is settled: a row stays where it is when a statement is replaced.
-/

namespace MacroAssembler

/-! ## The same text -/

namespace SourceStore

variable {store store' : SourceStore} {file : Nat} {pos : Position} {s : Statement}
variable {path : Text} {id : Nat}

/-- The row that was left with the statement at a position. -/
def rowAt (store : SourceStore) (file : Nat) (pos : Position) : Option FoundRow :=
  (store.statementAt file pos).bind Statement.row

/-- Two stores differ in nothing but the rows. -/
def SameText (store store' : SourceStore) : Prop :=
  store'.clearRows = store.clearRows

theorem file_clearRows (store : SourceStore) (file : Nat) :
    store.clearRows.file file = (store.file file).clearRows := by
  rw [SourceStore.file, SourceStore.file, clearRows, Array.getD_eq_getD_getElem?,
    Array.getD_eq_getD_getElem?, Array.getElem?_map]
  cases store.files[file]? with
  | none =>
    have hlines : (default : SourceFile).lines = #[] := rfl
    rw [Option.map_none, Option.getD_none, SourceFile.clearRows, hlines, Array.map_empty]
    rfl
  | some source => rfl

theorem size_clearRows (store : SourceStore) : store.clearRows.files.size = store.files.size :=
  Array.size_map

theorem path_clearRows (store : SourceStore) (file : Nat) :
    (store.clearRows.file file).path = (store.file file).path := by
  rw [file_clearRows]
  rfl

theorem lengthAt_clearRows (store : SourceStore) (file line : Nat) :
    store.clearRows.lengthAt file line = store.lengthAt file line := by
  rw [lengthAt, lengthAt, file_clearRows, SourceFile.clearRows]
  dsimp only
  rw [Array.getElem?_map, Option.map_map]
  congr 1
  funext statements
  exact List.length_map _

/-- There is no statement at the end of a line. -/
theorem statementAt_eq_none_iff : store.statementAt file pos = none ↔
    store.atLineEnd file pos ≠ some false := by
  rw [statementAt, SourceFile.statement?, atLineEnd, lengthAt]
  cases (store.file file).lines[pos.line]? with
  | none => simp
  | some line => simp

/-- Stores are equal if their files have equal statements. -/
theorem eq_of_statementAt_eq
    (hrest : store'.memory = store.memory ∧ store'.binaries = store.binaries ∧
      store'.includeDirs = store.includeDirs ∧ store'.disk = store.disk)
    (hsize : store'.files.size = store.files.size)
    (hpath : ∀ file, (store'.file file).path = (store.file file).path)
    (hlength : ∀ file line, store'.lengthAt file line = store.lengthAt file line)
    (hstatement : ∀ file pos, store'.statementAt file pos = store.statementAt file pos) :
    store' = store := by
  have hfile : ∀ file, store'.file file = store.file file := by
    intro file
    have hlines : (store'.file file).lines = (store.file file).lines := by
      refine Array.ext_getElem? fun line => ?_
      have hsame := hlength file line
      unfold lengthAt at hsame
      cases hline : (store.file file).lines[line]? with
      | none =>
        rw [hline, Option.map_none, Option.map_eq_none_iff] at hsame
        exact hsame
      | some statements =>
        rw [hline, Option.map_some] at hsame
        obtain ⟨statements', hline', -⟩ := Option.map_eq_some_iff.1 hsame
        rw [hline']
        refine congrArg some (List.ext_getElem? fun n => ?_)
        have hn := hstatement file ⟨line, n⟩
        rw [statementAt, statementAt, SourceFile.statement?, SourceFile.statement?] at hn
        rw [hline, hline'] at hn
        exact hn
    have heta : ∀ source : SourceFile, source = ⟨source.path, source.lines⟩ := fun _ => rfl
    rw [heta (store'.file file), heta (store.file file), hpath, hlines]
  have hfiles : store'.files = store.files := by
    refine Array.ext hsize fun file h h' => ?_
    rw [Array.getElem_eq_getD default, Array.getElem_eq_getD default]
    exact hfile file
  obtain ⟨hmemory, hbinaries, hincludeDirs, hdisk⟩ := hrest
  have heta : ∀ store : SourceStore, store =
      ⟨store.files, store.memory, store.binaries, store.includeDirs, store.disk⟩ := fun _ => rfl
  rw [heta store', hfiles, hmemory, hbinaries, hincludeDirs, hdisk]

namespace SameText

theorem clearRows_eq (h : store.SameText store') : store'.clearRows = store.clearRows :=
  h

theorem trans {store'' : SourceStore} (h : store.SameText store') (h' : store'.SameText store'') :
    store.SameText store'' :=
  h'.clearRows_eq.trans h.clearRows_eq

theorem rest_eq (h : store.SameText store') : store'.memory = store.memory ∧
    store'.binaries = store.binaries ∧ store'.includeDirs = store.includeDirs ∧
    store'.disk = store.disk := by
  have hclear := h.clearRows_eq
  injection hclear with _ hmemory hbinaries hincludeDirs hdisk
  exact ⟨hmemory, hbinaries, hincludeDirs, hdisk⟩

theorem size_eq (h : store.SameText store') : store'.files.size = store.files.size := by
  rw [← size_clearRows, h.clearRows_eq, size_clearRows]

theorem path_eq (h : store.SameText store') (file : Nat) :
    (store'.file file).path = (store.file file).path := by
  rw [← path_clearRows, h.clearRows_eq, path_clearRows]

theorem lengthAt_eq (h : store.SameText store') (file line : Nat) :
    store'.lengthAt file line = store.lengthAt file line := by
  rw [← lengthAt_clearRows, h.clearRows_eq, lengthAt_clearRows]

theorem statementAt (h : store.SameText store') (hs : store.statementAt file pos = some s) :
    ∃ row, store'.statementAt file pos = some { s with row := row } := by
  have hclear : (store'.statementAt file pos).map (fun s => { s with row := none }) =
      some { s with row := none } := by
    rw [← statementAt_clearRows, h.clearRows_eq, statementAt_clearRows, hs]
    rfl
  obtain ⟨s', hs', heq⟩ := Option.map_eq_some_iff.1 hclear
  refine ⟨s'.row, ?_⟩
  have hback : s' = { { s' with row := none } with row := s'.row } := rfl
  rw [hs', hback, heq]

theorem atLineEnd_eq (h : store.SameText store') (file : Nat) (pos : Position) :
    store'.atLineEnd file pos = store.atLineEnd file pos := by
  rw [atLineEnd, h.lengthAt_eq, atLineEnd]

/-- Stores that also have the same rows are equal. -/
theorem eq_of_rowAt_eq (h : store.SameText store')
    (hrow : ∀ file pos, store'.rowAt file pos = store.rowAt file pos) : store' = store := by
  refine eq_of_statementAt_eq h.rest_eq h.size_eq h.path_eq h.lengthAt_eq fun file pos => ?_
  have hrow := hrow file pos
  unfold rowAt at hrow
  cases hs : store.statementAt file pos with
  | none =>
    have hclear : (store'.statementAt file pos).map (fun s => { s with row := none }) = none := by
      rw [← statementAt_clearRows, h.clearRows_eq, statementAt_clearRows, hs]
      rfl
    exact Option.map_eq_none_iff.1 hclear
  | some s =>
    obtain ⟨row, hs'⟩ := h.statementAt hs
    rw [hs, hs', Option.bind_some, Option.bind_some] at hrow
    rw [hs']
    dsimp only at hrow
    rw [hrow]

end SameText

/-! ## Rows -/

theorem rowAt_clearRows (file : Nat) (pos : Position) : store.clearRows.rowAt file pos = none := by
  rw [rowAt, statementAt_clearRows]
  cases store.statementAt file pos with
  | none => rfl
  | some s => rfl

theorem sameText_clearRows (store : SourceStore) : store.SameText store.clearRows := by
  refine eq_of_statementAt_eq ⟨rfl, rfl, rfl, rfl⟩ (size_clearRows _) (path_clearRows _)
    (lengthAt_clearRows _) fun file pos => ?_
  rw [statementAt_clearRows, statementAt_clearRows, Option.map_map]
  rfl

theorem rowAt_modifyStatement (id : Nat) (at' : Position) (f : Statement → Statement) (file : Nat)
    (pos : Position) : (store.modifyFile id (·.modifyStatement at' f)).rowAt file pos =
      if id = file ∧ at' = pos then (store.statementAt file pos).bind fun s => (f s).row
      else store.rowAt file pos := by
  rw [rowAt, statementAt_modifyStatement, rowAt]
  split
  · exact Option.bind_map ..
  · rfl

theorem rowAt_leaveRow {at' : Position} (hs : store.statementAt id at' = some s)
    (row : FoundRow) (file : Nat) (pos : Position) :
    (store.leaveRow id at' row).rowAt file pos =
      if id = file ∧ at' = pos then some row else store.rowAt file pos := by
  rw [leaveRow, rowAt_modifyStatement]
  split
  next h =>
    rw [← h.1, ← h.2, hs]
    rfl
  next => rfl

/-- A row that is left with a statement changes nothing else. -/
theorem sameText_leaveRow (store : SourceStore) (id : Nat) (at' : Position) (row : FoundRow) :
    store.SameText (store.leaveRow id at' row) := by
  refine eq_of_statementAt_eq ⟨rfl, rfl, rfl, rfl⟩ ?_ (fun file => ?_) (fun file line => ?_)
    fun file pos => ?_
  · rw [size_clearRows, size_clearRows]
    exact store.size_modifyFile id _
  · rw [path_clearRows, path_clearRows]
    rw [leaveRow, file_modifyStatement]
    split <;> rfl
  · rw [lengthAt_clearRows, lengthAt_clearRows]
    exact store.lengthAt_modifyStatement id file line at' fun _ => rfl
  · rw [statementAt_clearRows, statementAt_clearRows, leaveRow, statementAt_modifyStatement]
    split
    · rw [Option.map_map]
      rfl
    · rfl

/-- A file that is loaded brings no rows. -/
theorem rowAt_push (path text : Text) (file : Nat) (pos : Position) :
    { store with files := store.files.push (SourceFile.ofText path text) }.rowAt file pos =
      store.rowAt file pos := by
  rw [rowAt, statementAt_push, rowAt]
  split
  next hfile =>
    have hnone : store.statementAt file pos = none := by
      rw [statementAt_eq, hfile, Array.getElem?_eq_none (Nat.le_refl _)]
      rfl
    rw [hnone]
    cases hs : (SourceFile.ofText path text).statement? pos with
    | none => rfl
    | some s => exact row_of_ofText hs
  next => rfl

/-- Rows stand with statements that have been expanded and will keep their places. -/
def RowsFixed (store : SourceStore) (passed : Nat → Position → Prop) : Prop :=
  ∀ file pos row, store.rowAt file pos = some row → store.SettledTo passed file pos.next ∧
    ∃ s, store.statementAt file pos = some s ∧ s.expanded = true

theorem RowsFixed.mono {passed passed' : Nat → Position → Prop} (h : store.RowsFixed passed)
    (hpassed : ∀ file pos, passed file pos → passed' file pos) : store.RowsFixed passed' :=
  fun file pos row hrow => (h file pos row hrow).imp_left fun hsettled => hsettled.mono hpassed

section Splice

variable {passed : Nat → Position → Prop} {id : Nat} {at' : Position} {text : Text}

/-- There are no rows from a statement on that has not been settled. -/
theorem RowsFixed.eq_none (hfixed : store.RowsFixed passed)
    (hs : store.statementAt id at' = some s) (hnew : s.expanded = false) (hfree : ¬passed id at')
    {n : Nat} (hn : at'.statement ≤ n) : store.rowAt id ⟨at'.line, n⟩ = none := by
  cases hrow : store.rowAt id ⟨at'.line, n⟩ with
  | none => rfl
  | some row =>
    obtain ⟨⟨-, hsettled⟩, -⟩ := hfixed id _ row hrow
    rcases hsettled at'.statement (Nat.lt_succ_of_le hn) s hs with hexpanded | hpassed
    · rw [hnew] at hexpanded
      cases hexpanded
    · exact absurd hpassed hfree

/-- A row stays where it is when a statement is replaced. -/
theorem RowsFixed.rowAt_splice (hfixed : store.RowsFixed passed)
    (hs : store.statementAt id at' = some s) (hnew : s.expanded = false)
    (hsingle : passed id at' → (Source.expandedStatements s.column0 text).length = 1) (file : Nat)
    (pos : Position) : (store.modifyFile id (·.splice at' text)).rowAt file pos =
      store.rowAt file pos := by
  have hrowless : ∀ s' ∈ Source.expandedStatements s.column0 text, s'.row = none := fun _ =>
    row_of_mem_expandedStatements
  by_cases hpassed : passed id at'
  · obtain ⟨new, hmem, hstatement⟩ := exists_statementAt_splice hs (hsingle hpassed)
    rw [rowAt, hstatement]
    split
    next h =>
      obtain ⟨rfl, rfl⟩ := h
      rw [Option.bind_some, hrowless new hmem]
      cases hrow : store.rowAt id at' with
      | none => rfl
      | some row =>
        obtain ⟨-, s', hs', hexpanded⟩ := hfixed id at' row hrow
        cases hs.symm.trans hs'
        rw [hnew] at hexpanded
        cases hexpanded
    next => rfl
  · rw [rowAt, store.statementAt_splice hs]
    dsimp only
    split
    next => rfl
    next hbehind =>
      simp only [not_or, ne_eq, Decidable.not_not, Nat.not_lt] at hbehind
      obtain ⟨rfl, hline, hle⟩ := hbehind
      have hpos : pos = ⟨at'.line, pos.statement⟩ := by rw [hline]
      have hnone : store.rowAt id pos = none := by
        rw [hpos]
        exact hfixed.eq_none hs hnew hpassed hle
      rw [hnone]
      split
      next =>
        cases hs' : (Source.expandedStatements s.column0 text)[pos.statement - at'.statement]? with
        | none => rfl
        | some s' => exact hrowless s' (List.mem_of_getElem? hs')
      next hlast =>
        rw [← hline]
        exact hfixed.eq_none hs hnew hpassed (by omega)

end Splice

/-! ## Files -/

theorem loaded?_eq_some_iff : store.loaded? path = some id ↔
    id < store.files.size ∧ Path.same (store.file id).path path = true ∧
      ∀ n < id, ¬Path.same (store.file n).path path = true := by
  have hfile : ∀ (n : Nat) (h : n < store.files.size), store.files[n] = store.file n := by
    intro n h
    exact Array.getElem_eq_getD default
  rw [loaded?, Array.findIdx?_eq_some_iff_getElem]
  constructor
  · rintro ⟨hid, hsame, hbefore⟩
    rw [hfile] at hsame
    refine ⟨hid, hsame, fun n hn => ?_⟩
    have hbefore := hbefore n hn
    rw [hfile] at hbefore
    exact hbefore
  · rintro ⟨hid, hsame, hbefore⟩
    refine ⟨hid, ?_, fun n hn => ?_⟩
    · rw [hfile]
      exact hsame
    · rw [hfile]
      exact hbefore n hn

/-- The number of a loaded file stays what it is: files are only added behind it. -/
theorem loaded?_of_growsInto (hgrows : store.GrowsInto store') (h : store.loaded? path = some id) :
    store'.loaded? path = some id := by
  rw [loaded?_eq_some_iff] at h ⊢
  obtain ⟨hid, hsame, hbefore⟩ := h
  refine ⟨Nat.lt_of_lt_of_le hid hgrows.size_le, ?_, fun n hn => ?_⟩
  · rw [hgrows.path_eq id hid]
    exact hsame
  · rw [hgrows.path_eq n (Nat.lt_trans hn hid)]
    exact hbefore n hn

theorem SameText.loaded?_eq (h : store.SameText store') (hid : store.loaded? path = some id) :
    store'.loaded? path = some id := by
  rw [loaded?_eq_some_iff] at hid ⊢
  rw [h.size_eq, h.path_eq]
  refine ⟨hid.1, hid.2.1, fun n hn => ?_⟩
  rw [h.path_eq]
  exact hid.2.2 n hn

theorem loaded?_push (h : store.loaded? path = none) (text : Text) :
    { store with files := store.files.push (SourceFile.ofText path text) }.loaded? path =
      some store.files.size := by
  rw [loaded?_eq_some_iff]
  refine ⟨?_, ?_, fun n hn => ?_⟩
  · dsimp only
    rw [Array.size_push]
    exact Nat.lt_succ_self _
  · rw [SourceStore.file, Array.getD_eq_getD_getElem?, Array.getElem?_push, if_pos rfl]
    exact beq_self_eq_true _
  · have hfile : store.files[n] = store.file n := Array.getElem_eq_getD default
    rw [loaded?, Array.findIdx?_eq_none_iff] at h
    rw [file_push store _ hn, ← hfile, h _ (Array.getElem_mem hn)]
    exact Bool.false_ne_true

/-- What loading a file does. -/
theorem load_cases (h : load path store = .ok id store') :
    (store.loaded? path = some id ∧ store' = store) ∨
      store.loaded? path = none ∧ id = store.files.size ∧ ∃ text,
        store' = { store with files := store.files.push (SourceFile.ofText path text) } := by
  rw [load, get_bind_apply] at h
  cases hloaded : store.loaded? path with
  | some id' =>
    rw [hloaded] at h
    cases h
    exact .inl ⟨rfl, rfl⟩
  | none =>
    rw [hloaded] at h
    dsimp only at h
    refine .inr ⟨rfl, ?_⟩
    cases hmemory : atPath store.memory path with
    | some text =>
      rw [hmemory] at h
      cases h
      exact ⟨rfl, text, rfl⟩
    | none =>
      rw [hmemory] at h
      dsimp only at h
      cases hdisk : store.disk.readText path with
      | ok text =>
        rw [hdisk] at h
        cases h
        exact ⟨rfl, text, rfl⟩
      | error e =>
        rw [hdisk] at h
        cases h

/-- A file that is loaded is found again. -/
theorem loaded?_of_load (h : load path store = .ok id store') : store'.loaded? path = some id := by
  rcases load_cases h with ⟨hloaded, rfl⟩ | ⟨hnone, rfl, text, rfl⟩
  · exact hloaded
  · exact loaded?_push hnone text

theorem load_of_loaded? (h : store.loaded? path = some id) : load path store = .ok id store := by
  rw [load, get_bind_apply, h]
  rfl

theorem rowAt_load (h : load path store = .ok id store') (file : Nat) (pos : Position) :
    store'.rowAt file pos = store.rowAt file pos := by
  rcases load_cases h with ⟨-, rfl⟩ | ⟨-, -, text, rfl⟩
  · rfl
  · exact rowAt_push path text file pos

/-- What reading a file as bytes does. -/
theorem binary_cases {bytes : List UInt8} (h : binary path store = .ok bytes store') :
    (atPath store.binaries path = some bytes ∧ store' = store) ∨
      store' = { store with binaries := (path, bytes) :: store.binaries } := by
  rw [binary, get_bind_apply] at h
  cases hbytes : atPath store.binaries path with
  | some bytes' =>
    rw [hbytes] at h
    cases h
    exact .inl ⟨rfl, rfl⟩
  | none =>
    rw [hbytes] at h
    dsimp only at h
    refine .inr ?_
    cases hmemory : atPath store.memory path with
    | some text =>
      rw [hmemory] at h
      cases h
      rfl
    | none =>
      rw [hmemory] at h
      dsimp only at h
      cases hdisk : store.disk.readBytes path with
      | ok bytes =>
        rw [hdisk] at h
        cases h
        rfl
      | error e =>
        rw [hdisk] at h
        cases h

theorem atPath_of_binary {bytes : List UInt8} (h : binary path store = .ok bytes store') :
    atPath store'.binaries path = some bytes := by
  rcases binary_cases h with ⟨hbytes, rfl⟩ | rfl
  · exact hbytes
  · have hsame : Path.same path path = true := beq_self_eq_true _
    rw [atPath_cons, if_pos hsame]

theorem binary_of_atPath {bytes : List UInt8} (h : atPath store.binaries path = some bytes) :
    binary path store = .ok bytes store := by
  rw [binary, get_bind_apply, h]
  rfl

theorem firstFile_congr (hmemory : store'.memory = store.memory) (hdisk : store'.disk = store.disk)
    (paths : List Text) : store'.firstFile paths = store.firstFile paths := by
  have hisFile : ∀ path, store'.isFile path = store.isFile path := by
    intro path
    rw [isFile, isFile, hmemory, hdisk]
  induction paths with
  | nil => rfl
  | cons path rest ih => rw [firstFile, firstFile, hisFile, ih]

/-- The files that are named are found in the same places. -/
theorem resolve_congr {including : Option Nat} (hmemory : store'.memory = store.memory)
    (hincludeDirs : store'.includeDirs = store.includeDirs) (hdisk : store'.disk = store.disk)
    (hpath : ∀ file, including = some file → file < store.files.size ∧
      file < store'.files.size ∧ (store'.file file).path = (store.file file).path) (name : Text) :
    store'.resolve name including = store.resolve name including := by
  have hfile : ∀ {store : SourceStore} {file : Nat}, file < store.files.size →
      store.files[file]? = some (store.file file) := by
    intro store file h
    rw [Array.getElem?_eq_getElem h]
    exact congrArg some (Array.getElem_eq_getD default)
  have hbeside : (including.bind (store'.files[·]?)).bind (fun file => Path.parent? file.path) =
      (including.bind (store.files[·]?)).bind fun file => Path.parent? file.path := by
    cases including with
    | none => rfl
    | some file =>
      obtain ⟨hlt, hlt', hsame⟩ := hpath file rfl
      rw [Option.bind_some, Option.bind_some, hfile hlt, hfile hlt', Option.bind_some,
        Option.bind_some, hsame]
  rw [resolve, resolve, hbeside, hincludeDirs, firstFile_congr hmemory hdisk]

end SourceStore

end MacroAssembler
