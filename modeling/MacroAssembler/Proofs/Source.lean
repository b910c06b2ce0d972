import MacroAssembler.Source.Store

/-!
# Statements of the sources

Where the statements of the store are after its files have been changed: after one of them was
modified, after one of them was replaced by the statements that its macros stand for, and after a
file was added.

The wording of a statement is what was written; a pass adds what it found out about it.
-/

namespace MacroAssembler

namespace SourceStore

variable (store : SourceStore)

/-- The statement at a position of a file. -/
def statementAt (file : Nat) (pos : Position) : Option Statement :=
  (store.file file).statement? pos

theorem statementAt_eq (file : Nat) (pos : Position) :
    store.statementAt file pos =
      (store.files[file]?).bind fun source =>
        (source.lines[pos.line]?).bind (·[pos.statement]?) := by
  rw [statementAt, SourceStore.file, SourceFile.statement?, Array.getD_eq_getD_getElem?]
  cases store.files[file]? with
  | some source => rfl
  | none => rfl

/-- A line of a file is changed.  There are no lines in a file that does not exist. -/
theorem file_modifyLine (id file line : Nat) (f : List Statement → List Statement) :
    (store.modifyFile id fun source => { source with lines := source.lines.modify line f }).file
      file = if id = file then
        { store.file file with lines := (store.file file).lines.modify line f }
      else store.file file := by
  rw [SourceStore.file, SourceStore.file, modifyFile, Array.getD_eq_getD_getElem?,
    Array.getD_eq_getD_getElem?, Array.getElem?_modify]
  split
  · cases store.files[file]? with
    | some source => rfl
    | none => rfl
  · rfl

theorem file_modifyStatement (id file : Nat) (at' : Position) (f : Statement → Statement) :
    (store.modifyFile id (·.modifyStatement at' f)).file file =
      if id = file then (store.file file).modifyStatement at' f else store.file file :=
  store.file_modifyLine id file at'.line _

theorem file_splice (id file : Nat) (at' : Position) (text : Text) :
    (store.modifyFile id (·.splice at' text)).file file =
      if id = file then (store.file file).splice at' text else store.file file :=
  store.file_modifyLine id file at'.line _

/-- After a statement was modified, it is the modified one, and all others are as they were. -/
theorem statementAt_modifyStatement (id file : Nat) (at' pos : Position)
    (f : Statement → Statement) :
    (store.modifyFile id (·.modifyStatement at' f)).statementAt file pos =
      if id = file ∧ at' = pos then (store.statementAt file pos).map f
      else store.statementAt file pos := by
  rw [statementAt, file_modifyStatement, statementAt]
  by_cases hfile : id = file
  · simp only [hfile, if_true, SourceFile.statement?, SourceFile.modifyStatement, true_and,
      Array.getElem?_modify]
    by_cases hline : at'.line = pos.line
    · rw [if_pos hline]
      cases (store.file file).lines[pos.line]? with
      | none => simp
      | some line =>
        simp only [Option.map_some, Option.bind_some, List.getElem?_modify]
        by_cases hstatement : at'.statement = pos.statement
        · have : at' = pos := by cases at'; cases pos; simp_all
          simp [this]
        · have : at' ≠ pos := fun h => hstatement (by rw [h])
          simp [this, hstatement]
    · have : at' ≠ pos := fun h => hline (by rw [h])
      simp [this, hline]
  · rw [if_neg hfile, if_neg fun h => hfile h.1]

/-- The statements of a line in which one was replaced by others. -/
theorem getElem?_replace {α : Type} {old new : List α} {a p : Nat} (ha : a < old.length) :
    (old.take a ++ new ++ old.drop (a + 1))[p]? =
      if p < a then old[p]?
      else if p < a + new.length then new[p - a]?
      else old[p + 1 - new.length]? := by
  have htake : (old.take a).length = a := by
    rw [List.length_take]
    omega
  by_cases hfront : p < a
  · rw [if_pos hfront, List.append_assoc, List.getElem?_append_left (by omega), List.getElem?_take,
      if_pos hfront]
  · rw [if_neg hfront, List.append_assoc, List.getElem?_append_right (by omega), htake]
    by_cases hnew : p < a + new.length
    · rw [if_pos hnew, List.getElem?_append_left (by omega)]
    · rw [if_neg hnew, List.getElem?_append_right (by omega), List.getElem?_drop]
      congr 1
      omega

/-- After a statement was replaced, the statements in front of it are where they were, and those
behind it have moved on. -/
theorem statementAt_splice {id : Nat} {at' : Position} {s : Statement}
    (hs : store.statementAt id at' = some s) (text : Text) (file : Nat) (pos : Position) :
    (store.modifyFile id (·.splice at' text)).statementAt file pos =
      let new := Source.expandedStatements s.column0 text
      if id ≠ file ∨ at'.line ≠ pos.line ∨ pos.statement < at'.statement then
        store.statementAt file pos
      else if pos.statement < at'.statement + new.length then new[pos.statement - at'.statement]?
      else store.statementAt file ⟨pos.line, pos.statement + 1 - new.length⟩ := by
  dsimp only
  rw [statementAt, file_splice]
  by_cases hfile : id = file
  · subst hfile
    obtain ⟨line, hline, hs⟩ := Option.bind_eq_some_iff.1 hs
    have hlt : at'.statement < line.length := (List.getElem?_eq_some_iff.1 hs).1
    simp only [statementAt, SourceFile.statement?, SourceFile.splice,
      Array.getElem?_modify, if_true, ne_eq, not_true_eq_false, false_or]
    by_cases hpos : at'.line = pos.line
    · rw [← hpos, hline]
      simp only [not_true_eq_false, false_or, if_true, Option.map_some, Option.bind_some, hs,
        Option.any_some]
      exact getElem?_replace hlt
    · simp [hpos]
  · simp [hfile, statementAt]

/-- A file that was added has new statements only. -/
theorem statementAt_push (source : SourceFile) (file : Nat) (pos : Position) :
    { store with files := store.files.push source }.statementAt file pos =
      if file = store.files.size then source.statement? pos else store.statementAt file pos := by
  rw [statementAt_eq, statementAt_eq]
  dsimp only
  rw [Array.getElem?_push]
  split
  · rfl
  · rfl

theorem statementAt_clearRows (file : Nat) (pos : Position) :
    store.clearRows.statementAt file pos =
      (store.statementAt file pos).map fun s => { s with row := none } := by
  rw [statementAt_eq, statementAt_eq, clearRows, Array.getElem?_map]
  cases store.files[file]? with
  | none => rfl
  | some source =>
    simp only [Option.map_some, Option.bind_some, SourceFile.clearRows, Array.getElem?_map]
    cases source.lines[pos.line]? with
    | none => rfl
    | some line => simp

end SourceStore

/-! ## Wordings -/

/-- What a statement says. -/
structure Wording where
  text : Text
  /-- Whether it starts a line, without a blank in front of it. -/
  column0 : Bool
  deriving DecidableEq, Repr

/-- The wording of a statement. -/
def Statement.wording (s : Statement) : Wording :=
  ⟨s.text, s.column0⟩

/-- The wordings of a file, line by line. -/
def SourceFile.wordings (file : SourceFile) : Array (List Wording) :=
  file.lines.map (·.map Statement.wording)

namespace SourceStore

variable (store : SourceStore)

/-- The wordings of the file with a number. -/
def wordings (file : Nat) : Array (List Wording) :=
  (store.file file).wordings

theorem wordings_modifyStatement (id file : Nat) (pos : Position) {f : Statement → Statement}
    (hf : ∀ s, (f s).wording = s.wording) :
    (store.modifyFile id (·.modifyStatement pos f)).wordings file = store.wordings file := by
  have hline : ∀ statements : List Statement,
      (statements.modify pos.statement f).map Statement.wording =
        statements.map Statement.wording := by
    intro statements
    refine List.ext_getElem? fun i => ?_
    rw [List.getElem?_map, List.getElem?_map, List.getElem?_modify]
    cases statements[i]? with
    | none => rfl
    | some s =>
      by_cases hi : pos.statement = i
      · simp [hi, hf]
      · simp [hi]
  rw [wordings, file_modifyStatement, wordings]
  split
  · refine Array.ext_getElem? fun i => ?_
    rw [SourceFile.wordings, SourceFile.wordings, SourceFile.modifyStatement, Array.getElem?_map,
      Array.getElem?_map, Array.getElem?_modify]
    cases (store.file file).lines[i]? with
    | none => simp
    | some line =>
      by_cases hi : pos.line = i
      · simp [hi, hline]
      · simp [hi]
  · rfl

/-- The wording at a position of a file. -/
def wordingAt (file : Nat) (pos : Position) : Option Wording :=
  (store.statementAt file pos).map Statement.wording

theorem wordingAt_eq (file : Nat) (pos : Position) :
    store.wordingAt file pos = ((store.wordings file)[pos.line]?).bind (·[pos.statement]?) := by
  rw [wordingAt, statementAt, SourceFile.statement?, wordings, SourceFile.wordings,
    Array.getElem?_map]
  cases (store.file file).lines[pos.line]? with
  | none => rfl
  | some line => rw [Option.map_some, Option.bind_some, Option.bind_some, List.getElem?_map]

/-- Whether there is a line, and how many statements it has, shows in the wordings. -/
theorem line_cases (file line : Nat) :
    ((store.file file).lines[line]? = none ∧ (store.wordings file)[line]? = none) ∨
    ∃ statements words, (store.file file).lines[line]? = some statements ∧
      (store.wordings file)[line]? = some words ∧ words.length = statements.length := by
  rw [wordings, SourceFile.wordings, Array.getElem?_map]
  cases (store.file file).lines[line]? with
  | none => exact Or.inl ⟨rfl, rfl⟩
  | some statements =>
    exact Or.inr ⟨statements, _, rfl, rfl, List.length_map _⟩

end SourceStore

end MacroAssembler
