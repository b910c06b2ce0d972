import MacroAssembler.Proofs.Passes

/-!
# The rows that the assembling pass takes up

The labels passes leave with each instruction the row of the table that they found for it, and the
assembling pass takes that row up without looking for it again.  It notices a row of an earlier
pass, or one for other operands, but not one for another mnemonic.  Here it is shown that there is
nothing to notice: a row that was left by the final labels pass is the one that the table has for
the instruction that now stands in the statement.

Rows are copied nowhere, and a statement that carries one has had its macros expanded, so its text
does not change any more.  `Change.row_origin` says where a row can come from in one step: the
statement had it before, perhaps at another place of its line, or it was left there just now.  All
invariants of rows follow from that.
-/

namespace MacroAssembler

open Relation SourceStore

variable {s : Statement} {pos : Position}
variable {file : Nat} {store : SourceStore} {text : Text} {row : FoundRow}

namespace Event

theorem follow_append (file : Nat) (pos : Position) (later earlier : List Event) :
    follow file pos (later ++ earlier) =
      (follow file pos earlier).bind fun pos => follow file pos later := by
  induction later with
  | nil => simp [follow]
  | cons event later ih =>
    rw [List.cons_append, follow, ih, Option.bind_assoc]
    rfl

end Event

/-! ## Where rows come from -/

/-- A row that fits the statement that it was left with: the statement has been expanded, and the
row is the one that the table has for the instruction in it. -/
def FoundRow.Fits (table : InstructionSet) (row : FoundRow) (s : Statement) : Prop :=
  s.expanded = true ∧ ∃ mnemonic operands,
    instructionOf s.text s.column0 = some (mnemonic, operands) ∧
    row.operands = Text.squeeze operands ∧ table.find mnemonic operands = some row.found

/-- A statement with its row was in a file before some steps, and has since moved along with
them. -/
def Statement.MovedFrom (store : SourceStore) (file : Nat) (pos : Position) (s : Statement)
    (steps : List Event) : Prop :=
  ∃ pos₀ s₀, store.statementAt file pos₀ = some s₀ ∧ s₀.row = s.row ∧ s₀.text = s.text ∧
    s₀.column0 = s.column0 ∧ (s₀.expanded = true → s.expanded = true) ∧
    Event.follow file pos₀ steps = some pos

/-- A statement that nothing happened to. -/
theorem Statement.MovedFrom.stay {steps : List Event} (hs : store.statementAt file pos = some s)
    (hsteps : Event.follow file pos steps = some pos) :
    s.MovedFrom store file pos steps :=
  ⟨pos, s, hs, rfl, rfl, rfl, id, hsteps⟩

theorem row_of_mem_expandedStatements {column0 : Bool}
    (h : s ∈ Source.expandedStatements column0 text) : s.row = none := by
  rw [Source.expandedStatements, List.mem_map] at h
  obtain ⟨part, -, rfl⟩ := h
  rfl

theorem row_of_ofText {path : Text} (h : (SourceFile.ofText path text).statement? pos = some s) :
    s.row = none := by
  obtain ⟨line, hline, hs⟩ := Option.bind_eq_some_iff.1 h
  have hmem : line ∈ (Source.stripComments text).map Source.statements := by
    rw [SourceFile.ofText, List.getElem?_toArray] at hline
    exact List.mem_of_getElem? hline
  obtain ⟨line', -, rfl⟩ := List.mem_map.1 hmem
  have hs := List.mem_of_getElem? hs
  rw [Source.statements, List.mem_map] at hs
  obtain ⟨part, -, rfl⟩ := hs
  rfl

/-- A file that is read brings no rows. -/
theorem SourceStore.Step.row_origin {store' : SourceStore} (h : store.Step store')
    (hs : store'.statementAt file pos = some s) (hrow : s.row = some row) :
    store.statementAt file pos = some s := by
  cases h with
  | load path text =>
    rw [statementAt_push] at hs
    split at hs
    · rw [row_of_ofText hs] at hrow
      cases hrow
    · exact hs
  | binary bytes hnew => exact hs

/-- A statement that was replaced leaves no row behind, and those behind it move on with theirs. -/
theorem SourceStore.row_origin_splice {file' : Nat} {at' : Position} {old : Statement}
    (hold : store.statementAt file' at' = some old)
    (hs : (store.modifyFile file' (·.splice at' text)).statementAt file pos = some s)
    (hrow : s.row = some row) :
    s.MovedFrom store file pos
      [.spliced file' at' (Source.expandedStatements old.column0 text).length] := by
  rw [statementAt_splice _ hold] at hs
  dsimp only at hs
  have hnone : ∀ s ∈ Source.expandedStatements old.column0 text, s.row = none := fun _ =>
    row_of_mem_expandedStatements
  generalize Source.expandedStatements old.column0 text = new at hs hnone ⊢
  split at hs
  next hfront =>
    refine .stay hs ?_
    simp [Event.follow, Event.move, hfront]
  next hbehind =>
    simp only [not_or, ne_eq, Decidable.not_not, Nat.not_lt] at hbehind
    obtain ⟨rfl, hline, hle⟩ := hbehind
    split at hs
    next hnew =>
      rw [hnone s (List.mem_of_getElem? hs)] at hrow
      cases hrow
    next hlast =>
      -- the statement stood one place behind the old one for each place behind the new ones
      have hfar : ¬pos.statement + 1 - new.length < at'.statement := by omega
      have hne : pos.statement + 1 - new.length ≠ at'.statement := by omega
      have hback : pos.statement + 1 - new.length - 1 + new.length = pos.statement := by omega
      refine ⟨_, s, hs, rfl, rfl, rfl, id, ?_⟩
      simp [Event.follow, Event.move, hline, hfar, hne, hback]

/-- **Where a row comes from.**  After a step, a row stands with the statement that had it before
the step, or it was left with its statement in the step, and fits it. -/
theorem Change.row_origin {stage : Stage} {failing : Prop} {st st' : State}
    (h : Change stage failing st st') (hs : st'.store.statementAt file pos = some s)
    (hrow : s.row = some row) :
    ∃ new, st'.history = new ++ st.history ∧
      (s.MovedFrom st.store file pos new ∨
        (new = [.matched file pos] ∧ row.pass = stage.kind ∧ row.Fits stage.table s)) := by
  cases h with
  | act h =>
    rw [h.store_eq] at hs
    cases h with
    | control h => exact ⟨[], congrArg Tracked.history h, .inl (.stay hs rfl)⟩
    | recalled | anticipated | assigned | labelled | exported | awaited | reached | drawn =>
      exact ⟨[_], rfl, .inl (.stay hs rfl)⟩
    | _ => exact ⟨[], rfl, .inl (.stay hs rfl)⟩
  | files h => exact ⟨[], rfl, .inl (.stay (h.row_origin hs hrow) rfl)⟩
  | expanded file' at' =>
    refine ⟨[], rfl, .inl ?_⟩
    rw [statementAt_modifyStatement] at hs
    split at hs
    · obtain ⟨old, hold, rfl⟩ := Option.map_eq_some_iff.1 hs
      exact ⟨pos, old, hold, rfl, rfl, rfl, fun _ => rfl, rfl⟩
    · exact .stay hs rfl
  | spliced text hold hnew => exact ⟨[_], rfl, .inl (row_origin_splice hold hs hrow)⟩
  | @matched file' at' old mnemonic operands found hold hexpanded hins hfind =>
    have hmodified : (st.store.modifyFile file' (·.modifyStatement at' fun s =>
        { s with row := some ⟨stage.kind, Text.squeeze operands, found⟩ })).statementAt file pos =
        some s := hs
    refine ⟨[.matched file' at'], rfl, ?_⟩
    rw [statementAt_modifyStatement] at hmodified
    split at hmodified
    next heq =>
      obtain ⟨rfl, rfl⟩ := heq
      rw [hold] at hmodified
      cases hmodified
      cases hrow
      exact .inr ⟨rfl, rfl, hexpanded, mnemonic, operands, hins, rfl, hfind⟩
    next => exact .inl (.stay hmodified rfl)
  | encoded | entered | left | skipped | passedHead | passedEnd =>
    exact ⟨[_], rfl, .inl (.stay hs rfl)⟩
  | branches | macros | nextRound | abandoned => exact ⟨[], rfl, .inl (.stay hs rfl)⟩

/-! ## Invariants of rows -/

/-- Every row in the sources has a property. -/
def SourceStore.AllRows (store : SourceStore)
    (P : (file : Nat) → (pos : Position) → Statement → FoundRow → Prop) : Prop :=
  ∀ file pos s row, store.statementAt file pos = some s → s.row = some row → P file pos s row

section Steps

variable {stage : Stage} {failing : Prop} {st st' : State}

/-- Every row fits the statement that it stands with. -/
theorem Change.rows_fit (h : Change stage failing st st')
    (hst : st.store.AllRows fun _ _ s row => row.Fits stage.table s) :
    st'.store.AllRows fun _ _ s row => row.Fits stage.table s := by
  intro file pos s row hs hrow
  obtain ⟨new, -, hmoved | ⟨-, -, hfits⟩⟩ := h.row_origin hs hrow
  · obtain ⟨pos₀, s₀, hs₀, hrow₀, htext, hcolumn, hexpanded, -⟩ := hmoved
    obtain ⟨hexpanded₀, hrest⟩ := hst file pos₀ s₀ row hs₀ (hrow₀.trans hrow)
    rw [htext, hcolumn] at hrest
    exact ⟨hexpanded hexpanded₀, hrest⟩
  · exact hfits

/-- A pass that is not the final labels pass leaves no rows of it. -/
theorem Change.rows_not_final (hkind : stage.kind ≠ .final) (h : Change stage failing st st')
    (hst : st.store.AllRows fun _ _ _ row => row.pass ≠ .final) :
    st'.store.AllRows fun _ _ _ row => row.pass ≠ .final := by
  intro file pos s row hs hrow
  obtain ⟨new, -, hmoved | ⟨-, hpass, -⟩⟩ := h.row_origin hs hrow
  · obtain ⟨pos₀, s₀, hs₀, hrow₀, -⟩ := hmoved
    exact hst file pos₀ s₀ row hs₀ (hrow₀.trans hrow)
  · rw [hpass]
    exact hkind

/-- A labels pass has executed the statement that now stands at a position as an instruction. -/
def Executed (history : List Event) (file : Nat) (pos : Position) : Prop :=
  ∃ after before pos₀, history = after ++ .matched file pos₀ :: before ∧
    Event.follow file pos₀ after = some pos

theorem Executed.append {history : List Event} {file : Nat} {pos₀ pos : Position}
    (h : Executed history file pos₀) {new : List Event}
    (hnew : Event.follow file pos₀ new = some pos) : Executed (new ++ history) file pos := by
  obtain ⟨after, before, pos₁, rfl, hafter⟩ := h
  refine ⟨new ++ after, before, pos₁, by rw [List.append_assoc], ?_⟩
  rw [Event.follow_append, hafter, Option.bind_some, hnew]

/-- The rows that the final labels pass has left stand with statements that it has executed as
instructions. -/
theorem Change.rows_executed (h : Change stage failing st st')
    (hst : st.store.AllRows fun file pos _ row =>
      row.pass = .final → Executed st.history file pos) :
    st'.store.AllRows fun file pos _ row =>
      row.pass = .final → Executed st'.history file pos := by
  intro file pos s row hs hrow hpass
  obtain ⟨new, hhistory, hmoved | ⟨rfl, -, -⟩⟩ := h.row_origin hs hrow
  · obtain ⟨pos₀, s₀, hs₀, hrow₀, -, -, -, hfollow⟩ := hmoved
    rw [hhistory]
    exact (hst file pos₀ s₀ row hs₀ (hrow₀.trans hrow) hpass).append hfollow
  · exact ⟨[], st.history, pos, hhistory, rfl⟩

/-- After the final labels pass its rows stay with the statements that it has executed. -/
theorem Change.rows_executed_before (hkind : stage.kind ≠ .final) {done : List Event}
    (h : Change stage failing st st')
    (hst : st.store.AllRows fun file pos _ row => row.pass = .final →
      ∃ pos₀, Executed done file pos₀ ∧ Event.follow file pos₀ st.history = some pos) :
    st'.store.AllRows fun file pos _ row => row.pass = .final →
      ∃ pos₀, Executed done file pos₀ ∧ Event.follow file pos₀ st'.history = some pos := by
  intro file pos s row hs hrow hpass
  obtain ⟨new, hhistory, hmoved | ⟨-, hstage, -⟩⟩ := h.row_origin hs hrow
  · obtain ⟨pos₁, s₁, hs₁, hrow₁, -, -, -, hfollow⟩ := hmoved
    obtain ⟨pos₀, hexecuted, hstood⟩ := hst file pos₁ s₁ row hs₁ (hrow₁.trans hrow) hpass
    refine ⟨pos₀, hexecuted, ?_⟩
    rw [hhistory, Event.follow_append, hstood, Option.bind_some, hfollow]
  · exact absurd (hstage.symm.trans hpass) hkind

end Steps

/-! ## Rows that are taken up -/

/-- Taking up a row that fits never runs into other operands, and yields what the table has for the
instruction.  The row is one of the final labels pass. -/
theorem settledRow_of_fits {table : InstructionSet} {mnemonic operands : Text}
    (hins : instructionOf s.text s.column0 = some (mnemonic, operands))
    (hfits : ∀ row, s.row = some row → row.Fits table s) :
    (∀ before after, PassM.settledRow s.row mnemonic operands ≠ .error (.changed before after)) ∧
    ∀ found, PassM.settledRow s.row mnemonic operands = .ok found →
      table.find mnemonic operands = some found ∧ ∃ row, s.row = some row ∧ row.pass = .final := by
  cases hrow : s.row with
  | none =>
    refine ⟨?_, ?_⟩
    · intro before after h
      cases h
    · intro found h
      cases h
  | some row =>
    obtain ⟨-, mnemonic', operands', hins', hoperands, hfind⟩ := hfits row hrow
    rw [hins] at hins'
    cases hins'
    rw [PassM.settledRow]
    by_cases hpass : row.pass = .final
    · rw [if_neg (not_not_intro hpass), if_neg (not_not_intro hoperands)]
      refine ⟨?_, ?_⟩
      · intro before after h
        cases h
      · intro found h
        cases h
        exact ⟨hfind, row, rfl, hpass⟩
    · rw [if_pos hpass]
      refine ⟨?_, ?_⟩
      · intro before after h
        cases h
      · intro found h
        cases h

/-- A row was taken up well, after some steps of the assembling pass: not for other operands, and if
it was not refused, it is the one that the table has for the instruction, and the final labels pass
has executed the same statement. -/
def TakenUp (table : InstructionSet) (done earlier : List Event) (file : Nat) (pos : Position)
    (statement : Option Statement) (outcome : Except Desync Match) : Prop :=
  (∀ before after, outcome ≠ .error (.changed before after)) ∧
  ∀ found, outcome = .ok found → ∃ s mnemonic operands, statement = some s ∧
    instructionOf s.text s.column0 = some (mnemonic, operands) ∧
    table.find mnemonic operands = some found ∧
    ∃ pos₀, Executed done file pos₀ ∧ Event.follow file pos₀ earlier = some pos

/-- What is kept in the assembling pass, where the final labels pass has the history `done`. -/
structure RowsSettled (table : InstructionSet) (done : List Event) (st : State) : Prop where
  fits : st.store.AllRows fun _ _ s row => row.Fits table s
  executed : st.store.AllRows fun file pos _ row => row.pass = .final →
    ∃ pos₀, Executed done file pos₀ ∧ Event.follow file pos₀ st.history = some pos
  takenUp : ∀ later file pos statement outcome earlier,
    st.history = later ++ .encoded file pos statement outcome :: earlier →
    TakenUp table done earlier file pos statement outcome

theorem RowsSettled.step {stage : Stage} (hkind : stage.kind ≠ .final) {done : List Event}
    {failing : Prop} {st st' : State} (h : Change stage failing st st')
    (hst : RowsSettled stage.table done st) :
    RowsSettled stage.table done st' where
  fits := h.rows_fit hst.fits
  executed := h.rows_executed_before hkind hst.executed
  takenUp := by
    intro later file pos statement outcome earlier hhistory
    rcases h.history_eq with heq | ⟨event, heq, hevent⟩
    · exact hst.takenUp later file pos statement outcome earlier (heq.symm.trans hhistory)
    · rw [heq] at hhistory
      cases later with
      | cons first later =>
        -- the row was taken up before this step
        obtain ⟨-, hrest⟩ := List.cons.inj hhistory
        exact hst.takenUp later file pos statement outcome earlier hrest
      | nil =>
        obtain ⟨rfl, rfl⟩ := List.cons.inj hhistory
        obtain ⟨s, mnemonic, operands, rfl, hs, hins, rfl⟩ := hevent
        obtain ⟨hchanged, hok⟩ := settledRow_of_fits hins (hst.fits file pos s · hs)
        refine ⟨hchanged, fun found hfound => ?_⟩
        obtain ⟨hfind, row, hrow, hpass⟩ := hok found hfound
        exact ⟨s, mnemonic, operands, rfl, hins, hfind, hst.executed file pos s row hs hrow hpass⟩

/-! ## Rows through the passes -/

namespace Assembler.Passes

variable {a : Assembler} {path : Text} (p : Passes a path)

/-- An assembly starts without rows. -/
theorem rows_loaded : p.loaded.AllRows fun _ _ _ _ => False := by
  have hsteps : ReflTransGen SourceStore.Step a.store.clearRows p.loaded := by
    have hload := load_follows path a.store.clearRows
    rwa [LeadsFrom, stateAfter_of_ok p.load_eq] at hload
  refine keeps_of_steps (P := fun store => store.AllRows fun _ _ _ _ => False) ?_ hsteps ?_
  · intro store store' hstep hstore file pos s row hs hrow
    exact hstore file pos s row (hstep.row_origin hs hrow) hrow
  · intro file pos s row hs hrow
    rw [statementAt_clearRows] at hs
    obtain ⟨s₀, -, rfl⟩ := Option.map_eq_some_iff.1 hs
    cases hrow

theorem rows_draft :
    p.draft.store.AllRows fun _ _ s row => row.Fits a.table s ∧ row.pass ≠ .final := by
  have hfit : p.draft.store.AllRows fun _ _ s row => row.Fits a.table s :=
    keeps_of_steps (P := fun st => st.store.AllRows fun _ _ s row => row.Fits a.table s)
      (fun _ _ h => h.rows_fit) p.draft_steps
      fun file pos s row hs hrow => (p.rows_loaded file pos s row hs hrow).elim
  have hkind : PassKind.draft ≠ .final := by decide
  have hpass : p.draft.store.AllRows fun _ _ _ row => row.pass ≠ .final :=
    keeps_of_steps (P := fun st => st.store.AllRows fun _ _ _ row => row.pass ≠ .final)
      (fun _ _ h => h.rows_not_final hkind) p.draft_steps
      fun file pos s row hs hrow => (p.rows_loaded file pos s row hs hrow).elim
  exact fun file pos s row hs hrow => ⟨hfit file pos s row hs hrow, hpass file pos s row hs hrow⟩

theorem rows_final : p.final.store.AllRows fun file pos s row =>
    row.Fits a.table s ∧ (row.pass = .final → Executed p.final.history file pos) := by
  have hfit : p.final.store.AllRows fun _ _ s row => row.Fits a.table s :=
    keeps_of_steps (P := fun st => st.store.AllRows fun _ _ s row => row.Fits a.table s)
      (fun _ _ h => h.rows_fit) p.final_steps
      fun file pos s row hs hrow => (p.rows_draft file pos s row hs hrow).1
  have hexecuted := keeps_of_steps
    (P := fun st => st.store.AllRows fun file pos _ row =>
      row.pass = .final → Executed st.history file pos)
    (fun _ _ h => h.rows_executed) p.final_steps
    fun file pos s row hs hrow hpass => absurd hpass (p.rows_draft file pos s row hs hrow).2
  exact fun file pos s row hs hrow =>
    ⟨hfit file pos s row hs hrow, hexecuted file pos s row hs hrow⟩

theorem rowsSettled : RowsSettled a.table p.final.history p.done := by
  have hkind : PassKind.assemble ≠ .final := by decide
  have hstep : ∀ st st', Change p.assembling True st st' → RowsSettled a.table p.final.history st →
      RowsSettled a.table p.final.history st' :=
    fun _ _ h => RowsSettled.step hkind h
  refine keeps_of_steps hstep p.done_steps ⟨?_, ?_, ?_⟩
  · exact fun file pos s row hs hrow => (p.rows_final file pos s row hs hrow).1
  · intro file pos s row hs hrow hpass
    exact ⟨pos, (p.rows_final file pos s row hs hrow).2 hpass, rfl⟩
  · intro later file pos statement outcome earlier hhistory
    simp [start, State.initial] at hhistory

end Assembler.Passes

namespace Assembler

/-- **The assembling pass encodes what the table has for an instruction.**  Whenever it executes a
statement as an instruction, with the history `earlier`, the row that it finds there was not left
for other operands.  If it takes the row up, then the row is the one that the table has for the
instruction that now stands in the statement, and the final labels pass of the same assembly has
executed the same statement as an instruction. -/
theorem encoded_row_eq_find {a : Assembler} {path : Text} (p : Passes a path)
    {later earlier : List Event} {file : Nat} {pos : Position} {statement : Option Statement}
    {outcome : Except Desync Match}
    (h : p.done.history = later ++ .encoded file pos statement outcome :: earlier) :
    (∀ before after, outcome ≠ .error (.changed before after)) ∧
    ∀ found, outcome = .ok found → ∃ s mnemonic operands, statement = some s ∧
      instructionOf s.text s.column0 = some (mnemonic, operands) ∧
      a.table.find mnemonic operands = some found ∧
      ∃ pos₀, Executed p.final.history file pos₀ ∧ Event.follow file pos₀ earlier = some pos :=
  p.rowsSettled.takenUp later file pos statement outcome earlier h

/-- A program in which the final labels pass is the first to reach some instructions, and replaces a
statement between them. -/
def lateMacro : Assembler where
  table := InstructionSet.ofRows [Z80.form "LD" "A,*" [0x3E] 2 .plain]
  store := SourceStore.addMemory {} "main".toList <|
    (" .deflong twice(x)\n ld a, x\n ld a, x + 1\n .enddeflong\n" ++
      " .if later\n ld a, 1 \\ twice(3) \\ ld a, 5\n .endif\nlater = 5\n").toList

/-- Whether a row was taken up in a step. -/
def takesUpRow : Event → Bool
  | .encoded _ _ _ (.ok _) => true
  | _ => false

theorem encoded_row_eq_find_lateMacro : ∃ (p : Passes lateMacro "main".toList)
    (later earlier : List Event) (file : Nat) (pos : Position) (statement : Option Statement)
    (found : Match), p.done.history = later ++ .encoded file pos statement (.ok found) :: earlier ∧
    ∃ s mnemonic operands, statement = some s ∧
      instructionOf s.text s.column0 = some (mnemonic, operands) ∧
      lateMacro.table.find mnemonic operands = some found ∧
      ∃ pos₀, Executed p.final.history file pos₀ ∧ Event.follow file pos₀ earlier = some pos := by
  have hrun : ((Passes.run lateMacro "main".toList).any fun p =>
      p.done.history.any takesUpRow) = true := by decide +kernel
  obtain ⟨p, -, hp⟩ := (Option.any_eq_true _ _).1 hrun
  obtain ⟨event, hmem, htakes⟩ := List.any_eq_true.1 hp
  obtain ⟨later, earlier, hhistory⟩ := List.append_of_mem hmem
  cases event with
  | encoded file pos statement outcome =>
    cases outcome with
    | ok found =>
      refine ⟨p, later, earlier, file, pos, statement, found, hhistory, ?_⟩
      exact (encoded_row_eq_find p hhistory).2 found rfl
    | error detail => cases htakes
  | _ => cases htakes

end Assembler

end MacroAssembler
