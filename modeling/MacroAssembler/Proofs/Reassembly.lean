import MacroAssembler.Proofs.CompanionRun
import MacroAssembler.Proofs.MacroSlots
import MacroAssembler.Proofs.SameText

/-!
# Assembling again

An assembler keeps its sources from one assembly to the next, with their macros expanded.  So a
second assembly goes over other sources than the first one did: those that the first one has left.
Here a pass of the second assembly is followed beside the same pass of the first.  It goes through
the same positions, and there it finds what the first one found: what the first one had expanded has
not changed since, and what it had passed over has not changed in a way that counts.

The sources of the second assembly stay as they are.  All that is added to them are the rows of the
instructions.
-/

namespace MacroAssembler

open Relation SourceStore

/-! ## Expansion -/

/-- What becomes of the sources when the statement at a position is expanded. -/
inductive Expands (store : SourceStore) (file : Nat) (pos : Position) (s : Statement) :
    List Event → SourceStore → Prop
  | marked (new : List Event) : Expands store file pos s new
      (store.modifyFile file (·.modifyStatement pos fun s => { s with expanded := true }))
  | spliced (text : Text) (new : List Event) : Expands store file pos s
      (.spliced file pos (Source.expandedStatements s.column0 text).length :: new)
      (store.modifyFile file (·.splice pos text))

/-- The statement that was expanded, or the first of those in its place, has been expanded. -/
theorem Expands.statementAt {store store' : SourceStore} {file : Nat} {pos : Position}
    {s : Statement} {new : List Event} (h : Expands store file pos s new store')
    (hs : store.statementAt file pos = some s) :
    ∃ s', store'.statementAt file pos = some s' ∧ s'.expanded = true := by
  cases h with
  | marked =>
    refine ⟨{ s with expanded := true }, ?_, rfl⟩
    rw [statementAt_modifyStatement, if_pos ⟨rfl, rfl⟩, hs]
    rfl
  | spliced text new =>
    have hpos := Source.length_expandedStatements_pos s.column0 text
    refine ⟨(Source.expandedStatements s.column0 text)[0], ?_,
      Source.expanded_of_mem_expandedStatements (List.getElem_mem hpos)⟩
    rw [statementAt_splice _ hs]
    simp [hpos]

/-- Rows stay where they are when a statement is expanded. -/
theorem Expands.rowAt_eq {store store' : SourceStore} {file : Nat} {pos : Position} {s : Statement}
    {new : List Event} {passed : Nat → Position → Prop} (h : Expands store file pos s new store')
    (hs : store.statementAt file pos = some s) (hnew : s.expanded = false)
    (hrows : store.RowsFixed passed) (hplaces : KeepsPlaces passed new) (id : Nat)
    (at' : Position) : store'.rowAt id at' = store.rowAt id at' := by
  cases h with
  | marked =>
    rw [rowAt_modifyStatement]
    split
    · rfl
    · rfl
  | spliced text new =>
    exact hrows.rowAt_splice hs hnew
      (fun hpassed => hplaces file pos _ hpassed List.mem_cons_self) id at'

namespace PassM

variable {stage : Stage} {file : Nat} {pos : Position} {st st' : State}

/-- What the expansion of a statement does. -/
theorem expandStatement_cases {u : Unit} (hrun : expandStatement file pos stage st = .ok u st') :
    (unexpanded st file pos = none ∧ st' = st) ∨
      ∃ s new store, unexpanded st file pos = some s ∧ Expands st.store file pos s new store ∧
        st' = { st with store := store, history := new ++ st.history } := by
  rw [expandStatement_apply] at hrun
  cases hs : unexpanded st file pos with
  | none =>
    rw [hs] at hrun
    cases hrun
    exact .inl ⟨rfl, rfl⟩
  | some s =>
    rw [hs] at hrun
    dsimp only at hrun
    obtain ⟨text, st₁, htext, hreplace⟩ := bind_eq_ok hrun
    have hnoted : ReflTransGen Noted st st₁ := by
      have hperforms : Performs Noted stage
          (if Command.namesMacros s.text s.column0 then pure s.text else expandMacros s.text) :=
        iteInduction (fun _ => Performs.pure _) fun _ => expandMacros_noted s.text
      have hlead := hperforms st
      rwa [PerformsFrom, LeadsFrom, stateAfter_of_ok htext] at hlead
    obtain ⟨new, -, rfl⟩ := exists_of_noted hnoted
    refine .inr ⟨s, ?_⟩
    unfold replaceStatement at hreplace
    split at hreplace
    · cases hreplace
      exact ⟨new, _, rfl, .marked new, rfl⟩
    · cases hreplace
      exact ⟨_, _, rfl, .spliced text new, rfl⟩

/-- Nothing is expanded where there is nothing to expand. -/
theorem reach_of_unexpanded (h : unexpanded st file pos = none) : reach file pos stage st =
    .ok (st.store.statementAt file pos) (st.executing file pos) := by
  rw [reach_apply, expandStatement_apply, h]

theorem unexpanded_of_none (h : st.store.statementAt file pos = none) :
    unexpanded st file pos = none := by
  have hfile : (st.store.file file).statement? pos = none := h
  unfold unexpanded
  rw [hfile]
  split
  · rfl
  · rfl

theorem unexpanded_of_expanded {s : Statement} (hs : st.store.statementAt file pos = some s)
    (h : s.expanded = true) : unexpanded st file pos = none := by
  have hfile : (st.store.file file).statement? pos = some s := hs
  unfold unexpanded
  rw [hfile, Option.filter_some, h]
  split
  · rfl
  · rfl

end PassM

/-! ## What lies ahead -/

/-- The rest of an assembly, seen from one of its passes. -/
structure Outlook where
  /-- The end of the pass. -/
  last : State
  /-- The sources that the assembly leaves. -/
  final : SourceStore
  /-- The positions that statements were passed over at in earlier passes. -/
  earlier : Nat → Position → Prop
  errorCount_eq : last.diagnostics.errorCount = 0
  keepsPlaces : KeepsPlaces (PassedOver earlier last.asWritten) last.history
  grows : last.store.GrowsInto final
  keeps : ∀ file pos, last.store.SettledTo (PassedOver earlier last.asWritten) file pos →
    last.store.KeepsTo final file pos
  /-- What was passed over in the pass will be passed over alike in the sources that are left. -/
  alike : ∀ t ∈ last.asWritten, ∃ s, final.statementAt t.file t.pos = some s ∧
    t.bypass.Alike t.text s.text

namespace Outlook

variable (o : Outlook)

/-- In some surroundings, all statements in front of a position will keep their places. -/
def Settled (v : Surroundings) (file : Nat) (pos : Position) : Prop :=
  v.store.SettledTo (PassedOver o.earlier v.asWritten) file pos

variable {o} {stage : Stage} {st st' : State} {file : Nat} {pos : Position}

theorem growsInto (h : ReflTransGen (Change stage True) st o.last) : st.store.GrowsInto o.final :=
  (growsInto_of_steps h).trans o.grows

theorem settled_of_steps (h : ReflTransGen (Change stage True) st st')
    (hahead : ReflTransGen (Change stage True) st' o.last)
    (hsettled : o.Settled st.surroundings file pos) : o.Settled st'.surroundings file pos :=
  (settledTo_of_steps h (o.keepsPlaces.of_steps hahead) hsettled).1

theorem keepsTo (h : ReflTransGen (Change stage True) st o.last)
    (hsettled : o.Settled st.surroundings file pos) : st.store.KeepsTo o.final file pos := by
  obtain ⟨hlast, hkeeps⟩ := settledTo_of_steps h o.keepsPlaces hsettled
  exact hkeeps.trans (o.keeps file pos hlast)

/-- A line that ends at a settled position, or does not, is left so. -/
theorem atLineEnd_eq (h : ReflTransGen (Change stage True) st o.last)
    (hsettled : o.Settled st.surroundings file pos) :
    o.final.atLineEnd file pos = st.store.atLineEnd file pos := by
  have hgrows := growsInto h
  unfold SourceStore.atLineEnd
  cases hlength : st.store.lengthAt file pos.line with
  | none => rw [hgrows.length_eq_none file hsettled.1 pos.line hlength]
  | some n =>
    by_cases hend : n ≤ pos.statement
    · rw [(keepsTo h hsettled).ending n hend hlength]
    · obtain ⟨n', hn', hle⟩ := hgrows.length_le file hsettled.1 pos.line n hlength
      have hend' : ¬n' ≤ pos.statement := by omega
      rw [hn', Option.map_some, Option.map_some, decide_eq_false hend, decide_eq_false hend']

/-- The surroundings of the second assembly beside those of the first: the sources that the first
one leaves, with the rows that it has found so far. -/
structure Beside (o : Outlook) (v w : Surroundings) : Prop where
  file_eq : w.file = v.file
  loops_eq : w.loops = v.loops
  sameText : o.final.SameText w.store
  row_eq : ∀ file pos, w.store.rowAt file pos = v.store.rowAt file pos
  rows : v.store.RowsFixed (PassedOver o.earlier v.asWritten)
  file : ∀ file, v.file = some file → o.Settled v file ⟨0, 0⟩
  loops : ∀ loop ∈ v.loops, o.Settled v loop.file loop.resume

/-- Rows stay with statements that keep their places if they have been left with such statements. -/
theorem rowsFixed_of_steps (h : ReflTransGen (Change stage True) st st')
    (hahead : ReflTransGen (Change stage True) st' o.last)
    (hrow : ∀ file pos row, st'.store.rowAt file pos = some row →
      o.Settled st.surroundings file pos.next ∧
        ∃ s, st.store.statementAt file pos = some s ∧ s.expanded = true) :
    st'.store.RowsFixed (PassedOver o.earlier st'.asWritten) := by
  intro file pos row hst'
  obtain ⟨hsettled, s, hs, hexpanded⟩ := hrow file pos row hst'
  obtain ⟨hsettled', hkeeps⟩ := settledTo_of_steps h (o.keepsPlaces.of_steps hahead) hsettled
  obtain ⟨s', hs', -, hexpanded'⟩ :=
    hkeeps.statement pos.statement (Nat.lt_succ_self _) s hs hexpanded
  exact ⟨hsettled', s', hs', hexpanded'⟩

theorem rowsFixed_of_rowAt_eq (h : ReflTransGen (Change stage True) st st')
    (hahead : ReflTransGen (Change stage True) st' o.last)
    (hrows : st.store.RowsFixed (PassedOver o.earlier st.asWritten))
    (hrow : ∀ file pos, st'.store.rowAt file pos = st.store.rowAt file pos) :
    st'.store.RowsFixed (PassedOver o.earlier st'.asWritten) :=
  rowsFixed_of_steps h hahead fun file pos row hst' =>
    hrows file pos row ((hrow file pos).symm.trans hst')

/-- The sources change, in one of the two assemblies or in both. -/
theorem Beside.of_steps {w w' : Surroundings} (hw : o.Beside st.surroundings w)
    (h : ReflTransGen (Change stage True) st st')
    (hahead : ReflTransGen (Change stage True) st' o.last)
    (hplace : st'.file = st.file ∧ st'.loops = st.loops)
    (hplace' : w'.file = w.file ∧ w'.loops = w.loops) (htext : o.final.SameText w'.store)
    (hrow : ∀ file pos, w'.store.rowAt file pos = st'.store.rowAt file pos)
    (hrows : st'.store.RowsFixed (PassedOver o.earlier st'.asWritten)) :
    o.Beside st'.surroundings w' where
  file_eq := (hplace'.1.trans hw.file_eq).trans hplace.1.symm
  loops_eq := (hplace'.2.trans hw.loops_eq).trans hplace.2.symm
  sameText := htext
  row_eq := hrow
  rows := hrows
  file id hid := settled_of_steps h hahead (hw.file id (hplace.1.symm.trans hid))
  loops loop hloop := by
    have hopen : loop ∈ st'.loops := hloop
    rw [hplace.2] at hopen
    exact settled_of_steps h hahead (hw.loops loop hopen)

/-! ## Statements of the second assembly -/

section Reach

variable {w : Surroundings} {s : Statement}

/-- What was expanded stands in the sources of the second assembly, with its row. -/
theorem statement_beside (hahead : ReflTransGen (Change stage True) st o.last)
    (htext : o.final.SameText w.store)
    (hrow : w.store.rowAt file pos = st.store.rowAt file pos)
    (hsettled : o.Settled st.surroundings file pos.next)
    (hs : st.store.statementAt file pos = some s) (hexpanded : s.expanded = true) :
    w.store.statementAt file pos = some s := by
  obtain ⟨s', hs', hwording, hexpanded'⟩ :=
    (keepsTo hahead hsettled).statement pos.statement (Nat.lt_succ_self _) s hs hexpanded
  obtain ⟨row, hsecond⟩ := htext.statementAt hs'
  have hsecond' : w.store.statementAt file pos = some { s' with row := row } := hsecond
  rw [SourceStore.rowAt, SourceStore.rowAt, hsecond', hs, Option.bind_some,
    Option.bind_some] at hrow
  have htext : s'.text = s.text := congrArg Wording.text hwording
  have hcolumn : s'.column0 = s.column0 := congrArg Wording.column0 hwording
  have heta : s = ⟨s.text, s.column0, s.expanded, s.row⟩ := rfl
  rw [hsecond', heta, ← htext, ← hcolumn, hexpanded, ← hexpanded', ← hrow]

/-- Where the first assembly finds no statement, the second one finds none. -/
theorem none_beside (hahead : ReflTransGen (Change stage True) st o.last)
    (hw : o.Beside st.surroundings w) (hsettled : o.Settled st.surroundings file pos)
    (hs : st.store.statementAt file pos = none) : w.store.statementAt file pos = none := by
  rw [statementAt_eq_none_iff] at hs ⊢
  rw [hw.sameText.atLineEnd_eq, atLineEnd_eq hahead hsettled]
  exact hs

/-- The next statement is settled as well once it has been expanded or passed over. -/
theorem settled_next (hsettled : o.Settled st.surroundings file pos)
    (hs : ∀ s, st.store.statementAt file pos = some s → s.expanded = true ∨
      PassedOver o.earlier st.asWritten file pos) : o.Settled st.surroundings file pos.next := by
  refine ⟨hsettled.1, fun n hn s hn' => ?_⟩
  rcases Nat.lt_succ_iff_lt_or_eq.1 hn with hlt | rfl
  · exact hsettled.2 n hlt s hn'
  · exact hs s hn'

/-- From a state with some surroundings beside it, a pass of the second assembly reaches a statement
that comes to the same as the one that the first assembly has reached. -/
def ReachesBeside (o : Outlook) (stage' : Stage) (file : Nat) (pos : Position) (st : State)
    (w : Surroundings) (reached : Option Statement) (st' : State) : Prop :=
  ∃ reached' w', PassM.reach file pos stage' (st.within w) = .ok reached' (st'.within w') ∧
    Option.Rel (PassM.SameIn st') reached reached' ∧ o.Beside st'.surroundings w' ∧
    o.Settled st'.surroundings file pos.next

section

variable {reached : Option Statement} {stage' : Stage}
  (hsteps : ReflTransGen (Change stage True) st st')
  (hahead : ReflTransGen (Change stage True) st' o.last) (hw : o.Beside st.surroundings w)
  (hrest : st' = { st with
    store := st'.store, history := st'.history, asWritten := st'.asWritten })
  (hrow : ∀ id at', st'.store.rowAt id at' = st.store.rowAt id at')
include hsteps hahead hw hrest hrow

/-- The second assembly expands nothing. -/
theorem reachesBeside_of_unexpanded (hnone : PassM.unexpanded (st.within w) file pos = none)
    (hsame : Option.Rel (PassM.SameIn st') reached (w.store.statementAt file pos))
    (hnext : o.Settled st'.surroundings file pos.next) :
    o.ReachesBeside stage' file pos st w reached st' := by
  refine ⟨_, ((st.within w).executing file pos).surroundings, ?_, hsame, ?_, hnext⟩
  · rw [PassM.reach_of_unexpanded hnone, hrest]
    rfl
  · have hplace : st'.file = st.file ∧ st'.loops = st.loops := by
      rw [hrest]
      exact ⟨rfl, rfl⟩
    refine hw.of_steps hsteps hahead hplace ⟨rfl, rfl⟩ hw.sameText (fun id at' => ?_)
      (rowsFixed_of_rowAt_eq hsteps hahead hw.rows hrow)
    rw [hrow]
    exact hw.row_eq id at'

/-- A statement that has been expanded stands in the second assembly as well. -/
theorem reachesBeside_of_expanded (hsettled : o.Settled st'.surroundings file pos)
    (hs : st'.store.statementAt file pos = some s) (hexpanded : s.expanded = true) :
    o.ReachesBeside stage' file pos st w (some s) st' := by
  have hnext : o.Settled st'.surroundings file pos.next := by
    refine settled_next hsettled fun s' hs' => ?_
    cases hs.symm.trans hs'
    exact .inl hexpanded
  have hsecond : w.store.statementAt file pos = some s :=
    statement_beside hahead hw.sameText ((hw.row_eq file pos).trans (hrow file pos).symm) hnext hs
      hexpanded
  refine reachesBeside_of_unexpanded hsteps hahead hw hrest hrow
    (PassM.unexpanded_of_expanded hsecond hexpanded) ?_ hnext
  rw [hsecond]
  exact .some (.inl rfl)

end

/-- A statement that is passed over is passed over alike in the second assembly. -/
theorem reachesBeside_of_written {stage' : Stage}
    (hahead : ReflTransGen (Change stage True) (st.executing file pos) o.last)
    (hw : o.Beside st.surroundings w) (hsettled : o.Settled st.surroundings file pos)
    (hnone : PassM.unexpanded st file pos = none) (hs : st.store.statementAt file pos = some s)
    (hwritten : s.expanded = false) :
    o.ReachesBeside stage' file pos st w (some s) (st.executing file pos) := by
  have htaking : ⟨file, pos, s.text, st.bypass⟩ ∈ (st.executing file pos).asWritten := by
    refine List.mem_append_left _ ?_
    rw [State.written, hs, Option.filter_some, hwritten]
    exact List.mem_singleton_self _
  obtain ⟨s', hs', halike⟩ := o.alike _ (mem_asWritten_of_steps hahead htaking)
  obtain ⟨row, hsecond⟩ := hw.sameText.statementAt hs'
  have hover : st.PassesOver := by
    rcases PassM.ready_of_unexpanded_eq_none hs hnone with
      hcollecting | hloops | hinactive | hexpanded
    · exact .inl hcollecting
    · exact .inr (.inl hloops)
    · exact .inr (.inr hinactive)
    · rw [hwritten] at hexpanded
      cases hexpanded
  have hsteps : ReflTransGen (Change stage True) st (st.executing file pos) :=
    .single (.act (.asWritten st _))
  refine reachesBeside_of_unexpanded hsteps hahead hw rfl (fun _ _ => rfl)
    (PassM.unexpanded_of_alike hs hwritten hnone hsecond halike) ?_ ?_
  · rw [hsecond]
    exact .some (.inr ⟨hover, halike⟩)
  · exact settled_next (settled_of_steps hsteps hahead hsettled) fun _ _ =>
      .inr (.inr ⟨_, htaking, rfl, rfl⟩)

/-- **The second assembly reaches what the first one has reached.** -/
theorem reach_beside {reached : Option Statement} (stage' : Stage)
    (hrun : PassM.reach file pos stage st = .ok reached st')
    (hahead : ReflTransGen (Change stage True) st' o.last) (hw : o.Beside st.surroundings w)
    (hsettled : o.Settled st.surroundings file pos) :
    o.ReachesBeside stage' file pos st w reached st' := by
  have hsteps : ReflTransGen (Change stage True) st st' :=
    stateAfter_of_ok hrun ▸ PassM.reach_performs file pos st
  have hsettled' : o.Settled st'.surroundings file pos := settled_of_steps hsteps hahead hsettled
  obtain ⟨st₁, hexpand, rfl, rfl⟩ := PassM.expandStatement_of_reach hrun
  rcases PassM.expandStatement_cases hexpand with ⟨hnone, rfl⟩ | ⟨s, new, store, hs, hexpands, rfl⟩
  · -- the statement has been expanded before, or it is passed over
    cases hs : st₁.store.statementAt file pos with
    | none =>
      have hsecond : w.store.statementAt file pos = none :=
        none_beside (hsteps.trans hahead) hw hsettled hs
      refine reachesBeside_of_unexpanded hsteps hahead hw rfl (fun _ _ => rfl)
        (PassM.unexpanded_of_none hsecond) ?_ ?_
      · rw [hsecond]
        exact .none
      · refine settled_next hsettled' fun s hs' => ?_
        cases hs.symm.trans hs'
    | some s =>
      cases hexpanded : s.expanded with
      | true =>
        exact reachesBeside_of_expanded hsteps hahead hw rfl (fun _ _ => rfl) hsettled' hs hexpanded
      | false => exact reachesBeside_of_written hahead hw hsettled hnone hs hexpanded
  · obtain ⟨hs, hnew⟩ := PassM.statementAt_of_unexpanded hs
    obtain ⟨s', hs', hexpanded⟩ := hexpands.statementAt hs
    rw [hs']
    refine reachesBeside_of_expanded hsteps hahead hw rfl ?_ hsettled' hs' hexpanded
    refine hexpands.rowAt_eq hs hnew hw.rows fun id at' count hpassed hmem => ?_
    exact o.keepsPlaces.of_steps hahead id at' count (passedOver_of_steps hsteps hpassed)
      (List.mem_append_left _ hmem)

/-! ## Files of the second assembly -/

theorem path_beside {file : Nat} (hahead : ReflTransGen (Change stage True) st o.last)
    (hw : o.Beside st.surroundings w) (hfile : file < st.store.files.size) :
    (w.store.file file).path = (st.store.file file).path :=
  (hw.sameText.path_eq file).trans ((growsInto hahead).path_eq file hfile)

theorem resolve_beside (hahead : ReflTransGen (Change stage True) st o.last)
    (hw : o.Beside st.surroundings w) (name : Text) :
    w.store.resolve name w.file = st.store.resolve name st.file := by
  obtain ⟨hmemory, -, hincludeDirs, hdisk⟩ := hw.sameText.rest_eq
  have hgrows := growsInto hahead
  have hfile : w.file = st.file := hw.file_eq
  rw [hfile]
  refine resolve_congr (hmemory.trans hgrows.memory_eq)
    (hincludeDirs.trans hgrows.includeDirs_eq) (hdisk.trans hgrows.disk_eq) (fun file h => ?_) name
  have hsize : file < st.store.files.size := (hw.file file h).1
  refine ⟨hsize, ?_, path_beside hahead hw hsize⟩
  rw [hw.sameText.size_eq]
  exact Nat.lt_of_lt_of_le hsize hgrows.size_le

/-- What a use of the store does to the sources of a pass. -/
theorem steps_of_store {α : Type} {use : StoreM α} {step : SourceStore → SourceStore → Prop} {a : α}
    {store : SourceStore} (huse : Follows step use)
    (hstep : ∀ {store store'}, step store store' → store.Step store')
    (hrun : use st.store = .ok a store) :
    ReflTransGen (Change stage True) st { st with store := store } := by
  have hlead : ReflTransGen step st.store store := stateAfter_of_ok hrun ▸ huse st.store
  exact ReflTransGen.lift (fun store => { st with store := store })
    (fun store _ h => @Change.files stage True { st with store := store } _ (hstep h)) _ _ hlead

/-- The sources of the second assembly hold every file already that the first one reads. -/
theorem load_beside {path : Text} {file : Nat} {store : SourceStore}
    (hrun : SourceStore.load path st.store = .ok file store)
    (hahead : ReflTransGen (Change stage True) { st with store := store } o.last)
    (hw : o.Beside st.surroundings w) :
    ∃ store', SourceStore.load path w.store = .ok file store' ∧
      o.Beside { st.surroundings with store := store } { w with store := store' } ∧
      o.Settled { st.surroundings with store := store } file ⟨0, 0⟩ := by
  have hsteps : ReflTransGen (Change stage True) st { st with store := store } :=
    steps_of_store (load_follows path) id hrun
  have hrow := rowAt_load hrun
  have hloaded : store.loaded? path = some file := SourceStore.loaded?_of_load hrun
  have hsecond : w.store.loaded? path = some file :=
    hw.sameText.loaded?_eq (SourceStore.loaded?_of_growsInto (growsInto hahead) hloaded)
  refine ⟨w.store, load_of_loaded? hsecond, ?_, ?_⟩
  · exact hw.of_steps hsteps hahead ⟨rfl, rfl⟩ ⟨rfl, rfl⟩ hw.sameText
      (fun id pos => (hw.row_eq id pos).trans (hrow id pos).symm)
      (rowsFixed_of_rowAt_eq hsteps hahead hw.rows hrow)
  · exact settledTo_start (SourceStore.loaded?_eq_some_iff.1 hloaded).1 0

theorem binary_beside {path : Text} {bytes : List UInt8} {store : SourceStore}
    (hrun : SourceStore.binary path st.store = .ok bytes store)
    (hahead : ReflTransGen (Change stage True) { st with store := store } o.last)
    (hw : o.Beside st.surroundings w) :
    ∃ store', SourceStore.binary path w.store = .ok bytes store' ∧
      o.Beside { st.surroundings with store := store } { w with store := store' } := by
  have hsteps : ReflTransGen (Change stage True) st { st with store := store } := by
    refine steps_of_store (binary_follows path) ?_ hrun
    rintro _ _ ⟨path, bytes, hnew, rfl⟩
    exact .binary bytes hnew
  have hrow : ∀ id pos, store.rowAt id pos = st.store.rowAt id pos := by
    rcases binary_cases hrun with ⟨-, rfl⟩ | rfl
    · exact fun _ _ => rfl
    · exact fun _ _ => rfl
  have hsecond : SourceStore.atPath w.store.binaries path = some bytes := by
    rw [hw.sameText.rest_eq.2.1]
    exact (growsInto hahead).binary path bytes (atPath_of_binary hrun)
  refine ⟨w.store, binary_of_atPath hsecond, ?_⟩
  exact hw.of_steps hsteps hahead ⟨rfl, rfl⟩ ⟨rfl, rfl⟩ hw.sameText
    (fun id pos => (hw.row_eq id pos).trans (hrow id pos).symm)
    (rowsFixed_of_rowAt_eq hsteps hahead hw.rows hrow)

/-! ## Rows of the second assembly -/

/-- What is done without the sources leaves them beside each other. -/
theorem carry_beside (new : List Event) (hsteps : ReflTransGen (Change stage True) st st')
    (hahead : ReflTransGen (Change stage True) st' o.last) (hw : o.Beside st.surroundings w)
    (hstore : st'.store = st.store)
    (hfile : ∀ file, st'.file = some file → o.Settled st'.surroundings file ⟨0, 0⟩)
    (hloops : ∀ loop ∈ st'.loops, o.Settled st'.surroundings loop.file loop.resume) :
    o.Beside st'.surroundings
      { w with file := st'.file, loops := st'.loops, history := new ++ w.history } where
  file_eq := rfl
  loops_eq := rfl
  sameText := hw.sameText
  row_eq file pos := by
    have hrow : st'.store.rowAt file pos = st.store.rowAt file pos := by rw [hstore]
    exact (hw.row_eq file pos).trans hrow.symm
  rows := rowsFixed_of_rowAt_eq hsteps hahead hw.rows fun _ _ => by rw [hstore]
  file := hfile
  loops := hloops

/-- A row is left with the same statement in both assemblies. -/
theorem leaveRow_beside {row : FoundRow} (new : List Event)
    (hsteps : ReflTransGen (Change stage True) st st')
    (hahead : ReflTransGen (Change stage True) st' o.last) (hw : o.Beside st.surroundings w)
    (hsettled : o.Settled st.surroundings file pos.next)
    (hs : st.store.statementAt file pos = some s) (hexpanded : s.expanded = true)
    (hst' : st'.surroundings = { st.surroundings with
      store := st.store.leaveRow file pos row, history := new ++ st.history }) :
    o.Beside st'.surroundings
      { w with store := w.store.leaveRow file pos row, history := new ++ w.history } := by
  have hstore : st'.store = st.store.leaveRow file pos row := congrArg Surroundings.store hst'
  have hs' : w.store.statementAt file pos = some s :=
    statement_beside (hsteps.trans hahead) hw.sameText (hw.row_eq file pos) hsettled hs hexpanded
  refine hw.of_steps hsteps hahead
    ⟨congrArg Surroundings.file hst', congrArg Surroundings.loops hst'⟩ ⟨rfl, rfl⟩
    (hw.sameText.trans (w.store.sameText_leaveRow file pos row)) (fun id at' => ?_)
    (rowsFixed_of_steps hsteps hahead fun id at' row' hrow => ?_)
  · rw [hstore, rowAt_leaveRow hs, rowAt_leaveRow hs', hw.row_eq]
    rfl
  · rw [hstore, rowAt_leaveRow hs] at hrow
    split at hrow
    next hhere =>
      obtain ⟨rfl, rfl⟩ := hhere
      exact ⟨hsettled, s, hs, hexpanded⟩
    next => exact hw.rows id at' row' hrow

end Reach

end Outlook

/-- A pass of the second assembly, beside the same pass of the first.  It has the same random
numbers if any are drawn. -/
def Companion.again (o : Outlook) (stage : Stage) {random : Generator}
    (hrandom : Event.drawn ∈ o.last.history → random = stage.random) :
    Companion stage ⟨stage.strict, random⟩ where
  Ahead st := ReflTransGen (Change stage True) st o.last
  Beside := o.Beside
  Common := o.Settled
  strict_le h := h
  random_eq hahead hdrawn := hrandom (mem_history_of_steps hahead hdrawn)
  ahead_of_steps := ReflTransGen.trans
  errorCount_eq hahead := by
    have hle := errorCount_le_of_steps hahead
    rw [o.errorCount_eq] at hle
    exact Nat.le_zero.1 hle
  common_of_steps := Outlook.settled_of_steps
  common_start line h := settledTo_start h.1 line
  file_eq := Outlook.Beside.file_eq
  loops_eq := Outlook.Beside.loops_eq
  common_file hw := hw.file _
  common_loop hw := hw.loops _
  carry new hsteps hahead hw hstore _ _ := Outlook.carry_beside new hsteps hahead hw hstore
  path_eq hahead hw hsettled := Outlook.path_beside hahead hw hsettled.1
  resolve_eq := Outlook.resolve_beside
  load := Outlook.load_beside
  binary := Outlook.binary_beside
  atLineEnd_eq hahead hw hsettled :=
    (hw.sameText.atLineEnd_eq _ _).trans (Outlook.atLineEnd_eq hahead hsettled)
  reach := Outlook.reach_beside _
  statement_eq hahead hw := Outlook.statement_beside hahead hw.sameText (hw.row_eq _ _)
  leaveRow := Outlook.leaveRow_beside

end MacroAssembler
