import MacroAssembler.Proofs.Runs

/-!
# Visits of statements

A run goes from statement to statement.  A `Visit` is one of its steps: the statement at a position
is executed or passed over, and its fault, if it has one, is reported.  Where the run goes on is
decided by the outcome, and `runFrom_succ` takes a run apart into its first visit and the rest.

The `trail` of a run is the list of its visits.  It ends where the run ends, so the state that a run
leaves behind is the one after its last visit.
-/

namespace MacroAssembler

/-- A statement that a run has come to. -/
structure Visit where
  pos : Position
  outcome : Except Fault Flow
  /-- The state behind the statement, when its fault has been reported. -/
  after : State

namespace Visit

/-- Where a run goes on, if it does. -/
def target? (v : Visit) (strict : Bool) : Option Position :=
  match v.outcome with
  | .ok .next => some v.pos.next
  | .ok (.jump target) => some target
  | .ok .stop => none
  | .error fault => if fault.isFatal || strict then none else some v.pos.next

/-- How a run ends that does not go on. -/
def ending (v : Visit) : EStateM.Result Fault State Bool :=
  match v.outcome with
  | .ok _ => .ok true v.after
  | .error fault =>
    if fault.isFatal then .error fault v.after
    else .error (.aborted v.after.diagnostics.errorCount) v.after

theorem stateAfter_ending (v : Visit) (st : State) :
    stateAfter (fun _ : State => v.ending) st = v.after := by
  unfold stateAfter ending
  cases v.outcome with
  | ok flow => rfl
  | error fault =>
    dsimp only
    cases fault.isFatal with
    | true => rfl
    | false => rfl

end Visit

section

variable (runFile : Option (Nat → PassM Bool)) (file : Nat) (stage : Stage)

/-- The state in which the statement at a position is executed. -/
def State.locate (st : State) (file : Nat) (pos : Position) : State :=
  { st with location := some ⟨file, pos.line + 1⟩ }

/-- Visits the statement at a position. -/
def visit (pos : Position) (st : State) : Visit :=
  match PassM.statement runFile file pos stage (st.locate file pos) with
  | .ok flow st' => ⟨pos, .ok flow, st'⟩
  | .error fault st' =>
    ⟨pos, .error fault, if fault.isFatal then st' else st'.report .error fault.message⟩

/-- The visits of a run. -/
def trail : (steps : Nat) → Position → State → List Visit
  | 0, _, _ => []
  | steps + 1, pos, st =>
    match (st.store.file file).lines[pos.line]? with
    | none => []
    | some line =>
      if line.length ≤ pos.statement then trail steps ⟨pos.line + 1, 0⟩ st
      else
        let v := visit runFile file stage pos st
        v :: (v.target? stage.strict).elim [] fun target => trail steps target v.after

end

variable {runFile : Option (Nat → PassM Bool)} {file : Nat} {stage : Stage}

@[simp] theorem visit_pos (pos : Position) (st : State) :
    (visit runFile file stage pos st).pos = pos := by
  unfold visit
  split <;> rfl

/-- **A run is its first visit and the run from there.** -/
theorem PassM.runFrom_succ (steps : Nat) (pos : Position) (st : State) :
    runFrom runFile file (steps + 1) pos stage st =
      match (st.store.file file).lines[pos.line]? with
      | none => .ok false st
      | some line =>
        if line.length ≤ pos.statement then runFrom runFile file steps ⟨pos.line + 1, 0⟩ stage st
        else
          match (visit runFile file stage pos st).target? stage.strict with
          | some target =>
            runFrom runFile file steps target stage (visit runFile file stage pos st).after
          | none => (visit runFile file stage pos st).ending := by
  rw [runFrom, PassM.get_bind_apply]
  cases (st.store.file file).lines[pos.line]? with
  | none => rfl
  | some line =>
    dsimp only
    by_cases hend : line.length ≤ pos.statement
    · rw [if_pos hend, if_pos hend]
    · rw [if_neg hend, if_neg hend]
      have hlocate : (modify fun st : State => { st with location := some ⟨file, pos.line + 1⟩ } :
          PassM PUnit) stage st = .ok ⟨⟩ (st.locate file pos) := rfl
      rw [PassM.bind_of_ok hlocate]
      unfold visit
      cases hrun : PassM.statement runFile file pos stage (st.locate file pos) with
      | ok flow st' =>
        rw [PassM.bind_of_ok (PassM.observe_of_ok hrun)]
        cases flow with
        | next => rfl
        | jump target => rfl
        | stop => rfl
      | error fault st' =>
        rw [PassM.bind_of_ok (PassM.observe_of_error hrun)]
        dsimp only [Visit.target?, Visit.ending]
        cases hfatal : fault.isFatal with
        | true => rfl
        | false =>
          let reported := st'.report .error fault.message
          have hreport : report .error fault.message stage st' = .ok () reported := rfl
          rw [if_neg Bool.false_ne_true, PassM.bind_of_ok hreport, PassM.read_bind_apply]
          cases stage.strict with
          | true => rfl
          | false => rfl

/-- The state that a run leaves behind is the one after its last visit. -/
theorem stateAfter_runFrom (steps : Nat) (pos : Position) (st : State) :
    stateAfter (PassM.runFrom runFile file steps pos stage) st =
      ((trail runFile file stage steps pos st).getLast?.map Visit.after).getD st := by
  induction steps generalizing pos st with
  | zero => rfl
  | succ steps ih =>
    rw [stateAfter, PassM.runFrom_succ, trail]
    cases (st.store.file file).lines[pos.line]? with
    | none => rfl
    | some line =>
      dsimp only
      by_cases hend : line.length ≤ pos.statement
      · rw [if_pos hend, if_pos hend]
        exact ih _ st
      · rw [if_neg hend, if_neg hend]
        cases htarget : (visit runFile file stage pos st).target? stage.strict with
        | none => exact Visit.stateAfter_ending _ st
        | some target =>
          have hrest := ih target (visit runFile file stage pos st).after
          rw [Option.elim_some, List.getLast?_cons, Option.map_some, Option.getD_some]
          rw [stateAfter] at hrest
          rw [hrest]
          cases (trail runFile file stage steps target _).getLast? with
          | none => rfl
          | some last => rfl

/-! ## Files -/

/-- The state in which a file is executed. -/
def State.openFile (st : State) (file : Nat) : State :=
  { st with file := some file, filePath := (st.store.file file).path }

/-- The state after a file, back at the place before it.  The loops that it has left open are
closed, with an error unless the file ended with a fault. -/
def State.closeFile (st before : State) (finished : Bool) : State :=
  let leftOpen := st.loops.length - before.loops.length
  { (if 0 < leftOpen && finished then st.report .error "loop without .loop" else st) with
    loops := st.loops.drop leftOpen
    file := before.file
    filePath := before.filePath
    location := before.location }

/-- Leaving a file that has closed its loops leaves the file, and does nothing else. -/
theorem State.closeFile_of_le {st before : State} (h : st.loops.length ≤ before.loops.length)
    (finished : Bool) : st.closeFile before finished =
      { st with
        file := before.file, filePath := before.filePath, location := before.location } := by
  rw [closeFile, Nat.sub_eq_zero_of_le h]
  rfl

/-- Leaves a file that was executed with some result. -/
def PassM.leaveFile (before : State) (result : Except Fault Bool) : PassM Bool := do
  let leftOpen := (← get).loops.length - before.loops.length
  if 0 < leftOpen && result.isOk then report .error "loop without .loop"
  modify fun st => { st with
    loops := st.loops.drop leftOpen, file := before.file, filePath := before.filePath,
    location := before.location }
  ofExcept id result

theorem PassM.leaveFile_apply (before : State) (result : Except Fault Bool) (st : State) :
    leaveFile before result stage st = ofExcept id result stage
      (st.closeFile before result.isOk) := by
  rw [leaveFile, PassM.get_bind_apply, State.closeFile]
  dsimp only
  cases decide (0 < st.loops.length - before.loops.length) && result.isOk with
  | true => rfl
  | false => rfl

theorem PassM.runWith_apply (runFile : Option (Nat → PassM Bool)) (file : Nat) (stage : Stage)
    (st : State) : runWith runFile file stage st =
      match runFrom runFile file stage.maxSteps ⟨0, 0⟩ stage (st.openFile file) with
      | .ok stopped st' => .ok stopped (st'.closeFile st true)
      | .error fault st' => .error fault (st'.closeFile st false) := by
  have hrun : runWith runFile file stage st =
      (observe (runFrom runFile file stage.maxSteps ⟨0, 0⟩) >>= leaveFile st) stage
        (st.openFile file) :=
    rfl
  rw [hrun]
  cases hfrom : runFrom runFile file stage.maxSteps ⟨0, 0⟩ stage (st.openFile file) with
  | ok stopped st' =>
    rw [PassM.bind_of_ok (PassM.observe_of_ok hfrom), leaveFile_apply]
    rfl
  | error fault st' =>
    rw [PassM.bind_of_ok (PassM.observe_of_error hfrom), leaveFile_apply]
    rfl

/-! ## Without macros

Where there are no macros, a statement is marked when it is first reached, and is executed as it
stands. -/

namespace PassM

variable {st : State}

theorem expandStatement_of_isEmpty (stage : Stage) (hmacros : st.macros.isEmpty = true)
    (file : Nat) (pos : Position) :
    ∃ store : SourceStore, (∀ id, store.wordings id = st.store.wordings id) ∧
      expandStatement file pos stage st = .ok () { st with store := store } := by
  rw [expandStatement_apply]
  cases hs : unexpanded st file pos with
  | none => exact ⟨st.store, fun _ => rfl, rfl⟩
  | some s =>
    have htext : (if Command.namesMacros s.text s.column0 then pure s.text
        else expandMacros s.text : PassM Text) stage st = .ok s.text st := by
      split
      · rfl
      · exact expandMacros_of_isEmpty hmacros s.text
    let mark (s : Statement) : Statement := { s with expanded := true }
    refine ⟨st.store.modifyFile file (·.modifyStatement pos mark), fun id => ?_, ?_⟩
    · exact st.store.wordings_modifyStatement file id pos fun _ => rfl
    · dsimp only
      rw [PassM.bind_of_ok htext, replaceStatement, if_pos rfl]
      rfl

/-- Without macros, a statement is executed as it is written. -/
theorem statement_of_isEmpty (runFile : Option (Nat → PassM Bool)) (stage : Stage)
    (hmacros : st.macros.isEmpty = true) {file : Nat} {pos : Position} {w : Wording}
    (hw : st.store.wordingAt file pos = some w) :
    ∃ (store : SourceStore) (taken : List Taking) (s : Statement),
      (∀ id, store.wordings id = st.store.wordings id) ∧
      store.statementAt file pos = some s ∧ s.wording = w ∧
      Ready { st with store := store, asWritten := taken } s ∧
      statement runFile file pos stage st = execute runFile file pos w.text w.column0 stage
        { st with store := store, asWritten := taken } := by
  obtain ⟨store, hwordings, hexpand⟩ := expandStatement_of_isEmpty stage hmacros file pos
  have hw' : store.wordingAt file pos = some w := by
    rw [SourceStore.wordingAt_eq, hwordings, ← SourceStore.wordingAt_eq, hw]
  obtain ⟨s, hs, rfl⟩ := Option.map_eq_some_iff.1 hw'
  have hready : Ready { st with store := store } s := ready_of_expandStatement hexpand hs
  refine ⟨store, _, s, hwordings, hs, rfl, hready.executing file pos, ?_⟩
  have hreach : reach file pos stage st =
      .ok (some s) ({ st with store := store }.executing file pos) := by
    rw [reach_apply, hexpand]
    dsimp only
    rw [hs]
  rw [statement, PassM.bind_of_ok hreach]
  rfl

end PassM

namespace Wording

variable (w : Wording)

/-- The directive of a statement that stands alone. -/
def bare? : Option Directive :=
  Directive.ofWord (Text.splitWord (Text.trim w.text)).1

/-- The name of a directive that stands alone. -/
def name : Text :=
  (Directive.nameOf (Text.splitWord (Text.trim w.text)).1).getD []

/-- The operands of a directive that stands alone. -/
def operands : Text :=
  (Text.splitWord (Text.trim w.text)).2

variable {w} {d : Directive}

theorem nameOf_of_bare (h : w.bare? = some d) :
    Directive.nameOf (Text.splitWord (Text.trim w.text)).1 = some w.name ∧
      Directive.ofName w.name = some d := by
  obtain ⟨name, hname, hd⟩ := Option.bind_eq_some_iff.1 h
  rw [Wording.name, hname]
  exact ⟨rfl, hd⟩

theorem trim_ne_nil_of_bare (h : w.bare? = some d) : Text.trim w.text ≠ [] := by
  intro htrim
  rw [bare?, htrim] at h
  cases h

/-- A statement that is a directive asks for that directive. -/
theorem ofText_of_bare (h : w.bare? = some d) :
    Command.ofText w.text w.column0 = .directive w.name w.operands := by
  dsimp only [Command.ofText]
  rw [if_neg (mt List.isEmpty_iff.1 (trim_ne_nil_of_bare h)), (nameOf_of_bare h).1]
  rfl

end Wording

namespace PassM

variable {st : State} {pos : Position} {w : Wording} {d : Directive}

/-- In active code, a statement that is a directive executes that directive. -/
theorem command_of_bare (hd : w.bare? = some d) :
    command runFile file pos w.text w.column0 =
      directive runFile file pos d w.name w.operands := by
  rw [command]
  split
  next h =>
    rw [Wording.ofText_of_bare hd] at h
    cases h
  next h =>
    rw [Wording.ofText_of_bare hd] at h
    cases h
    rw [(Wording.nameOf_of_bare hd).2]
  all_goals
    next h =>
      rw [Wording.ofText_of_bare hd] at h
      cases h

theorem execute_of_bare (hlong : st.longMacro = none) (hskipped : st.skippedLoops = 0)
    (hactive : st.conditionals.active = true) (hd : w.bare? = some d)
    (hbranch : ∀ b, d ≠ .branch b) :
    execute runFile file pos w.text w.column0 stage st =
      directive runFile file pos d w.name w.operands stage st := by
  have hword : Directive.ofWord (Text.splitWord (Text.trim w.text)).1 = some d := hd
  rw [execute, PassM.get_bind_apply]
  dsimp only
  rw [if_neg (mt List.isEmpty_iff.1 (Wording.trim_ne_nil_of_bare hd)),
    if_neg (by rw [hlong]; exact Bool.false_ne_true),
    if_neg (by rw [hskipped]; exact Nat.lt_irrefl 0), hword, ← command_of_bare hd]
  cases d with
  | branch b => exact absurd rfl (hbranch b)
  | _ => exact congrArg (fun m : PassM Flow => m stage st) (if_pos hactive)

end PassM

/-! ## By the wordings

Whether there is a statement at a position shows in the wordings of the file. -/

section

variable {wordings : Array (List Wording)} {st : State}

theorem trail_succ (runFile : Option (Nat → PassM Bool)) (stage : Stage)
    (h : st.store.wordings file = wordings) (steps : Nat) (pos : Position) :
    trail runFile file stage (steps + 1) pos st =
      match wordings[pos.line]? with
      | none => []
      | some words =>
        if words.length ≤ pos.statement then trail runFile file stage steps ⟨pos.line + 1, 0⟩ st
        else
          visit runFile file stage pos st ::
            ((visit runFile file stage pos st).target? stage.strict).elim [] fun target =>
              trail runFile file stage steps target (visit runFile file stage pos st).after := by
  rw [trail]
  rcases h ▸ st.store.line_cases file pos.line with
    ⟨hline, hwords⟩ | ⟨line, words, hline, hwords, hlength⟩
  · rw [hline, hwords]
  · rw [hline, hwords]
    dsimp only
    rw [hlength]

end

end MacroAssembler
