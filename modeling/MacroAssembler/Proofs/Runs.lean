import MacroAssembler.Proofs.Companion

/-!
# A pass is a sequence of changes

The statements of a source are executed one after the other, with jumps, and with files inside of
files.  A statement that fails is reported before the run goes on behind it, so a whole pass
advances, as its statements do.
-/

namespace MacroAssembler

open Relation AdvancesFrom

variable {stage : Stage} {failing : Prop}

namespace PassM

variable {runFile : Option (Nat → PassM Bool)}

/-- The execution of files that are included advances. -/
def RunsFiles (stage : Stage) (runFile : Option (Nat → PassM Bool)) : Prop :=
  ∀ run ∈ runFile, ∀ file, Advances stage (run file)

/-- **A statement advances.** -/
theorem statement_advances (hfiles : RunsFiles stage runFile) (file : Nat) (pos : Position) :
    Advances stage (statement runFile file pos) := by
  have hidle : TracksFiles (.idle stage) runFile :=
    fun run hrun file st => ⟨hfiles run hrun file st, fun _ _ hahead => hahead.elim⟩
  exact fun st => (statement_tracksFrom hidle file pos st).advances

/-! ## Runs -/

/-- The run goes on behind a statement that fails, after an error was reported. -/
theorem runFrom_advances (hfiles : RunsFiles stage runFile) (file steps : Nat) (pos : Position) :
    Advances stage (runFrom runFile file steps pos) := by
  induction steps generalizing pos with
  | zero => exact (Performs.throw _).advances
  | succ steps ih =>
    intro st
    rw [runFrom]
    refine get_bind ?_
    split
    · exact (Performs.pure _).advances st
    · split
      · exact ih _ st
      · have hlocate : Performs (Act stage False) stage
            (modify fun st => { st with location := some ⟨file, pos.line + 1⟩ }) :=
          Performs.modify fun _ => .control rfl
        refine AdvancesFrom.bind (hlocate.change.advances st) fun _ st₁ _ => ?_
        refine observe_bind (statement_advances hfiles file pos st₁) ?_ ?_
        · intro flow st'
          cases flow with
          | next => exact ih _ st'
          | stop => exact (Performs.pure _).advances st'
          | jump target => exact ih target st'
        · intro fault st' hsteps
          dsimp only
          split
          · exact hsteps
          · have hrecovered : Advance stage st₁ (st'.report .error fault.message) :=
              .recovered hsteps fault.message
            have hrest : AdvancesFrom stage (st'.report .error fault.message) (do
                if (← read).strict then throw (.aborted (← get).diagnostics.errorCount)
                else runFrom runFile file steps ⟨pos.line, pos.statement + 1⟩) := by
              refine read_bind ?_
              split
              · exact (Performs.bind Performs.get fun _ => Performs.throw _).advances _
              · exact ih _ _
            exact Reaches.trans (.single hrecovered) hrest

/-- Loops that are left open at the end of a file are given up, but not without an error. -/
theorem closeFile_advances (opened : Nat) (place : Option Nat × Text × Option Location)
    (stopped : Bool) : Advances stage (do
      let leftOpen := (← get).loops.length - opened
      if 0 < leftOpen then report .error "loop without .loop"
      modify fun st => { st with
        loops := st.loops.drop leftOpen, file := place.1, filePath := place.2.1,
        location := place.2.2 }
      return stopped) := by
  intro st
  refine get_bind ?_
  by_cases hopen : 0 < st.loops.length - opened
  · let reported := st.report .error "loop without .loop"
    have hreport : Advance stage st reported := .recovered .refl _
    have herror : reported.diagnostics.errorCount ≠ 0 :=
      Diagnostics.errorCount_report_ne_zero _ rfl
    have hdrop : Change stage False reported { reported with
        loops := reported.loops.drop (st.loops.length - opened) } := .abandoned _ (.inr herror)
    rw [if_pos hopen]
    exact ((ReflTransGen.single hreport).tail (.change hdrop)).tail (.change (.act (.control rfl)))
  · rw [if_neg hopen, Nat.eq_zero_of_not_pos hopen]
    exact ReflTransGen.single (.change (.act (.control rfl)))

theorem runWith_advances (hfiles : RunsFiles stage runFile) (file : Nat) :
    Advances stage (runWith runFile file) := by
  intro st
  refine get_bind ?_
  have hset : AdvancesFrom stage st (set { st with
      file := some file, filePath := (st.store.file file).path }) :=
    PerformsFrom.advances (PerformsFrom.set (.single (.act (.control rfl))))
  refine AdvancesFrom.bind hset fun _ st₁ _ => ?_
  refine read_bind ?_
  refine observe_bind (runFrom_advances hfiles file _ _ st₁) ?_ ?_
  · intro stopped st'
    have hclose : AdvancesFrom stage st' _ :=
      closeFile_advances st.loops.length (st.file, st.filePath, st.location) stopped st'
    simpa [Except.isOk, Except.toBool, ofExcept] using hclose
  · -- the fault is passed on, behind a change of the place
    intro fault st' hsteps
    rw [PassM.get_bind_apply]
    simp only [Except.isOk, Except.toBool, Bool.and_false, Bool.false_eq_true, if_false]
    exact (hsteps.tail (.abandoned _ (.inl trivial))).tail (.act (.control rfl))

theorem runFile_advances (levels file : Nat) : Advances stage (PassM.runFile levels file) := by
  induction levels generalizing file with
  | zero => exact runWith_advances (fun run hrun => absurd hrun (Option.not_mem_none run)) file
  | succ levels ih =>
    refine runWith_advances (fun run hrun => ?_) file
    cases hrun
    exact ih

theorem settleExport_serves (name : Text) (home : ModuleId) :
    Serves (Act stage failing) stage (settleExport name home) := by
  refine ⟨.get_bind fun st => ?_, fun terms hterms st w => ?_⟩
  · split
    · refine PerformsFrom.set (.single (.tree ?_))
      exact .annotated (fun _ => rfl) (fun _ => rfl) fun _ => rfl
    · exact (report_serves _ _).performs st
  · have hresolve : (st.within w).symbols.resolve name ((st.within w).scopeAt home) =
        st.symbols.resolve name (st.scopeAt home) := rfl
    rw [settleExport, PassM.get_bind_apply, PassM.get_bind_apply, hresolve]
    cases st.symbols.resolve name (st.scopeAt home) with
    | some id => exact .ok [] rfl
    | none => exact .ok [] rfl

theorem foldl_steps {α β : Type} {step : β → β → Prop} {f : β → α → β}
    (h : ∀ b a, ReflTransGen step b (f b a)) (xs : Array α) (b : β) :
    ReflTransGen step b (xs.foldl f b) :=
  Array.foldl_induction (motive := fun _ b' => ReflTransGen step b b') .refl
    fun i _ hb => hb.trans (h _ xs[i])

theorem settleReferences_serves : Serves (Act stage failing) stage settleReferences := by
  refine ⟨fun st => PerformsFrom.modify (Act.ofTree (foldl_steps (fun t ref => ?_) _ _)),
    Carries.modify [] (fun _ => rfl) fun _ _ => rfl⟩
  -- each reference is one note with a label
  split
  · exact .single (.annotated (fun _ => rfl) (fun _ => rfl) fun _ => rfl)
  · exact .refl

theorem reportOpen_serves : Serves (Act stage failing) stage reportOpen := by
  refine .bind (.control (fun _ => rfl) fun _ _ => rfl) fun _ => .get_bind
    (fun st => ?_) fun _ _ => rfl
  refine .when_bind (report_serves _ _) (.when_bind (report_serves _ _) ?_)
  exact iteInduction (fun _ => report_serves _ _) fun _ => .pure _

end PassM

/-- A state at the end of a pass, when it has forgotten what it put off. -/
def State.cleared (kind : PassKind) (st : State) : State :=
  if kind == .assemble then { st with exports := [], pendingReferences := #[] } else st

namespace PassM

/-- Checks what the source left open, and settles exports and references, but does not forget
them. -/
def settle : PassM Unit := do
  reportOpen
  if (← read).kind == .assemble then
    (← get).exports.forM fun (name, home) => settleExport name home
    settleReferences

/-- Forgets what is settled. -/
def forget : PassM Unit := do
  let stage ← read
  modify (·.cleared stage.kind)

/-- Executes a source from its main file, up to where it has settled everything. -/
def settleSource (main : Nat) : PassM Unit := do
  let _ ← PassM.runFile maxIncludes main
  settle

theorem finish_eq : finish = settle >>= fun _ => forget := by
  rw [finish, settle, bind_assoc]
  refine bind_congr fun _ => ?_
  funext stage st
  have hforget (s : State) : forget stage s = .ok () (s.cleared stage.kind) := rfl
  rw [bind_assoc, read_bind_apply, read_bind_apply]
  cases hkind : stage.kind == .assemble with
  | false =>
    have hend := hforget st
    rw [State.cleared, hkind] at hend
    exact hend.symm
  | true =>
    rw [if_pos rfl, if_pos rfl, bind_assoc, PassM.get_bind_apply, PassM.get_bind_apply, bind_assoc]
    cases hexports : (st.exports.forM fun (name, home) => settleExport name home) stage st with
    | error fault st' => rw [PassM.bind_of_error hexports, PassM.bind_of_error hexports]
    | ok u st' =>
      have hreferences : settleReferences stage st' =
          .ok () (stateAfter (settleReferences stage) st') := rfl
      rw [PassM.bind_of_ok hexports, PassM.bind_of_ok hexports, PassM.bind_of_ok hreferences,
        hforget, State.cleared, hkind]
      rfl

/-- **A pass settles what it has put off, and then forgets it.** -/
theorem runSource_eq (main : Nat) : runSource main = settleSource main >>= fun _ => forget := by
  rw [runSource, settleSource, bind_assoc, finish_eq]

theorem runSource_of_settleSource {main : Nat} {st st' : State}
    (h : settleSource main stage st = .ok () st') :
    runSource main stage st = .ok () (st'.cleared stage.kind) := by
  rw [runSource_eq, PassM.bind_of_ok h]
  rfl

theorem exists_settleSource {main : Nat} {st st' : State}
    (h : runSource main stage st = .ok () st') :
    ∃ last, settleSource main stage st = .ok () last ∧ st' = last.cleared stage.kind := by
  rw [runSource_eq] at h
  obtain ⟨_, last, hsettle, hforget⟩ := bind_eq_ok h
  cases hforget
  exact ⟨last, hsettle, rfl⟩

theorem settle_serves : Serves (Act stage failing) stage settle := by
  refine .bind reportOpen_serves fun _ => .read_bind ?_ fun _ => rfl
  refine iteInduction (fun _ => ?_) fun _ => .pure _
  refine .get_bind (fun st => ?_) fun _ _ => rfl
  exact .bind (.forM fun entry _ => settleExport_serves entry.1 entry.2) fun _ =>
    settleReferences_serves

/-- **A pass advances** until everything is settled. -/
theorem settleSource_advances (main : Nat) : Advances stage (settleSource main) :=
  Advances.bind (runFile_advances maxIncludes main) fun _ => settle_serves.change.performs.advances

end PassM

end MacroAssembler
