import MacroAssembler.Proofs.Visit
import MacroAssembler.Proofs.Passes

/-!
# A whole pass beside another

Files and passes, done by the second run beside the first.  A statement of the first run that fails
is reported as an error, so there is none: the two runs go through the same statements, one by one,
and jump to the same places.
-/

namespace MacroAssembler

open Relation

namespace State

variable {st before : State}

/-- A file that is left without an error has closed its loops. -/
theorem le_of_closeFile (h : (st.closeFile before true).diagnostics.errorCount = 0) :
    st.loops.length ≤ before.loops.length := by
  refine Nat.le_of_not_lt fun hopen => ?_
  have hleft : 0 < st.loops.length - before.loops.length := Nat.sub_pos_of_lt hopen
  unfold closeFile at h
  simp only [hleft, decide_true, Bool.and_self, if_true] at h
  exact absurd h (Diagnostics.errorCount_report_ne_zero _ rfl)

end State

variable {stage : Stage} {terms : Terms} {c : Companion stage terms} {st : State}

namespace PassM

open Companion

variable {runFile : Option (Nat → PassM Bool)}

/-! ## Runs -/

/-- There is no error ahead, so none has been reported. -/
theorem not_ahead_of_error {st st' : State} {message : String}
    (h : ReflTransGen (Change stage True) (st.report .error message) st') : ¬c.Ahead st' := by
  intro hahead
  have hle := errorCount_le_of_steps h
  rw [c.errorCount_eq hahead] at hle
  exact Diagnostics.errorCount_report_ne_zero _ rfl (Nat.le_zero.1 hle)

theorem visit_of_ok {stage : Stage} {st st' : State} {file : Nat} {pos : Position} {flow : Flow}
    (h : statement runFile file pos stage (st.locate file pos) = .ok flow st') :
    visit runFile file stage pos st = ⟨pos, .ok flow, st'⟩ := by
  rw [visit, h]

theorem runsFiles_of_tracksFiles (hfiles : TracksFiles c runFile) : RunsFiles stage runFile :=
  fun run hrun file st => (hfiles run hrun file st).advances

theorem runFrom_tracksFrom (hfiles : TracksFiles c runFile) (file steps : Nat) (pos : Position)
    (st : State) :
    c.TracksFrom (c.Common st.surroundings file pos) st (fun _ _ => True)
      (runFrom runFile file steps pos) := by
  induction steps generalizing pos st with
  | zero => exact .throw _
  | succ steps ih =>
    have hruns := runFrom_advances (runsFiles_of_tracksFiles hfiles) file
    refine ⟨hruns (steps + 1) pos st, fun {stopped st'} hrun hcommon hahead w hw => ?_⟩
    have hlead := (hruns (steps + 1) pos st).steps hrun
    have hend := c.atLineEnd_eq (c.ahead_of_steps hlead hahead) hw hcommon
    unfold SourceStore.atLineEnd SourceStore.lengthAt at hend
    rw [Option.map_map, Option.map_map] at hend
    rw [runFrom_succ] at hrun ⊢
    have hstore : (st.within w).store = w.store := rfl
    rw [hstore]
    cases hline : (st.store.file file).lines[pos.line]? with
    | none =>
      rw [hline, Option.map_none, Option.map_eq_none_iff] at hend
      rw [hline] at hrun
      rw [hend]
      cases hrun
      exact ⟨w, rfl, hw, trivial⟩
    | some line =>
      rw [hline, Option.map_some] at hend
      obtain ⟨line', hline', hlength⟩ := Option.map_eq_some_iff.1 hend
      rw [Function.comp_apply, Function.comp_apply, decide_eq_decide] at hlength
      rw [hline] at hrun
      rw [hline']
      dsimp only at hrun ⊢
      by_cases hover : line.length ≤ pos.statement
      · rw [if_pos hover] at hrun
        rw [if_pos (hlength.2 hover)]
        exact (ih _ st).beside hrun (c.common_start _ hcommon) hahead hw
      · rw [if_neg hover] at hrun
        rw [if_neg fun h => hover (hlength.1 h)]
        cases hstatement : statement runFile file pos stage (st.locate file pos) with
        | ok flow st₁ =>
          rw [visit_of_ok hstatement] at hrun
          have htracks := statement_tracksFrom hfiles file pos (st.locate file pos)
          -- how the second run goes on after the same statement
          have hvisit : c.Ahead st₁ → ∃ w₁,
              visit runFile file (stage.under terms) pos (st.within w) =
                ⟨pos, .ok flow, st₁.within w₁⟩ ∧ c.Beside st₁.surroundings w₁ ∧
                c.Lands file flow st₁ ∧ c.Common st₁.surroundings file pos.next := by
            intro hahead₁
            obtain ⟨w₁, hrun₁, hw₁, hlands, hnext⟩ := htracks.beside hstatement hcommon hahead₁ hw
            exact ⟨w₁, visit_of_ok hrun₁, hw₁, hlands, hnext⟩
          cases flow with
          | next =>
            have hrest := ih pos.next st₁
            obtain ⟨w₁, hvisit₁, hw₁, -, hnext⟩ :=
              hvisit (c.ahead_of_steps (hrest.advances.steps hrun) hahead)
            rw [hvisit₁]
            exact hrest.beside hrun hnext hahead hw₁
          | jump target =>
            have hrest := ih target st₁
            obtain ⟨w₁, hvisit₁, hw₁, hlands, -⟩ :=
              hvisit (c.ahead_of_steps (hrest.advances.steps hrun) hahead)
            rw [hvisit₁]
            exact hrest.beside hrun (hlands target rfl) hahead hw₁
          | stop =>
            cases hrun
            obtain ⟨w₁, hvisit₁, hw₁, -, -⟩ := hvisit hahead
            rw [hvisit₁]
            exact ⟨w₁, rfl, hw₁, trivial⟩
        | error fault st₁ =>
          -- a fault is fatal, or it is reported, and there is no error ahead
          have hvisit : visit runFile file stage pos st = ⟨pos, .error fault,
              if fault.isFatal then st₁ else st₁.report .error fault.message⟩ := by
            rw [visit, hstatement]
          rw [hvisit] at hrun
          cases hfatal : fault.isFatal with
          | true => simp [Visit.target?, Visit.ending, hfatal] at hrun
          | false =>
            cases hstrict : stage.strict with
            | true => simp [Visit.target?, Visit.ending, hfatal, hstrict] at hrun
            | false =>
              simp only [Visit.target?, hfatal, hstrict, Bool.or_self, Bool.false_eq_true,
                if_false] at hrun
              exact absurd hahead (not_ahead_of_error ((hruns steps pos.next _).steps hrun))

/-! ## Files -/

theorem openFile_beside {w : Surroundings} {file : Nat} (hahead : c.Ahead (st.openFile file))
    (hw : c.Beside st.surroundings w) (hcommon : c.Common st.surroundings file ⟨0, 0⟩) :
    (st.within w).openFile file = (st.openFile file).within { w with file := some file } ∧
      c.Beside (st.openFile file).surroundings { w with file := some file } := by
  have hopen : ReflTransGen (Change stage True) st (st.openFile file) :=
    .single (.act (.control rfl))
  have hpath : ((st.within w).store.file file).path = (st.store.file file).path :=
    c.path_eq (c.ahead_of_steps hopen hahead) hw hcommon
  refine ⟨?_, ?_⟩
  · rw [State.openFile, hpath]
    rfl
  · have hloops : st.loops = w.loops := (c.loops_eq hw).symm
    have hcarried := c.carry [] hopen hahead hw rfl rfl rfl
      (fun id hid => ?_) fun loop hloop => ?_
    · have hsame : (st.openFile file).loops = w.loops := hloops
      rw [hsame] at hcarried
      exact hcarried
    · cases hid
      exact c.common_of_steps hopen hahead hcommon
    · exact c.common_of_steps hopen hahead (c.common_loop hw hloop)

theorem closeFile_beside {before : State} {w w₀ : Surroundings}
    (hsteps : ReflTransGen (Change stage True) before st)
    (hahead : c.Ahead (st.closeFile before true)) (hw : c.Beside st.surroundings w)
    (hw₀ : c.Beside before.surroundings w₀) :
    ∃ w', (st.within w).closeFile (before.within w₀) true =
        (st.closeFile before true).within w' ∧
      c.Beside (st.closeFile before true).surroundings w' := by
  have hclosed : st.loops.length ≤ before.loops.length :=
    State.le_of_closeFile (c.errorCount_eq hahead)
  have hclosed' : (st.within w).loops.length ≤ (before.within w₀).loops.length := by
    have hloops : (st.within w).loops = st.loops := c.loops_eq hw
    have hloops₀ : (before.within w₀).loops = before.loops := c.loops_eq hw₀
    rw [hloops, hloops₀]
    exact hclosed
  have hfile : (before.within w₀).file = before.file := c.file_eq hw₀
  rw [State.closeFile_of_le hclosed] at hahead ⊢
  rw [State.closeFile_of_le hclosed', hfile]
  have hclose : ReflTransGen (Change stage True) st { st with
      file := before.file, filePath := before.filePath, location := before.location } :=
    .single (.act (.control rfl))
  refine ⟨_, ?_, c.carry [] hclose hahead hw rfl rfl rfl (fun id hid => ?_)
    fun loop hloop => ?_⟩
  · have hloops : w.loops = st.loops := c.loops_eq hw
    dsimp only
    rw [← hloops]
    rfl
  · exact c.common_of_steps (hsteps.trans hclose) hahead (c.common_file hw₀ hid)
  · exact c.common_of_steps hclose hahead (c.common_loop hw hloop)

theorem runWith_tracksFrom (hfiles : TracksFiles c runFile) (file : Nat) (st : State) :
    c.TracksFrom (c.Common st.surroundings file ⟨0, 0⟩) st (fun _ _ => True)
      (runWith runFile file) := by
  refine ⟨runWith_advances (runsFiles_of_tracksFiles hfiles) file st,
    fun {stopped st'} hrun hcommon hahead w hw => ?_⟩
  rw [runWith_apply] at hrun ⊢
  cases hfrom : runFrom runFile file stage.maxSteps ⟨0, 0⟩ stage (st.openFile file) with
  | error fault st₁ =>
    rw [hfrom] at hrun
    cases hrun
  | ok stopped' st₁ =>
    rw [hfrom] at hrun
    cases hrun
    have htracks := runFrom_tracksFrom hfiles file stage.maxSteps ⟨0, 0⟩ (st.openFile file)
    have hsteps := htracks.advances.steps hfrom
    have hopen : ReflTransGen (Change stage True) st (st.openFile file) :=
      .single (.act (.control rfl))
    have hclose : ReflTransGen (Change stage True) st₁ (st₁.closeFile st true) := by
      rw [State.closeFile_of_le (State.le_of_closeFile (c.errorCount_eq hahead))]
      exact .single (.act (.control rfl))
    have hahead₁ : c.Ahead st₁ := c.ahead_of_steps hclose hahead
    have haheadOpen : c.Ahead (st.openFile file) := c.ahead_of_steps hsteps hahead₁
    obtain ⟨hopen', hw'⟩ := openFile_beside haheadOpen hw hcommon
    obtain ⟨w₁, hrun₁, hw₁, -⟩ :=
      htracks.beside hfrom (c.common_of_steps hopen haheadOpen hcommon) hahead₁ hw'
    obtain ⟨w₂, hclose₂, hw₂⟩ := closeFile_beside (hopen.trans hsteps) hahead hw₁ hw
    have hlimit : (stage.under terms).maxSteps = stage.maxSteps := rfl
    refine ⟨w₂, ?_, hw₂, trivial⟩
    rw [hlimit, hopen', hrun₁]
    dsimp only
    rw [hclose₂]

theorem runFile_tracksFrom (levels file : Nat) (st : State) :
    c.TracksFrom (c.Common st.surroundings file ⟨0, 0⟩) st (fun _ _ => True)
      (PassM.runFile levels file) := by
  induction levels generalizing file st with
  | zero =>
    exact runWith_tracksFrom (fun run hrun => absurd hrun (Option.not_mem_none run)) file st
  | succ levels ih =>
    refine runWith_tracksFrom (fun run hrun => ?_) file st
    cases hrun
    exact ih

/-- **A pass over the sources is done by the second run beside the first.** -/
theorem settleSource_tracksFrom (main : Nat) (st : State) :
    c.TracksFrom (c.Common st.surroundings main ⟨0, 0⟩) st (fun _ _ => True) (settleSource main) :=
  (runFile_tracksFrom maxIncludes main st).bind fun _ st' _ =>
    Tracks.ofServes settle_serves.change st'

end PassM

/-! ## Assemblies -/

/-- The surroundings at the start of a pass. -/
def Surroundings.atStart (store : SourceStore) : Surroundings where
  store := store
  file := none
  loops := []
  history := []
  asWritten := []

namespace Assembler

/-- A pass that starts beside another one is done beside it. -/
theorem settleSource_beside (c : Companion stage terms) {settings : Settings}
    {diagnostics : Diagnostics} {store store' : SourceStore} {main : Nat}
    (hrun : PassM.settleSource main stage (State.initial settings store diagnostics) = .ok () st)
    (hahead : c.Ahead st) (hcommon : c.Common (.atStart store) main ⟨0, 0⟩)
    (hbeside : c.Beside (.atStart store) (.atStart store')) :
    ∃ w, PassM.settleSource main (stage.under terms) (State.initial settings store' diagnostics) =
        .ok () (st.within w) ∧ c.Beside st.surroundings w := by
  obtain ⟨w, hrun', hw, -⟩ :=
    (PassM.settleSource_tracksFrom (c := c) main _).beside hrun hcommon hahead hbeside
  exact ⟨w, hrun', hw⟩

/-- A part of an assembly that reports something, and depends on nothing but the diagnostics before
it. -/
def Reports (m : AssemblyM Unit) : Prop :=
  ∃ after : Diagnostics → Diagnostics, ∀ a : Assembler,
    m a = .ok () { a with diagnostics := after a.diagnostics }

theorem Reports.forM {β : Type} {m : β → AssemblyM Unit} (hm : ∀ b, Reports (m b)) (l : List β) :
    Reports (l.forM m) := by
  induction l with
  | nil => exact ⟨id, fun _ => rfl⟩
  | cons b l ih =>
    obtain ⟨first, hfirst⟩ := hm b
    obtain ⟨rest, hrest⟩ := ih
    refine ⟨rest ∘ first, fun a => ?_⟩
    exact (bind_of_ok (hfirst a)).trans (hrest _)

theorem report_reports (severity : Severity) (message : String) :
    Reports (report severity message) :=
  ⟨fun diagnostics => (diagnostics.report ⟨severity, none, none, message⟩).2, fun _ => rfl⟩

theorem warnOfOverlaps_reports (page : Page) : Reports (warnOfOverlaps page) := by
  refine Reports.forM (fun stretch => ?_) page.overlaps
  obtain ⟨first, last⟩ := stretch
  exact report_reports _ _

/-- **An assembly is concluded beside another one** with the same diagnostics. -/
theorem conclude_beside {done : State} {output : Output} {a a' b : Assembler}
    (h : conclude done a = .ok output a') (hdiagnostics : b.diagnostics = a.diagnostics)
    (hpaths : b.store.paths = a.store.paths) (w : Surroundings) :
    conclude (done.within w) b = .ok output { b with diagnostics := a'.diagnostics } := by
  obtain ⟨warned, hwarn⟩ := Reports.forM warnOfOverlaps_reports done.pages.toList
  obtain ⟨_, a₁, hwarn₁, h⟩ := bind_eq_ok h
  rw [hwarn] at hwarn₁
  cases hwarn₁
  obtain ⟨_, a₂, hstop, h⟩ := bind_eq_ok h
  obtain ⟨hclean, rfl⟩ := errorCount_of_stopOnErrors hstop
  cases h
  have hwarn' : (done.within w).pages.toList.forM warnOfOverlaps b =
      .ok () { b with diagnostics := warned a.diagnostics } := by
    rw [← hdiagnostics]
    exact hwarn b
  have hstop' : stopOnErrors { b with diagnostics := warned a.diagnostics } =
      .ok () { b with diagnostics := warned a.diagnostics } := by
    rw [stopOnErrors_apply, if_neg (not_not_intro hclean)]
  rw [conclude, bind_of_ok hwarn', bind_of_ok hstop', ← hpaths]
  rfl

/-- At the end of an assembly only its diagnostics change. -/
theorem eq_of_conclude {done : State} {output : Output} {a a' : Assembler}
    (h : conclude done a = .ok output a') : a' = { a with diagnostics := a'.diagnostics } := by
  have hsame : conclude done a = .ok output { a with diagnostics := a'.diagnostics } :=
    conclude_beside h rfl rfl done.surroundings
  rw [h] at hsame
  injection hsame

end Assembler

end MacroAssembler
