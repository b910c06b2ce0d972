import MacroAssembler.Proofs.CompanionRun

/-!
# Strict assemblies

A strict assembly ends at its first error, and it refuses some values that otherwise come out of a
conversion.  So it can only fail more often: a program that is assembled strictly is assembled to
the same output if the assembly is not strict.

The two assemblies run in lockstep, in the same state all the time.
-/

namespace MacroAssembler

open Relation

/-! ## Expansion

The values of macro slots are taken as they come out, so a statement is expanded to the same
text. -/

section Expansion

variable {stage : Stage} {terms : Terms}

theorem Stage.slotValue_under : (stage.under terms).slotValue = stage.slotValue :=
  rfl

namespace PassM

theorem expandMacros_under (text : Text) (st : State) :
    expandMacros text (stage.under terms) st = expandMacros text stage st := by
  rw [expandMacros_apply, expandMacros_apply, Stage.slotValue_under]

theorem replaceStatement_under (file : Nat) (pos : Position) (s : Statement) (text : Text)
    (st : State) : replaceStatement file pos s text (stage.under terms) st =
      replaceStatement file pos s text stage st := by
  unfold replaceStatement
  split
  · rfl
  · rfl

theorem expandStatement_under (file : Nat) (pos : Position) (st : State) :
    expandStatement file pos (stage.under terms) st = expandStatement file pos stage st := by
  rw [expandStatement_apply, expandStatement_apply]
  cases unexpanded st file pos with
  | none => rfl
  | some s =>
    dsimp only
    split
    · exact replaceStatement_under file pos s s.text st
    · cases hrun : expandMacros s.text stage st with
      | error fault st' =>
        rw [PassM.bind_of_error hrun, PassM.bind_of_error ((expandMacros_under _ _).trans hrun)]
      | ok text st' =>
        rw [PassM.bind_of_ok hrun, PassM.bind_of_ok ((expandMacros_under _ _).trans hrun)]
        exact replaceStatement_under file pos s text st'

theorem reach_under (file : Nat) (pos : Position) (st : State) :
    reach file pos (stage.under terms) st = reach file pos stage st := by
  rw [reach_apply, reach_apply, expandStatement_under]

end PassM

end Expansion

/-! ## Lockstep -/

/-- A pass that is not strict, in lockstep with one that has no errors. -/
def Companion.lockstep (stage : Stage) : Companion stage ⟨false, stage.random⟩ where
  Ahead st := st.diagnostics.errorCount = 0
  Beside v w := w = v
  Common _ _ _ := True
  strict_le h := absurd h Bool.false_ne_true
  random_eq _ _ := rfl
  ahead_of_steps hsteps hclean := by
    have hle := errorCount_le_of_steps hsteps
    rw [hclean] at hle
    exact Nat.le_zero.1 hle
  errorCount_eq hclean := hclean
  common_of_steps _ _ _ := trivial
  common_start _ _ := trivial
  file_eq h := congrArg Surroundings.file h
  loops_eq h := congrArg Surroundings.loops h
  common_file _ _ := trivial
  common_loop _ _ := trivial
  carry := by
    rintro st st' _ new - - rfl hstore htaken hhistory - -
    have hafter : st'.surroundings =
        ⟨st'.store, st'.file, st'.loops, st'.history, st'.asWritten⟩ := rfl
    rw [hafter, hstore, htaken, hhistory]
    rfl
  path_eq := by
    rintro st _ file - rfl -
    rfl
  resolve_eq := by
    rintro st _ - rfl name
    rfl
  load := by
    rintro st _ path file store hload - rfl
    exact ⟨store, hload, rfl, trivial⟩
  binary := by
    rintro st _ path bytes store hbinary - rfl
    exact ⟨store, hbinary, rfl⟩
  atLineEnd_eq := by
    rintro st _ file pos - rfl -
    rfl
  reach := by
    rintro st st' _ file pos s hreach - rfl -
    refine ⟨s, st'.surroundings, (PassM.reach_under file pos st).trans hreach, ?_, rfl, trivial⟩
    cases s with
    | none => exact .none
    | some s => exact .some (Or.inl rfl)
  statement_eq := by
    rintro st _ file pos s - rfl - hs -
    exact hs
  leaveRow := by
    rintro st st' _ file pos s row new - - rfl - - - h
    rw [h]
    rfl

namespace Assembler

/-- An assembler that is strict or not. -/
def withStrict (a : Assembler) (strict : Bool) : Assembler :=
  { a with settings := { a.settings with strict := strict } }

variable {a a' : Assembler} {path : Text} {output : Output}

/-- A pass without errors is the same in an assembly that is not strict. -/
theorem settleSource_of_strict {kind : PassKind} {previous : Symbols}
    {previousReusable : ReusableLabels} {allocation : Index Nat} {store : SourceStore}
    {diagnostics : Diagnostics} {main : Nat} {st : State}
    (hrun : PassM.settleSource main
      ((a.withStrict true).stage kind previous previousReusable allocation)
      (State.initial (a.withStrict true).settings store diagnostics) = .ok () st)
    (hclean : st.diagnostics.errorCount = 0) :
    PassM.settleSource main ((a.withStrict false).stage kind previous previousReusable allocation)
      (State.initial (a.withStrict false).settings store diagnostics) = .ok () st := by
  have hstage : (a.withStrict false).stage kind previous previousReusable allocation =
      ((a.withStrict true).stage kind previous previousReusable allocation).under
        ⟨false, a.generator kind⟩ := rfl
  have hinitial : State.initial (a.withStrict false).settings store diagnostics =
      State.initial (a.withStrict true).settings store diagnostics := rfl
  obtain ⟨w, hrun', rfl⟩ := settleSource_beside (.lockstep _) hrun hclean trivial rfl
  rw [hstage, hinitial]
  exact hrun'

/-- The passes of a strict assembly without errors, in an assembly that is not strict. -/
def Passes.relaxed (p : Passes (a.withStrict true) path) (h : p.Yields output) :
    Passes (a.withStrict false) path where
  main := p.main
  loaded := p.loaded
  draft := p.draft
  allocation := p.allocation
  final := p.final
  load_eq := p.load_eq
  draft_eq := settleSource_of_strict p.draft_eq p.errorCount_draft
  errorCount_draft := p.errorCount_draft
  place_eq := p.place_eq
  final_eq := settleSource_of_strict p.final_eq h.errorCount_final

/-- **Strict mode only restricts.**  A program that is assembled strictly is assembled without it as
well, to the same output and with the same diagnostics. -/
theorem assemble_of_strict (h : assemble path (a.withStrict true) = .ok output a') :
    assemble path (a.withStrict false) = .ok output (a'.withStrict false) := by
  obtain ⟨p⟩ := passes_of_assemble h
  have hyields := p.yields h
  have hdone : PassM.settleSource (p.relaxed hyields).main (p.relaxed hyields).assembling
      (p.relaxed hyields).start = .ok () p.done :=
    settleSource_of_strict hyields.done_eq hyields.errorCount_done
  rw [p.assemble_eq, hyields.done_eq] at h
  rw [(p.relaxed hyields).assemble_eq, hdone]
  dsimp only at h ⊢
  rw [eq_of_conclude h]
  exact conclude_beside (b := { a.withStrict false with
    store := p.done.store, diagnostics := p.done.diagnostics }) h rfl rfl p.done.surroundings

/-- A program with a loop, a macro and values at the ends of their ranges. -/
def bounded : Assembler :=
  ofSource
    " .define TWICE(x) x + x\n .repeat 2\n .db 255, TWICE(64), AHEAD\n .loop\nAHEAD: .dw -1\n"

theorem bounded_of_strict : ∃ output a',
    assemble "main".toList (bounded.withStrict true) = .ok output a' ∧
    assemble "main".toList (bounded.withStrict false) = .ok output (a'.withStrict false) ∧
    output.emissions.map Emission.value = #[255, 128, 6, 255, 128, 6, 255, 255] := by
  have hrun : ((bounded.withStrict true).assemblesTo fun output =>
      output.emissions.map Emission.value == #[255, 128, 6, 255, 128, 6, 255, 255]) = true := by
    decide +kernel
  obtain ⟨output, a', h, hvalues⟩ := exists_of_assemblesTo hrun
  exact ⟨output, a', h, assemble_of_strict h, beq_iff_eq.1 hvalues⟩

-- The converse fails: a value that does not fit is cut off, unless the assembly is strict.
example : ((ofSource " .db 256\n").withStrict false).assemblesTo (fun _ => true) = true ∧
    ((ofSource " .db 256\n").withStrict true).assemblesTo (fun _ => true) = false := by
  decide +kernel

end Assembler

end MacroAssembler
