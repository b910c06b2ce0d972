import MacroAssembler.Assembly
import MacroAssembler.Proofs.Runs

/-!
# The passes of an assembly

An assembly that comes as far as its assembling pass has run two labels passes without an error and
has placed the variables between them.  `Passes` collects what they found out.  The assembling pass
itself may have any outcome; `Passes.done` is the state that it leaves, but for the names that it
forgets last.

What holds at the start of every pass and is kept by every change holds at the end of every pass.
-/

namespace MacroAssembler

open Relation

namespace Assembler

variable {a a' : Assembler} {path : Text}
variable {main : Nat} {st : State} {output : Output}

section

variable {kind : PassKind} {previous : Symbols} {previousReusable : ReusableLabels}
  {allocation : Index Nat}

theorem settleSource_of_runPass
    (h : runPass kind previous previousReusable allocation main a = .ok st a')
    (hkind : kind ≠ .assemble) :
    PassM.settleSource main (a.stage kind previous previousReusable allocation)
      (State.initial a.settings a.store a.diagnostics) = .ok () st ∧
    a' = { a with store := st.store, diagnostics := st.diagnostics } := by
  rw [runPass] at h
  split at h
  next heq =>
    cases h
    obtain ⟨last, hlast, hst⟩ := PassM.exists_settleSource heq
    have hsame : st = last := hst.trans (if_neg (mt eq_of_beq hkind))
    exact ⟨hsame ▸ hlast, rfl⟩
  next => cases h

theorem runPass_of_settleSource
    (h : PassM.settleSource main (a.stage kind previous previousReusable allocation)
      (State.initial a.settings a.store a.diagnostics) = .ok () st) :
    runPass kind previous previousReusable allocation main a =
      .ok (st.cleared kind) { a with store := st.store, diagnostics := st.diagnostics } := by
  rw [runPass, PassM.runSource_of_settleSource h]
  cases kind <;> rfl

theorem runPass_of_error {fault : Fault}
    (h : PassM.settleSource main (a.stage kind previous previousReusable allocation)
      (State.initial a.settings a.store a.diagnostics) = .error fault st) :
    runPass kind previous previousReusable allocation main a =
      .error fault { a with store := st.store, diagnostics := st.diagnostics } := by
  rw [runPass, PassM.runSource_eq, PassM.bind_of_error h]

end

theorem load_of_loadMain (h : loadMain path a = .ok main a') :
    ∃ store, SourceStore.load path a.store = .ok main store ∧ a' = { a with store := store } := by
  rw [loadMain] at h
  cases hload : SourceStore.load path a.store with
  | ok main' store =>
    rw [hload] at h
    cases h
    exact ⟨store, rfl, rfl⟩
  | error e store =>
    rw [hload] at h
    cases h

theorem stopOnErrors_apply : stopOnErrors a =
    if a.diagnostics.errorCount ≠ 0 then .error (.aborted a.diagnostics.errorCount) a
    else .ok () a := by
  have hrun : stopOnErrors a = (if a.diagnostics.errorCount ≠ 0
      then (throw (.aborted a.diagnostics.errorCount) : AssemblyM Unit) else pure ()) a := rfl
  rw [hrun]
  split
  · rfl
  · rfl

theorem errorCount_of_stopOnErrors {u : Unit} (h : stopOnErrors a = .ok u a') :
    a.diagnostics.errorCount = 0 ∧ a' = a := by
  rw [stopOnErrors_apply] at h
  by_cases hcount : a.diagnostics.errorCount = 0
  · rw [if_neg (not_not_intro hcount)] at h
    cases h
    exact ⟨hcount, rfl⟩
  · rw [if_pos hcount] at h
    cases h

theorem steps_of_settleSource {stage : Stage} {st' : State}
    (h : PassM.settleSource main stage st = .ok () st') :
    ReflTransGen (Change stage True) st st' := by
  have hsteps : LeadsFrom (Change stage True) st (PassM.settleSource main stage) :=
    (PassM.settleSource_advances main).performs st
  rwa [LeadsFrom, stateAfter_of_ok h] at hsteps

/-- The passes of an assembly up to the assembling pass. -/
structure Passes (a : Assembler) (path : Text) where
  /-- The number of the main file. -/
  main : Nat
  /-- The sources when the main file has been loaded. -/
  loaded : SourceStore
  /-- The end of the draft pass. -/
  draft : State
  /-- The addresses of the variables. -/
  allocation : Index Nat
  /-- The end of the final labels pass. -/
  final : State
  load_eq : SourceStore.load path a.store.clearRows = .ok main loaded
  draft_eq : PassM.settleSource main
    (a.stage .draft (Symbols.empty a.settings.caseSensitive) {} [])
    (State.initial a.settings loaded {}) = .ok () draft
  errorCount_draft : draft.diagnostics.errorCount = 0
  place_eq : placeVariables draft = .ok allocation
  final_eq : PassM.settleSource main (a.stage .final draft.symbols draft.reusable allocation)
    (State.initial a.settings draft.store draft.diagnostics) = .ok () final

/-- The passes of an assembly are determined by its program. -/
instance : Subsingleton (Passes a path) where
  allEq p q := by
    obtain ⟨main, loaded, draft, allocation, final, hload, hdraft, hclean, hplace, hfinal⟩ := p
    obtain ⟨main', loaded', draft', allocation', final', hload', hdraft', -, hplace', hfinal'⟩ := q
    cases hload.symm.trans hload'
    cases hdraft.symm.trans hdraft'
    cases hplace.symm.trans hplace'
    cases hfinal.symm.trans hfinal'
    rfl

namespace Passes

variable (p : Passes a path)

/-- What is fixed in the assembling pass. -/
def assembling : Stage :=
  a.stage .assemble p.final.symbols p.final.reusable p.allocation

/-- The state at the start of the assembling pass. -/
def start : State :=
  State.initial a.settings p.final.store p.final.diagnostics

/-- The state that the assembling pass leaves, whether it succeeds or fails.  The names that it has
settled are still remembered. -/
def done : State :=
  stateAfter (PassM.settleSource p.main p.assembling) p.start

theorem draft_steps : ReflTransGen
    (Change (a.stage .draft (Symbols.empty a.settings.caseSensitive) {} []) True)
    (State.initial a.settings p.loaded {}) p.draft :=
  steps_of_settleSource p.draft_eq

theorem final_steps : ReflTransGen
    (Change (a.stage .final p.draft.symbols p.draft.reusable p.allocation) True)
    (State.initial a.settings p.draft.store p.draft.diagnostics) p.final :=
  steps_of_settleSource p.final_eq

theorem done_steps : ReflTransGen (Change p.assembling True) p.start p.done :=
  (PassM.settleSource_advances p.main).performs p.start

/-- An assembly has put out what its passes worked out. -/
structure Yields (output : Output) : Prop where
  done_eq : PassM.settleSource p.main p.assembling p.start = .ok () p.done
  pages_eq : output.pages = p.done.pages
  symbols_eq : output.symbols = p.done.symbols
  emissions_eq : output.emissions = p.done.emissions
  errorCount_done : p.done.diagnostics.errorCount = 0

variable {p}

/-- **What is kept unless a statement fails holds at the end of a successful assembly.** -/
theorem Yields.keeps {output : Output} (h : p.Yields output) {P : State → Prop}
    (hstep : ∀ st st', Change p.assembling False st st' → P st → P st') (hstart : P p.start) :
    P p.done := by
  have hadvances : AdvancesFrom p.assembling p.start (PassM.settleSource p.main) :=
    PassM.settleSource_advances p.main p.start
  rw [AdvancesFrom, h.done_eq] at hadvances
  rcases keeps_of_advances hstep hadvances hstart with herrors | hP
  · exact absurd h.errorCount_done herrors
  · exact hP

/-- A successful assembly has had no error when its final labels pass was done. -/
theorem Yields.errorCount_final {output : Output} (h : p.Yields output) :
    p.final.diagnostics.errorCount = 0 := by
  have hle : p.start.diagnostics.errorCount ≤ p.done.diagnostics.errorCount :=
    errorCount_le_of_steps p.done_steps
  rw [h.errorCount_done] at hle
  exact Nat.le_zero.1 hle

end Passes

/-- Warnings do not take errors back. -/
theorem warnOfOverlaps_follows (pages : List Page) :
    Follows (fun a a' : Assembler => a.diagnostics.errorCount ≤ a'.diagnostics.errorCount)
      (pages.forM warnOfOverlaps) :=
  (Follows.closedIn (R := Eq)).forM fun _ _ => (Follows.closedIn (R := Eq)).forM fun _ _ =>
    Follows.modifyGet fun _ => .single (Diagnostics.errorCount_le_report _ _)

theorem output_of_conclude {done : State} (h : conclude done a = .ok output a') :
    output.pages = done.pages ∧ output.symbols = done.symbols ∧
      output.emissions = done.emissions ∧ a.diagnostics.errorCount = 0 := by
  obtain ⟨_, a₁, hwarn, h⟩ := bind_eq_ok h
  obtain ⟨_, a₂, hstop, h⟩ := bind_eq_ok h
  cases h
  have hsteps := warnOfOverlaps_follows done.pages.toList a
  rw [LeadsFrom, stateAfter_of_ok hwarn] at hsteps
  have hle : a.diagnostics.errorCount ≤ a₁.diagnostics.errorCount :=
    keeps_of_steps (P := fun b : Assembler => a.diagnostics.errorCount ≤ b.diagnostics.errorCount)
      (fun _ _ hstep hle => Nat.le_trans hle hstep) hsteps (Nat.le_refl _)
  rw [(errorCount_of_stopOnErrors hstop).1] at hle
  exact ⟨rfl, rfl, rfl, Nat.le_zero.1 hle⟩

/-- **An assembly ends as its assembling pass ends.** -/
theorem Passes.assemble_eq (p : Passes a path) :
    assemble path a = match PassM.settleSource p.main p.assembling p.start with
      | .ok () done => conclude done { a with store := done.store, diagnostics := done.diagnostics }
      | .error fault st =>
        .error fault { a with store := st.store, diagnostics := st.diagnostics } := by
  let cleared : Assembler := { a with diagnostics := {}, store := a.store.clearRows }
  let loaded : Assembler := { cleared with store := p.loaded }
  let drafted : Assembler :=
    { loaded with store := p.draft.store, diagnostics := p.draft.diagnostics }
  let settled : Assembler :=
    { drafted with store := p.final.store, diagnostics := p.final.diagnostics }
  have hclear : (modify fun a => { a with diagnostics := {}, store := a.store.clearRows } :
      AssemblyM Unit) a = .ok () cleared := rfl
  have hmain : loadMain path cleared = .ok p.main loaded := by
    rw [loadMain, p.load_eq]
    rfl
  have hdraft : runPass .draft (Symbols.empty a.settings.caseSensitive) {} [] p.main loaded =
      .ok p.draft drafted :=
    runPass_of_settleSource p.draft_eq
  have hstop : stopOnErrors drafted = .ok () drafted := by
    rw [stopOnErrors_apply, if_neg (not_not_intro p.errorCount_draft)]
  have hfinal : runPass .final p.draft.symbols p.draft.reusable p.allocation p.main drafted =
      .ok p.final settled :=
    runPass_of_settleSource p.final_eq
  rw [assemble, bind_of_ok hclear, bind_of_ok hmain, get_bind_apply, bind_of_ok hdraft,
    bind_of_ok hstop, p.place_eq]
  dsimp only
  rw [bind_of_ok hfinal]
  cases hrun : PassM.settleSource p.main p.assembling p.start with
  | ok u done =>
    have hdone : runPass .assemble p.final.symbols p.final.reusable p.allocation p.main settled =
        .ok (done.cleared .assemble)
          { a with store := done.store, diagnostics := done.diagnostics } :=
      runPass_of_settleSource hrun
    rw [bind_of_ok hdone]
    rfl
  | error fault st =>
    have hdone : runPass .assemble p.final.symbols p.final.reusable p.allocation p.main settled =
        .error fault { a with store := st.store, diagnostics := st.diagnostics } :=
      runPass_of_error hrun
    rw [bind_of_error hdone]

/-- A successful assembly has put out what its passes worked out. -/
theorem Passes.yields (p : Passes a path) (h : assemble path a = .ok output a') :
    p.Yields output := by
  rw [p.assemble_eq] at h
  have hdone : p.done = stateAfter (PassM.settleSource p.main p.assembling) p.start := rfl
  cases hrun : PassM.settleSource p.main p.assembling p.start with
  | error fault st =>
    rw [hrun] at h
    cases h
  | ok u done =>
    rw [hrun] at h
    rw [stateAfter_of_ok hrun] at hdone
    obtain ⟨hpages, hsymbols, hemissions, herrors⟩ := output_of_conclude h
    rw [← hdone] at hpages hsymbols hemissions
    exact ⟨hdone ▸ hrun, hpages, hsymbols, hemissions, hdone ▸ herrors⟩

/-- **A successful assembly has run all its passes.** -/
theorem passes_of_assemble (h : assemble path a = .ok output a') :
    Nonempty (Passes a path) := by
  obtain ⟨_, a₁, hclear, h⟩ := bind_eq_ok h
  cases hclear
  obtain ⟨main, a₂, hmain, h⟩ := bind_eq_ok h
  obtain ⟨store, hload, rfl⟩ := load_of_loadMain hmain
  obtain ⟨_, _, hget, h⟩ := bind_eq_ok h
  cases hget
  obtain ⟨draft, a₃, hpass₁, h⟩ := bind_eq_ok h
  obtain ⟨hdraft, rfl⟩ := settleSource_of_runPass hpass₁ nofun
  obtain ⟨_, a₄, hstop, h⟩ := bind_eq_ok h
  obtain ⟨hclean, rfl⟩ := errorCount_of_stopOnErrors hstop
  cases hplace : placeVariables draft with
  | error e =>
    rw [hplace] at h
    obtain ⟨_, a₅, -, h⟩ := bind_eq_ok h
    obtain ⟨_, a₆, -, h⟩ := bind_eq_ok h
    cases h
  | ok allocation =>
    rw [hplace] at h
    obtain ⟨final, a₅, hpass₂, -⟩ := bind_eq_ok h
    obtain ⟨hfinal, rfl⟩ := settleSource_of_runPass hpass₂ nofun
    exact ⟨⟨main, store, draft, allocation, final, hload, hdraft, hclean, hplace, hfinal⟩⟩

/-! ## Assemblies that can be run -/

/-- The passes of an assembly, if it comes as far as its assembling pass. -/
def Passes.run (a : Assembler) (path : Text) : Option (Passes a path) :=
  match hload : SourceStore.load path a.store.clearRows with
  | .error _ _ => none
  | .ok main loaded =>
    match hdraft : PassM.settleSource main
      (a.stage .draft (Symbols.empty a.settings.caseSensitive) {} [])
      (State.initial a.settings loaded {}) with
    | .error _ _ => none
    | .ok () draft =>
      if hclean : draft.diagnostics.errorCount = 0 then
        match hplace : placeVariables draft with
        | .error _ => none
        | .ok allocation =>
          match hfinal : PassM.settleSource main
            (a.stage .final draft.symbols draft.reusable allocation)
            (State.initial a.settings draft.store draft.diagnostics) with
          | .error _ _ => none
          | .ok () final =>
            some ⟨main, loaded, draft, allocation, final, hload, hdraft, hclean, hplace, hfinal⟩
      else none

/-- An assembler with one source in memory, as `main`. -/
def ofSource (text : String) : Assembler where
  store := SourceStore.addMemory {} "main".toList text.toList

/-- Whether the program of an assembler is assembled without an error, to an output that passes a
test. -/
def assemblesTo (a : Assembler) (test : Output → Bool) : Bool :=
  match assemble "main".toList a with
  | .ok output _ => test output
  | .error _ _ => false

theorem exists_of_assemblesTo {test : Output → Bool} (h : a.assemblesTo test = true) :
    ∃ output a', assemble "main".toList a = .ok output a' ∧ test output = true := by
  unfold assemblesTo at h
  split at h
  next output a' heq => exact ⟨output, a', heq, h⟩
  next => cases h

/-- Whether the program of an assembler is assembled without an error, in passes that pass a
test. -/
def assemblesBy (a : Assembler) (test : Passes a "main".toList → Bool) : Bool :=
  (Passes.run a "main".toList).any test && a.assemblesTo fun _ => true

theorem exists_of_assemblesBy {test : Passes a "main".toList → Bool}
    (h : a.assemblesBy test = true) : ∃ output a', assemble "main".toList a = .ok output a' ∧
      ∃ p : Passes a "main".toList, p.Yields output ∧ test p = true := by
  rw [assemblesBy, Bool.and_eq_true] at h
  obtain ⟨hpasses, houtput⟩ := h
  obtain ⟨p, -, hp⟩ := (Option.any_eq_true _ _).1 hpasses
  obtain ⟨output, a', h, -⟩ := exists_of_assemblesTo houtput
  exact ⟨output, a', h, p, p.yields h, hp⟩

end Assembler

end MacroAssembler
