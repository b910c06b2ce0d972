import MacroAssembler.Proofs.BranchChain
import MacroAssembler.Proofs.Visit

/-!
# Nesting of conditional blocks

How deep a statement stands in conditional blocks should show in the text: an opening directive adds
a level and a closing one takes it away, in assembled code and in code that is passed over.  It does
as long as these directives stand alone in their statements.  Behind a label they are only seen
where the code is assembled, because a statement in an inactive branch is not taken apart.

The sources here have no macros, loops or includes, so a run goes through the statements in the
order of the text.  `visit_nests` is one statement, and `trail_nests` compares two runs statement by
statement.
-/

namespace MacroAssembler

open Relation

/-! ## What a statement holds -/

/-- The directive in a text, behind whatever labels. -/
def directiveOf (text : Text) (column0 : Bool) : Option Directive :=
  match _h : Command.ofText text column0 with
  | .directive name _ => Directive.ofName name
  | .label _ rest => directiveOf rest false
  | .blank | .assign _ _ | .instruct _ _ => none
termination_by text.length
decreasing_by exact Command.length_lt_of_ofText _h

theorem directiveOf_of_directive {text name rest : Text} {column0 : Bool}
    (h : Command.ofText text column0 = .directive name rest) :
    directiveOf text column0 = Directive.ofName name := by
  rw [directiveOf]
  split
  · next h' => rw [h] at h'; cases h'; rfl
  all_goals next h' => rw [h] at h'; cases h'

theorem directiveOf_of_label {text name rest : Text} {column0 : Bool}
    (h : Command.ofText text column0 = .label name rest) :
    directiveOf text column0 = directiveOf rest false := by
  rw [directiveOf]
  split
  · next h' => rw [h] at h'; cases h'
  · next h' => rw [h] at h'; cases h'; rfl
  all_goals next h' => rw [h] at h'; cases h'

namespace Directive

/-- Whether a directive opens a block or closes one. -/
def isBracket : Directive → Bool
  | .branch (.openBlock _) | .branch .close => true
  | _ => false

/-- Whether a directive leaves the macros alone and the run on its way. -/
def isLinear : Directive → Bool
  | .flow .stop => true
  | .flow _ | .macroText _ | .includeFile => false
  | _ => true

/-- Whether a directive moreover leaves the number of open blocks alone. -/
def isLevel (d : Directive) : Bool :=
  d.isLinear && !d.isBracket

end Directive

namespace Wording

/-- Whether a statement opens a block or closes one, and does nothing else. -/
def isBracket (w : Wording) : Bool :=
  w.bare?.any Directive.isBracket

/-- Whether a statement has no macro definition, loop or include. -/
def isLinear (w : Wording) : Bool :=
  (directiveOf w.text w.column0).all Directive.isLinear

/-- Whether a statement moreover has no opening or closing directive behind a label. -/
def isPlain (w : Wording) : Bool :=
  w.isLinear && (w.isBracket || !(directiveOf w.text w.column0).any Directive.isBracket)

/-- Whether a statement opens a block. -/
def opens (w : Wording) : Bool :=
  match w.bare? with
  | some (.branch (.openBlock _)) => true
  | _ => false

/-- The number of open blocks behind a statement, from the number in front of it. -/
def nesting (w : Wording) (depth : Nat) : Nat :=
  match w.bare? with
  | some (.branch (.openBlock _)) => depth + 1
  | some (.branch .close) => depth - 1
  | _ => depth

theorem level_of_isPlain {w : Wording} (hplain : w.isPlain = true)
    (hbracket : w.isBracket = false) :
    (directiveOf w.text w.column0).all Directive.isLevel = true := by
  rw [isPlain, hbracket, Bool.false_or, isLinear, Bool.and_eq_true] at hplain
  cases hd : directiveOf w.text w.column0 with
  | none => rfl
  | some d =>
    rw [hd] at hplain
    exact Bool.and_eq_true_iff.2 hplain

end Wording

/-! ## Level statements -/

/-- The states before and after something that leaves the texts and the macros alone and passes over
no loop. -/
structure Steady (st st' : State) : Prop where
  macros_eq : st'.macros = st.macros
  longMacro_eq : st'.longMacro = st.longMacro
  skippedLoops_eq : st'.skippedLoops = st.skippedLoops
  wordings_eq : ∀ file, st'.store.wordings file = st.store.wordings file

/-- The states before and after something that moreover leaves the number of open blocks alone. -/
structure Level (st st' : State) : Prop extends Steady st st' where
  depth_eq : st'.conditionals.depth = st.conditionals.depth

section

variable {st st' st'' : State}

theorem Steady.refl (st : State) : Steady st st :=
  ⟨rfl, rfl, rfl, fun _ => rfl⟩

theorem Steady.trans (h : Steady st st') (h' : Steady st' st'') : Steady st st'' :=
  ⟨h'.macros_eq.trans h.macros_eq, h'.longMacro_eq.trans h.longMacro_eq,
    h'.skippedLoops_eq.trans h.skippedLoops_eq,
    fun file => (h'.wordings_eq file).trans (h.wordings_eq file)⟩

theorem Level.refl (st : State) : Level st st :=
  ⟨.refl st, rfl⟩

theorem Level.trans (h : Level st st') (h' : Level st' st'') : Level st st'' :=
  ⟨h.toSteady.trans h'.toSteady, h'.depth_eq.trans h.depth_eq⟩

theorem Level.ofQuiet {stage : Stage} {failing : Prop} (h : Quiet stage failing st st') :
    Level st st' :=
  have hcourse := h.course_eq
  ⟨⟨congrArg Course.macros hcourse, congrArg Course.longMacro hcourse,
    congrArg Course.skippedLoops hcourse, h.wordings_eq⟩,
    congrArg (fun course => course.conditionals.depth) hcourse⟩

theorem Level.ofSteps {stage : Stage} {failing : Prop}
    (h : ReflTransGen (Quiet stage failing) st st') : Level st st' :=
  keeps_of_steps (fun _ _ hstep hlevel => hlevel.trans (ofQuiet hstep)) h (refl st)

end

/-- Every statement of the text is executed, or is passed over because of its branch alone: no macro
is being collected, no loop is skipped, and there are no macros to expand. -/
structure State.Plain (st : State) : Prop where
  macros_empty : st.macros.isEmpty = true
  longMacro_eq : st.longMacro = none
  skippedLoops_eq : st.skippedLoops = 0

theorem State.Plain.steady {st st' : State} (h : st.Plain) (hsteady : Steady st st') : st'.Plain :=
  ⟨hsteady.macros_eq ▸ h.macros_empty, hsteady.longMacro_eq.trans h.longMacro_eq,
    hsteady.skippedLoops_eq.trans h.skippedLoops_eq⟩

/-- From a state, a statement leaves the texts, the macros and the number of open blocks alone, and
does not jump. -/
structure StaysFrom (stage : Stage) (st : State) (m : PassM Flow) : Prop where
  level : Level st (stateAfter (m stage) st)
  ne_jump : ∀ target st', m stage st ≠ .ok (.jump target) st'

namespace StaysFrom

variable {stage : Stage} {st : State}

theorem pure (st : State) : StaysFrom stage st (Pure.pure .next) :=
  ⟨.refl st, fun _ _ h => nomatch h⟩

/-- What follows a level part stays if it does. -/
theorem bind {m : PassM Unit} {f : Unit → PassM Flow} (hm : Level st (stateAfter (m stage) st))
    (hf : ∀ u st', m stage st = .ok u st' → StaysFrom stage st' (f u)) :
    StaysFrom stage st (m >>= f) := by
  cases hrun : m stage st with
  | ok u st' =>
    have hrest := hf u st' hrun
    rw [stateAfter_of_ok hrun] at hm
    refine ⟨?_, fun target st'' heq => ?_⟩
    · exact (stateAfter_bind_of_ok hrun).symm ▸ hm.trans hrest.level
    · rw [PassM.bind_of_ok hrun] at heq
      exact hrest.ne_jump target st'' heq
  | error fault st' =>
    rw [stateAfter_of_error hrun] at hm
    refine ⟨?_, fun target st'' heq => ?_⟩
    · exact (stateAfter_bind_of_error hrun).symm ▸ hm
    · rw [PassM.bind_of_error hrun] at heq
      cases heq

/-- A statement that goes on with the next one stays if what it does is level. -/
theorem next {m : PassM Unit} (h : Level st (stateAfter (m stage) st)) :
    StaysFrom stage st (do m; return Flow.next) :=
  bind h fun _ st' _ => pure st'

theorem ofQuiet {failing : Prop} {m : PassM Unit}
    (h : PerformsFrom (Quiet stage failing) stage st m) :
    StaysFrom stage st (do m; return Flow.next) :=
  next (.ofSteps h)

end StaysFrom

namespace Conditionals.Call

/-- An alternative or a final branch leaves the number of open blocks alone. -/
theorem depth_after_of_ne {call : Call} {s : Conditionals} (hopen : ∀ o, call ≠ .openBlock o)
    (hclose : call ≠ .close) : (call.after s).depth = s.depth := by
  have hcomes := call.comes s
  generalize call.consults s = consulted, call.succeeds s = ok, call.after s = s' at hcomes ⊢
  cases hcomes with
  | opened | notOpened | openedInside => exact absurd rfl (hopen _)
  | closed | notClosed => exact absurd rfl hclose
  | _ => rfl

theorem depth_after_openBlock {outcome : Option Bool} {s : Conditionals}
    (h : (openBlock outcome).succeeds s = true) :
    ((openBlock outcome).after s).depth = s.depth + 1 := by
  have hcomes := (openBlock outcome).comes s
  rw [h] at hcomes
  generalize (openBlock outcome).consults s = consulted, (openBlock outcome).after s = s'
    at hcomes ⊢
  cases hcomes with
  | opened | openedInside => rfl

theorem depth_after_close (s : Conditionals) : (close.after s).depth = s.depth - 1 := by
  have hcomes := close.comes s
  generalize close.consults s = consulted, close.succeeds s = ok, close.after s = s' at hcomes ⊢
  cases hcomes with
  | closed | notClosed => rfl

end Conditionals.Call

namespace BranchDirective

variable (stage : Stage) (st : State)

theorem steady_run (d : BranchDirective) (name rest : Text) :
    Steady st (stateAfter (d.run name rest stage) st) := by
  obtain ⟨st', hcourse, hstore, hafter⟩ := stateAfter_run stage st d name rest
  rw [hafter]
  exact ⟨congrArg Course.macros hcourse, congrArg Course.longMacro hcourse,
    congrArg Course.skippedLoops hcourse, fun file => congrArg (·.wordings file) hstore⟩

theorem conditionals_run (d : BranchDirective) (name rest : Text) :
    (stateAfter (d.run name rest stage) st).conditionals =
      (d.call (d.outcome name rest stage st)).after st.conditionals := by
  obtain ⟨st', _, _, hafter⟩ := stateAfter_run stage st d name rest
  rw [hafter]

/-- A directive that neither opens a block nor closes one is level. -/
theorem level_run {d : BranchDirective} (hd : (Directive.branch d).isLevel = true)
    (name rest : Text) : Level st (stateAfter (d.run name rest stage) st) := by
  refine ⟨steady_run stage st d name rest, ?_⟩
  rw [conditionals_run]
  cases d with
  | openBlock test => cases hd
  | close => cases hd
  | alternative test =>
    exact Conditionals.Call.depth_after_of_ne (fun _ h => nomatch h) (fun h => nomatch h)
  | otherwise =>
    exact Conditionals.Call.depth_after_of_ne (fun _ h => nomatch h) (fun h => nomatch h)

end BranchDirective

namespace PassM

variable {runFile : Option (Nat → PassM Bool)} {stage : Stage} {st : State}
variable {pos : Position} {s : Statement} {w : Wording}

/-- What a directive does: unless it is about branches, macros, loops or files, it is quiet and the
run goes on with the next statement. -/
theorem directive_cases (stage : Stage) (file : Nat) (pos : Position) (d : Directive)
    (name rest : Text) :
    (∃ m : PassM Unit, directive runFile file pos d name rest = (do m; return Flow.next) ∧
        Performs (Quiet stage True) stage m) ∨
      d = .includeFile ∨ (∃ b, d = .branch b) ∨ (∃ t, d = .macroText t) ∨ ∃ f, d = .flow f := by
  have hacts : ∀ {m : PassM Unit} {P : Prop}, Performs (Act stage True) stage m →
      directive runFile file pos d name rest = (do m; return Flow.next) →
        (∃ m : PassM Unit, directive runFile file pos d name rest = (do m; return Flow.next) ∧
          Performs (Quiet stage True) stage m) ∨ P :=
    fun hm hd => .inl ⟨_, hd, hm.quiet⟩
  cases d with
  | branch d => exact .inr (.inr (.inl ⟨d, rfl⟩))
  | scope d => exact hacts (d.run_serves name rest).performs rfl
  | data d => exact hacts (d.run_serves name rest).performs rfl
  | series d => exact hacts (d.run_serves name rest).performs rfl
  | charMap => exact hacts (runCharMap_serves name rest).performs rfl
  | macroText d => exact .inr (.inr (.inr (.inl ⟨d, rfl⟩)))
  | storage d => exact hacts (d.run_acts name rest).performs rfl
  | flow d => exact .inr (.inr (.inr (.inr ⟨d, rfl⟩)))
  | includeFile => exact .inr (.inl rfl)
  | binary d => exact .inl ⟨d.run name rest, rfl, d.run_performs name rest⟩
  | placement d => exact hacts (d.run_serves name rest).performs rfl
  | notice d => exact hacts (d.run_serves rest).performs rfl
  | equate => exact hacts (Performs.misuse .equWithoutLabel) rfl

theorem directive_staysFrom {d : Directive} (hd : d.isLevel = true) (file : Nat) (pos : Position)
    (name rest : Text) : StaysFrom stage st (directive runFile file pos d name rest) := by
  rcases directive_cases stage file pos d name rest with
    ⟨m, hm, hquiet⟩ | rfl | ⟨d, rfl⟩ | ⟨d, rfl⟩ | ⟨d, rfl⟩
  · rw [hm]
    exact .ofQuiet (hquiet st)
  · cases hd
  · exact .next (d.level_run stage st hd name rest)
  · cases hd
  · cases d with
    | stop => exact ⟨.refl st, fun _ _ h => by cases h⟩
    | count | repeatTimes | loop => cases hd

/-- **A text is executed part by part.**  What holds of the directive behind its labels, and of what
acts and of what is quiet, holds of the text.  It is executed at a statement whose macros have been
expanded and that holds the same instruction, if it holds one. -/
theorem command_induction {P : State → PassM Flow → Prop} {file : Nat}
    (hexpanded : s.expanded = true)
    (hread : ∀ st (m : Stage → PassM Flow), P st (m stage) → P st (read >>= m))
    (hnext : ∀ st, P st (pure .next)) (hthrow : ∀ st fault, P st (throw fault))
    (hacts : ∀ st (m : PassM Unit) (f : Unit → PassM Flow), Performs (Act stage True) stage m →
      (∀ u st', m stage st = .ok u st' → P st' (f u)) → P st (m >>= f))
    (hquiet : ∀ st (m : PassM Unit), PerformsFrom (Quiet stage False) stage st m →
      P st (do m; return Flow.next)) (text : Text) (column0 : Bool)
    (hdirective : ∀ st d name rest, directiveOf text column0 = some d →
      P st (directive runFile file pos d name rest)) (st : State)
    (hs : st.store.statementAt file pos = some s)
    (hins : instructionOf text column0 = instructionOf s.text s.column0) :
    P st (command runFile file pos text column0) := by
  rw [command]
  split
  next => exact hnext st
  next name rest h =>
    rw [directiveOf_of_directive h] at hdirective
    split
    next d hd => exact hdirective st d name rest hd
    next => exact hthrow st _
  next name value h =>
    exact hacts st _ _ (assign_serves name value).performs fun _ st' _ => hnext st'
  next name rest h =>
    -- the label leaves the statement in its place
    have hlabel : Acts stage (defineAddressLabel name) := defineAddressLabel_actsFrom name
    have hshorter : rest.length < text.length := Command.length_lt_of_ofText h
    rw [directiveOf_of_label h] at hdirective
    rw [instructionOf_of_label h] at hins
    refine hacts st _ _ hlabel.performs fun _ st' hrun => ?_
    refine command_induction hexpanded hread hnext hthrow hacts hquiet rest false
      hdirective st' ?_ hins
    rw [(hlabel st).store_eq hrun]
    exact hs
  next mnemonic operands h =>
    rw [instructionOf_of_instruct h] at hins
    refine hread st _ ?_
    split
    · exact hquiet st _ (instruction_performsFrom hs hexpanded hins.symm)
    · exact hthrow st _
termination_by text.length

/-- A text without macro definitions, loops, includes and brackets behind its labels stays. -/
theorem command_staysFrom {file : Nat} (hexpanded : s.expanded = true) (text : Text)
    (column0 : Bool) (st : State) (hs : st.store.statementAt file pos = some s)
    (hins : instructionOf text column0 = instructionOf s.text s.column0)
    (hlevel : (directiveOf text column0).all Directive.isLevel = true) :
    StaysFrom stage st (command runFile file pos text column0) := by
  refine command_induction hexpanded (fun _ _ hm => ⟨hm.level, hm.ne_jump⟩)
    .pure (fun st _ => ⟨.refl st, fun _ _ h => nomatch h⟩)
    (fun st _ _ hm hf => .bind (.ofSteps (hm.quiet st)) hf) (fun _ _ => .ofQuiet) text column0
    (fun st d name rest hd => ?_) st hs hins
  rw [hd] at hlevel
  exact directive_staysFrom hlevel file pos name rest

/-! ## Statements -/

/-- From a state, a statement leaves the texts and the macros alone, does not jump, and takes the
number of open blocks where its wording says, unless it is to open a block and fails. -/
structure NestsFrom (stage : Stage) (st : State) (w : Wording) (m : PassM Flow) : Prop where
  steady : Steady st (stateAfter (m stage) st)
  ne_jump : ∀ target st', m stage st ≠ .ok (.jump target) st'
  depth_eq : (w.opens = true → ∃ flow st', m stage st = .ok flow st') →
    (stateAfter (m stage) st).conditionals.depth = w.nesting st.conditionals.depth

theorem NestsFrom.ofStays {m : PassM Flow} (h : StaysFrom stage st m) (hw : w.isBracket = false) :
    NestsFrom stage st w m := by
  refine ⟨h.level.toSteady, h.ne_jump, fun _ => ?_⟩
  rw [h.level.depth_eq, Wording.nesting]
  split
  next hbare =>
    rw [Wording.isBracket, hbare] at hw
    cases hw
  next hbare =>
    rw [Wording.isBracket, hbare] at hw
    cases hw
  next => rfl

/-- A directive around branches that stands alone. -/
theorem NestsFrom.ofBranch {d : BranchDirective} (hw : w.bare? = some (.branch d))
    (name rest : Text) : NestsFrom stage st w (do d.run name rest; return Flow.next) := by
  have hsteady := d.steady_run stage st name rest
  have hdepth := congrArg Conditionals.depth (d.conditionals_run stage st name rest)
  have hjump : ∀ target st', (do d.run name rest; return Flow.next : PassM Flow) stage st ≠
      .ok (.jump target) st' := by
    intro target st' heq
    obtain ⟨_, _, _, hnext⟩ := bind_eq_ok heq
    cases hnext
  have hafter : stateAfter ((do d.run name rest; return Flow.next : PassM Flow) stage) st =
      stateAfter (d.run name rest stage) st := by
    cases hrun : d.run name rest stage st with
    | ok u st' => exact (stateAfter_bind_of_ok hrun).trans (stateAfter_of_ok hrun).symm
    | error fault st' =>
      exact (stateAfter_bind_of_error hrun).trans (stateAfter_of_error hrun).symm
  refine ⟨hafter ▸ hsteady, hjump, fun hopens => ?_⟩
  rw [hafter, hdepth, Wording.nesting, hw]
  cases d with
  | openBlock test =>
    have hopen : w.opens = true := by
      rw [Wording.opens, hw]
    obtain ⟨flow, st', hrun⟩ := hopens hopen
    obtain ⟨u, st₁, hrun, _⟩ := bind_eq_ok hrun
    exact Conditionals.Call.depth_after_openBlock
      (BranchDirective.succeeds_of_run_eq_ok stage st hrun)
  | alternative test =>
    exact Conditionals.Call.depth_after_of_ne (fun _ h => nomatch h) (fun h => nomatch h)
  | otherwise =>
    exact Conditionals.Call.depth_after_of_ne (fun _ h => nomatch h) (fun h => nomatch h)
  | close => exact Conditionals.Call.depth_after_close _

theorem execute_nestsFrom (hplain : st.Plain) {file : Nat}
    (hs : st.store.statementAt file pos = some s) (hready : Ready st s)
    (hw : s.wording.isPlain = true) :
    NestsFrom stage st s.wording (execute runFile file pos s.text s.column0) := by
  have hget : ∀ m : State → PassM Flow, NestsFrom stage st s.wording (m st) →
      NestsFrom stage st s.wording (get >>= m) := fun _ hm => ⟨hm.steady, hm.ne_jump, hm.depth_eq⟩
  refine hget _ ?_
  dsimp only
  split
  next hempty =>
    refine .ofStays (.pure st) ?_
    have htext : Text.trim s.wording.text = [] := List.isEmpty_iff.1 hempty
    rw [Wording.isBracket, Wording.bare?, htext]
    rfl
  next hempty =>
    rw [if_neg (by rw [hplain.longMacro_eq]; exact Bool.false_ne_true),
      if_neg (by rw [hplain.skippedLoops_eq]; exact Nat.lt_irrefl 0)]
    split
    next d hd =>
      have hbare : s.wording.bare? = some (.branch d) := hd
      exact .ofBranch hbare _ _
    next hbare =>
      have hbracket : s.wording.isBracket = false := by
        cases hd : s.wording.bare? with
        | none => rw [Wording.isBracket, hd, Option.any_none]
        | some d =>
          rw [Wording.isBracket, hd]
          cases d with
          | branch d => exact absurd hd (hbare d)
          | _ => rfl
      have hlevel := Wording.level_of_isPlain hw hbracket
      split
      next hactive =>
        have hexpanded : s.expanded = true := by
          rcases hready with h | h | h | h
          · rw [hplain.longMacro_eq] at h
            cases h
          · exact absurd (hplain.skippedLoops_eq ▸ h) (Nat.lt_irrefl 0)
          · rw [h] at hactive
            cases hactive
          · exact h
        exact .ofStays (command_staysFrom hexpanded s.text s.column0 st hs rfl hlevel) hbracket
      next => exact .ofStays (.pure st) hbracket

theorem statement_nestsFrom (hplain : st.Plain) {file : Nat}
    (hw : st.store.wordingAt file pos = some w) (hwplain : w.isPlain = true) :
    NestsFrom stage st w (statement runFile file pos) := by
  obtain ⟨store, taken, s, hwordings, hs, rfl, hready, hrun⟩ :=
    statement_of_isEmpty runFile stage hplain.macros_empty hw
  have hlevel : Level st { st with store := store, asWritten := taken } :=
    ⟨⟨rfl, rfl, rfl, hwordings⟩, rfl⟩
  have hexecute : NestsFrom stage { st with store := store, asWritten := taken } s.wording
      (execute runFile file pos s.text s.column0) :=
    execute_nestsFrom (hplain.steady hlevel.toSteady) hs hready hwplain
  have hafter : stateAfter (statement runFile file pos stage) st =
      stateAfter (execute runFile file pos s.text s.column0 stage)
        { st with store := store, asWritten := taken } := by
    rw [stateAfter, hrun, stateAfter]
    rfl
  refine ⟨?_, fun target st'' => ?_, fun hopens => ?_⟩
  · rw [hafter]
    exact hlevel.toSteady.trans hexecute.steady
  · rw [hrun]
    exact hexecute.ne_jump target st''
  · rw [hafter]
    rw [hrun] at hopens
    exact hexecute.depth_eq hopens

end PassM

/-! ## Runs -/

variable {runFile : Option (Nat → PassM Bool)} {file : Nat} {stage : Stage}

/-- **The step**: a visit leaves the texts and the macros alone, goes on behind the statement if at
all, and takes the number of open blocks where the wording says. -/
theorem visit_nests (runFile : Option (Nat → PassM Bool)) (stage : Stage) {st : State}
    (hplain : st.Plain) {pos : Position} {w : Wording}
    (hw : st.store.wordingAt file pos = some w) (hwplain : w.isPlain = true) :
    let v := visit runFile file stage pos st
    Steady st v.after ∧ (∀ target ∈ v.target? stage.strict, target = pos.next) ∧
      ((w.opens = true → v.outcome.isOk = true) →
        v.after.conditionals.depth = w.nesting st.conditionals.depth) := by
  have hlocate : Steady st (st.locate file pos) := ⟨rfl, rfl, rfl, fun _ => rfl⟩
  have hnests : PassM.NestsFrom stage (st.locate file pos) w (PassM.statement runFile file pos) :=
    PassM.statement_nestsFrom (hplain.steady hlocate) hw hwplain
  have hsteady := hnests.steady
  have hjump := hnests.ne_jump
  have hdepth := hnests.depth_eq
  dsimp only
  unfold visit
  cases hrun : PassM.statement runFile file pos stage (st.locate file pos) with
  | ok flow st' =>
    rw [stateAfter_of_ok hrun] at hsteady hdepth
    refine ⟨hlocate.trans hsteady, fun target htarget => ?_, fun _ => ?_⟩
    · cases flow with
      | next =>
        cases htarget
        rfl
      | jump target' => exact absurd hrun (hjump target' st')
      | stop => cases htarget
    · exact hdepth fun _ => ⟨flow, st', hrun⟩
  | error fault st' =>
    rw [stateAfter_of_error hrun] at hsteady hdepth
    refine ⟨?_, fun target htarget => ?_, fun hopens => ?_⟩
    · dsimp only
      split
      · exact hlocate.trans hsteady
      · exact (hlocate.trans hsteady).trans ⟨rfl, rfl, rfl, fun _ => rfl⟩
    · dsimp only [Visit.target?] at htarget
      split at htarget
      · cases htarget
      · cases htarget
        rfl
    · have hopen : w.opens = true → ∃ flow st'', PassM.statement runFile file pos stage
          (st.locate file pos) = .ok flow st'' := fun h => nomatch hopens h
      dsimp only
      split
      · exact hdepth hopen
      · exact hdepth hopen

/-- Whether no statement of a run that is to open a block fails. -/
def opensAll (wordings : Array (List Wording)) (visits : List Visit) : Bool :=
  visits.all fun v => ((wordings[v.pos.line]?).bind (·[v.pos.statement]?)).all fun w =>
    !w.opens || v.outcome.isOk

/-- A run over a text without macros, loops, includes and brackets behind labels, in which no
statement fails that is to open a block. -/
structure PlainRun (wordings : Array (List Wording)) (runFile : Option (Nat → PassM Bool))
    (file : Nat) (stage : Stage) (steps : Nat) (pos : Position) (st : State) : Prop where
  source_plain : ∀ line ∈ wordings, ∀ w ∈ line, w.isPlain = true
  plain : st.Plain
  wordings_eq : st.store.wordings file = wordings
  opens : opensAll wordings (trail runFile file stage steps pos st) = true

/-- Where a visit is and how many blocks are open behind it. -/
def Visit.level (v : Visit) : Position × Nat :=
  (v.pos, v.after.conditionals.depth)

namespace PlainRun

variable {wordings : Array (List Wording)} {steps : Nat} {pos : Position} {st : State}

/-- At the end of a line, a run goes on with the next one. -/
theorem lineEnd (h : PlainRun wordings runFile file stage (steps + 1) pos st) {words : List Wording}
    (hline : wordings[pos.line]? = some words) (hend : words.length ≤ pos.statement) :
    trail runFile file stage (steps + 1) pos st =
        trail runFile file stage steps ⟨pos.line + 1, 0⟩ st ∧
      PlainRun wordings runFile file stage steps ⟨pos.line + 1, 0⟩ st := by
  have htrail := trail_succ runFile stage h.wordings_eq steps pos
  rw [hline] at htrail
  dsimp only at htrail
  rw [if_pos hend] at htrail
  exact ⟨htrail, h.source_plain, h.plain, h.wordings_eq, htrail ▸ h.opens⟩

/-- In front of a statement, a run visits it and goes on behind it, or ends. -/
theorem statement (h : PlainRun wordings runFile file stage (steps + 1) pos st)
    {words : List Wording} (hline : wordings[pos.line]? = some words)
    (hlt : pos.statement < words.length) :
    ∃ v rest, trail runFile file stage (steps + 1) pos st = v :: rest ∧
      v.level = (pos, (words.get ⟨pos.statement, hlt⟩).nesting st.conditionals.depth) ∧
      (rest = [] ∨ rest = trail runFile file stage steps pos.next v.after ∧
        PlainRun wordings runFile file stage steps pos.next v.after) := by
  have htrail := trail_succ runFile stage h.wordings_eq steps pos
  rw [hline] at htrail
  dsimp only at htrail
  rw [if_neg (Nat.not_le_of_lt hlt)] at htrail
  have hat : (wordings[pos.line]?).bind (·[pos.statement]?) =
      some (words.get ⟨pos.statement, hlt⟩) := by
    rw [hline, Option.bind_some]
    exact List.getElem?_eq_getElem hlt
  have hwplain : (words.get ⟨pos.statement, hlt⟩).isPlain = true :=
    h.source_plain words (Array.mem_of_getElem? hline) _ (List.get_mem words ⟨_, hlt⟩)
  generalize words.get ⟨pos.statement, hlt⟩ = w at hat hwplain ⊢
  have hw : st.store.wordingAt file pos = some w := by
    rw [SourceStore.wordingAt_eq, h.wordings_eq, hat]
  obtain ⟨hsteady, htarget, hnests⟩ := visit_nests runFile stage h.plain hw hwplain
  have hopens := h.opens
  rw [htrail, opensAll, List.all_cons, Bool.and_eq_true, visit_pos, hat, Option.all_some] at hopens
  refine ⟨_, _, htrail, ?_, ?_⟩
  · rw [Visit.level, visit_pos, hnests fun hopen => ?_]
    rw [hopen] at hopens
    exact hopens.1
  · cases hgo : (visit runFile file stage pos st).target? stage.strict with
    | none => exact .inl rfl
    | some target =>
      obtain rfl := htarget target hgo
      rw [hgo] at hopens
      exact .inr ⟨rfl, h.source_plain, h.plain.steady hsteady,
        (hsteady.wordings_eq file).trans h.wordings_eq, hopens.2⟩

end PlainRun

/-- **The run**: two runs over one text go through the same statements, as far as both go, and have
the same number of open blocks behind each of them. -/
theorem levels_comparable {wordings : Array (List Wording)}
    {runFile' : Option (Nat → PassM Bool)} {stage' : Stage} (steps : Nat) {pos : Position}
    {st st' : State} (h : PlainRun wordings runFile file stage steps pos st)
    (h' : PlainRun wordings runFile' file stage' steps pos st')
    (hdepth : st.conditionals.depth = st'.conditionals.depth) :
    (trail runFile file stage steps pos st).map Visit.level <+:
        (trail runFile' file stage' steps pos st').map Visit.level ∨
      (trail runFile' file stage' steps pos st').map Visit.level <+:
        (trail runFile file stage steps pos st).map Visit.level := by
  induction steps generalizing pos st st' with
  | zero => exact .inl (List.prefix_refl [])
  | succ steps ih =>
    cases hline : wordings[pos.line]? with
    | none =>
      have htrail := trail_succ runFile stage h.wordings_eq steps pos
      rw [hline] at htrail
      rw [htrail]
      exact .inl List.nil_prefix
    | some words =>
      by_cases hend : words.length ≤ pos.statement
      · obtain ⟨htrail, hrest⟩ := h.lineEnd hline hend
        obtain ⟨htrail', hrest'⟩ := h'.lineEnd hline hend
        rw [htrail, htrail']
        exact ih hrest hrest' hdepth
      · have hlt : pos.statement < words.length := Nat.lt_of_not_le hend
        obtain ⟨v, rest, htrail, hlevel, hrest⟩ := h.statement hline hlt
        obtain ⟨v', rest', htrail', hlevel', hrest'⟩ := h'.statement hline hlt
        have hsame : v.level = v'.level := by rw [hlevel, hlevel', hdepth]
        rw [htrail, htrail', List.map_cons, List.map_cons, hsame, List.cons_prefix_cons,
          List.cons_prefix_cons]
        rcases hrest with rfl | ⟨rfl, hrun⟩
        · exact .inl ⟨rfl, List.nil_prefix⟩
        rcases hrest' with rfl | ⟨rfl, hrun'⟩
        · exact .inr ⟨rfl, List.nil_prefix⟩
        have hdepth' : v.after.conditionals.depth = v'.after.conditionals.depth :=
          congrArg Prod.snd hsame
        rcases ih hrun hrun' hdepth' with hbegins | hbegins
        · exact .inl ⟨rfl, hbegins⟩
        · exact .inr ⟨rfl, hbegins⟩

/-- The number of open blocks that a run leaves behind is the one behind its last statement. -/
theorem depth_runFrom (steps : Nat) (pos : Position) (st : State) :
    (stateAfter (PassM.runFrom runFile file steps pos stage) st).conditionals.depth =
      (((trail runFile file stage steps pos st).map Visit.level).getLast?.map Prod.snd).getD
        st.conditionals.depth := by
  rw [stateAfter_runFrom, List.getLast?_map]
  cases (trail runFile file stage steps pos st).getLast? with
  | none => rfl
  | some v => rfl

/-- **Nesting shows in the text.**  Take two runs over one text without macros, loops and includes,
in which no opening or closing directive stands behind a label, from the same number of open blocks.
Whatever the conditions come to, as long as those of the opening directives do not fail, the two
runs go through the same statements and have the same number of open blocks behind each of them, up
to the end of the run that ends first.  If neither ends before the other, they leave the same number
of open blocks behind. -/
theorem PassM.nesting_independent_of_branches {wordings : Array (List Wording)}
    {runFile runFile' : Option (Nat → PassM Bool)} {file : Nat} {stage stage' : Stage}
    {steps : Nat} {pos : Position} {st st' : State}
    (hrun : PlainRun wordings runFile file stage steps pos st)
    (hrun' : PlainRun wordings runFile' file stage' steps pos st')
    (hdepth : st.conditionals.depth = st'.conditionals.depth) :
    let visits := trail runFile file stage steps pos st
    let visits' := trail runFile' file stage' steps pos st'
    (visits.map Visit.level <+: visits'.map Visit.level ∨
      visits'.map Visit.level <+: visits.map Visit.level) ∧
    (visits.length = visits'.length →
      (stateAfter (runFrom runFile file steps pos stage) st).conditionals.depth =
        (stateAfter (runFrom runFile' file steps pos stage') st').conditionals.depth) := by
  intro visits visits'
  have hcomparable : visits.map Visit.level <+: visits'.map Visit.level ∨
      visits'.map Visit.level <+: visits.map Visit.level := levels_comparable steps
        hrun hrun' hdepth
  refine ⟨hcomparable, fun hlength => ?_⟩
  have hlevels : (trail runFile file stage steps pos st).map Visit.level =
      (trail runFile' file stage' steps pos st').map Visit.level := by
    rcases hcomparable with hbegins | hbegins
    · refine List.IsPrefix.eq_of_length hbegins ?_
      rw [List.length_map, List.length_map, hlength]
    · refine (List.IsPrefix.eq_of_length hbegins ?_).symm
      rw [List.length_map, List.length_map, hlength]
  rw [depth_runFrom, depth_runFrom, hdepth, hlevels]

/-! ## Runs that differ in a condition -/

/-- A labels pass that knows nothing from a pass before. -/
def draftStage : Stage where
  kind := .draft
  strict := false
  maxSteps := 100
  table := .ofRows []
  previous := .empty false
  previousReusable := {}
  allocation := []

/-- The start of a pass over a text in which the label `a` is defined or not. -/
def startWith (text : String) (known : Bool) : State :=
  let st : State := .initial {} { files := #[.ofText "main".toList text.toList] } {}
  if known then stateAfter (PassM.defineConstant ['a'] 0 0 draftStage) st else st

/-- A check that a text is plain and runs without a failing condition. -/
def runsPlain (text : String) (known : Bool) : Bool :=
  let st := startWith text known
  let wordings := (SourceFile.ofText [] text.toList).wordings
  wordings.all (fun line => line.all Wording.isPlain) && st.macros.isEmpty &&
    st.longMacro.isNone && st.skippedLoops == 0 && st.store.wordings 0 == wordings &&
    opensAll wordings (trail none 0 draftStage 30 ⟨0, 0⟩ st)

theorem plainRun_of_runsPlain {text : String} {known : Bool} (h : runsPlain text known = true) :
    PlainRun (SourceFile.ofText [] text.toList).wordings none 0 draftStage 30 ⟨0, 0⟩
      (startWith text known) := by
  simp only [runsPlain, Bool.and_eq_true, Array.all_eq_true_iff_forall_mem, List.all_eq_true,
    Option.isNone_iff_eq_none, beq_iff_eq] at h
  obtain ⟨⟨⟨⟨⟨hsource, hmacros⟩, hlong⟩, hskipped⟩, hwordings⟩, hopens⟩ := h
  exact ⟨hsource, ⟨hmacros, hlong, hskipped⟩, hwordings, hopens⟩

/-- Two chains, one inside of the other, with a label in a branch. -/
def chainInChain : String :=
  " .ifdef a\n .if 1\n .db 1\n .else\n .db 2\n .endif\n .else\nx: .db 3\n .endif\n .db 4\n"

theorem PassM.nesting_independent_of_branches_chainInChain :
    let known := trail none 0 draftStage 30 ⟨0, 0⟩ (startWith chainInChain true)
    let unknown := trail none 0 draftStage 30 ⟨0, 0⟩ (startWith chainInChain false)
    known[2]?.map (·.after.conditionals.active) = some true ∧
      unknown[2]?.map (·.after.conditionals.active) = some false ∧
      (known.map Visit.level <+: unknown.map Visit.level ∨
        unknown.map Visit.level <+: known.map Visit.level) := by
  have hknown : runsPlain chainInChain true = true := by decide +kernel
  have hunknown : runsPlain chainInChain false = true := by decide +kernel
  refine ⟨by decide +kernel, by decide +kernel, ?_⟩
  exact (nesting_independent_of_branches (plainRun_of_runsPlain hknown)
    (plainRun_of_runsPlain hunknown) (by decide +kernel)).1

/-- A block behind a label, inside of another block. -/
def blockBehindLabel : String :=
  " .ifdef a\nx: .if 1\n .endif\n .endif\n"

/-- **An opening directive behind a label is not seen in a branch that is passed over**, so the
numbers of open blocks depend on the condition. -/
theorem PassM.nesting_depends_on_branches_blockBehindLabel :
    let wordings := (SourceFile.ofText [] blockBehindLabel.toList).wordings
    let known := trail none 0 draftStage 30 ⟨0, 0⟩ (startWith blockBehindLabel true)
    let unknown := trail none 0 draftStage 30 ⟨0, 0⟩ (startWith blockBehindLabel false)
    (∀ line ∈ wordings, ∀ w ∈ line, w.isLinear = true) ∧
      (startWith blockBehindLabel true).store.wordings 0 = wordings ∧
      (startWith blockBehindLabel false).store.wordings 0 = wordings ∧
      opensAll wordings known = true ∧ opensAll wordings unknown = true ∧
      known.map Visit.level = [(⟨0, 0⟩, 1), (⟨1, 0⟩, 2), (⟨2, 0⟩, 1), (⟨3, 0⟩, 0)] ∧
      unknown.map Visit.level = [(⟨0, 0⟩, 1), (⟨1, 0⟩, 1), (⟨2, 0⟩, 0), (⟨3, 0⟩, 0)] := by
  decide +kernel

end MacroAssembler
