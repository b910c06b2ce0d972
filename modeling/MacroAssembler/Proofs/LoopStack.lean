import MacroAssembler.Proofs.Nesting

/-!
# The stack of open loops

A statement does at most one thing to the stack of open loops: it opens a loop that resumes behind
the statement, closes the innermost one, or begins its next round.  A `LoopStep` is one of these,
together with the jump that the statement makes.  Only a statement that begins a round jumps, and it
jumps to where that loop resumes.

This holds of all statements but those that include a file, whatever their labels, and also of those
that fail.
-/

namespace MacroAssembler

open Relation

/-- What a statement in front of `resume` does to the open loops, the innermost first, and where it
jumps, if it does. -/
inductive LoopStep (file : Nat) (resume : Position) :
    List OpenLoop → Option Position → List OpenLoop → Prop
  | kept (loops : List OpenLoop) : LoopStep file resume loops none loops
  | opened (loops : List OpenLoop) (kind : LoopKind) :
      LoopStep file resume loops none ({ file := file, resume := resume, kind := kind } :: loops)
  | closed (inner : OpenLoop) (outer : List OpenLoop) :
      LoopStep file resume (inner :: outer) none outer
  /-- A round begins.  There is no jump if the statement fails. -/
  | repeated {inner : OpenLoop} (outer : List OpenLoop) {jump : Option Position} (kind : LoopKind)
      (hfile : inner.file = file) (hrounds : inner.iterations < maxIterations)
      (hjump : ∀ target ∈ jump, target = inner.resume) :
      LoopStep file resume (inner :: outer) jump
        ({ inner with kind := kind, iterations := inner.iterations + 1 } :: outer)

/-- Where a statement jumps, if it does. -/
def Flow.jump? : Flow → Option Position
  | .jump target => some target
  | .next | .stop => none

/-- A result of a statement in front of `resume` that has done at most one thing to the open
loops. -/
def LoopsTo (file : Nat) (resume : Position) (loops : List OpenLoop) :
    EStateM.Result Fault State Flow → Prop
  | .ok flow st' => LoopStep file resume loops flow.jump? st'.loops
  | .error _ st' => LoopStep file resume loops none st'.loops

/-- From a state, a statement in front of `resume` does at most one thing to the open loops. -/
def LoopsFrom (file : Nat) (resume : Position) (stage : Stage) (st : State)
    (m : PassM Flow) : Prop :=
  LoopsTo file resume st.loops (m stage st)

namespace LoopsFrom

variable {file : Nat} {resume : Position} {stage : Stage} {st : State} {α : Type}

theorem pure {flow : Flow} (h : flow.jump? = none) :
    LoopsFrom file resume stage st (Pure.pure flow) := by
  have hkept : LoopStep file resume st.loops flow.jump? st.loops := h ▸ .kept st.loops
  exact hkept

theorem misuse (cause : DirectiveError) : LoopsFrom file resume stage st (PassM.misuse cause) :=
  .kept st.loops

/-- What follows a part that leaves the loops alone. -/
theorem bind {m : PassM α} {f : α → PassM Flow} (hm : (stateAfter (m stage) st).loops = st.loops)
    (hf : ∀ a st', m stage st = .ok a st' → LoopsFrom file resume stage st' (f a)) :
    LoopsFrom file resume stage st (m >>= f) := by
  cases hrun : m stage st with
  | ok a st' =>
    have hrest := hf a st' hrun
    rw [stateAfter_of_ok hrun] at hm
    rw [LoopsFrom, hm] at hrest
    rw [LoopsFrom, PassM.bind_of_ok hrun]
    exact hrest
  | error fault st' =>
    rw [stateAfter_of_error hrun] at hm
    rw [LoopsFrom, PassM.bind_of_error hrun, LoopsTo, hm]
    exact .kept st.loops

/-- A jump behind a part that leaves the loops alone, and that may fail. -/
theorem jump {m : PassM Unit} {loops : List OpenLoop} {target : Position}
    (hm : (stateAfter (m stage) st).loops = st.loops)
    (h : ∀ jump, (∀ target' ∈ jump, target' = target) →
      LoopStep file resume loops jump st.loops) :
    LoopsTo file resume loops ((do m; return Flow.jump target : PassM Flow) stage st) := by
  cases hrun : m stage st with
  | ok u st' =>
    rw [stateAfter_of_ok hrun] at hm
    have hstep := h (some target) fun _ h => (Option.mem_some.1 h).symm
    rw [← hm] at hstep
    rw [PassM.bind_of_ok hrun]
    exact hstep
  | error fault st' =>
    rw [stateAfter_of_error hrun] at hm
    have hstep := h none fun _ h => nomatch h
    rw [PassM.bind_of_error hrun, LoopsTo, hm]
    exact hstep

theorem next {m : PassM Unit} (hm : (stateAfter (m stage) st).loops = st.loops) :
    LoopsFrom file resume stage st (do m; return Flow.next) :=
  bind hm fun _ _ _ => pure rfl

end LoopsFrom

section

variable {α : Type} {stage : Stage} {st : State} {failing : Prop}

theorem Performs.loops_eq {m : PassM α} (h : Performs (Act stage failing) stage m) (st : State) :
    (stateAfter (m stage) st).loops = st.loops :=
  congrArg Course.loops (course_eq_of_acts (h st))

theorem PerformsFrom.loops_eq {m : PassM α} (h : PerformsFrom (Quiet stage failing) stage st m) :
    (stateAfter (m stage) st).loops = st.loops :=
  keeps_of_steps (P := fun st' => st'.loops = st.loops)
    (fun _ _ hstep hst => (congrArg Course.loops hstep.course_eq).trans hst) h rfl

end

/-! ## Directives on loops -/

namespace FlowDirective

variable {file : Nat} {resume : Position} {stage : Stage} {st : State}

theorem beginCount_loopsFrom (counter startArg limitArg : Text) (stepArg : Option Text) :
    LoopsFrom file resume stage st (beginCount file resume counter startArg limitArg stepArg) := by
  have hacts : ∀ {α : Type} {m : PassM α} {f : α → PassM Flow} {st : State},
      Serves (Act stage False) stage m → (∀ a st', LoopsFrom file resume stage st' (f a)) →
        LoopsFrom file resume stage st (m >>= f) :=
    fun hm hf => .bind (hm.performs.loops_eq _) fun a st' _ => hf a st'
  have hrest : ∀ (start limit step : Float) (st : State), LoopsFrom file resume stage st
      (if step == 0 then PassM.misuse .zeroStep
      else do
        setCounter counter start
        if startsBeyond start limit step then skipBody
        else openLoop ⟨file, resume, .counting counter start limit step, 0⟩) := by
    intro start limit step st
    refine iteInduction (fun _ => .misuse _) fun _ => ?_
    refine hacts (setCounter_serves counter start) fun _ st' => ?_
    refine iteInduction (fun _ => ?_) fun _ => ?_
    · exact LoopStep.kept st'.loops
    · exact LoopStep.opened st'.loops _
  refine hacts (.ofExcept _ _) fun _ _ => ?_
  refine hacts (PassM.eval_serves startArg).act fun start _ => ?_
  refine hacts (PassM.eval_serves limitArg).act fun limit st₃ => ?_
  cases stepArg with
  | some arg => exact hacts (PassM.eval_serves arg).act fun step st₄ => hrest start limit step st₄
  | none => exact hrest start limit _ st₃

theorem beginRepeat_loopsFrom (countArg : Text) :
    LoopsFrom file resume stage st (beginRepeat file resume countArg) := by
  have hcount : Performs (Act stage False) stage (PassM.evalInt countArg) :=
    (PassM.evalInt_serves countArg).act.performs
  refine .bind (hcount.loops_eq st) fun count st' _ => ?_
  refine iteInduction (fun _ => ?_) fun _ => ?_
  · exact LoopStep.kept st'.loops
  · exact LoopStep.opened st'.loops _

theorem endBody_loopsFrom : LoopsFrom file resume stage st (endBody file) := by
  have hget : ∀ m : State → PassM Flow, LoopsFrom file resume stage st (m st) →
      LoopsFrom file resume stage st (get >>= m) := fun _ hm => hm
  refine hget _ ?_
  cases hloops : st.loops with
  | nil => exact .misuse _
  | cons inner outer =>
    have hgiveUp : ∀ cause, LoopsFrom file resume stage st (do
        modify fun st => { st with loops := outer }
        PassM.misuse cause : PassM Flow) := by
      intro cause
      have hclosed : LoopStep file resume st.loops none outer := hloops ▸ .closed inner outer
      exact hclosed
    have hleave : LoopsFrom file resume stage st (do
        modify fun st => { st with loops := outer }
        PassM.record .left
        return Flow.next) := by
      have hclosed : LoopStep file resume st.loops none outer := hloops ▸ .closed inner outer
      exact hclosed
    dsimp only
    refine iteInduction (fun _ => hgiveUp _) fun hfile => ?_
    refine iteInduction (fun _ => hgiveUp _) fun hrounds => ?_
    have hfile := Decidable.of_not_not hfile
    have hrounds := Nat.lt_of_not_le hrounds
    have hround : ∀ kind : LoopKind, ∀ jump, (∀ target ∈ jump, target = inner.resume) →
        LoopStep file resume st.loops jump
          ({ inner with kind := kind, iterations := inner.iterations + 1 } :: outer) :=
      fun kind _ hjump => hloops ▸ .repeated outer kind hfile hrounds hjump
    split
    · refine iteInduction (fun _ => ?_) fun _ => hleave
      exact hround _ (some inner.resume) fun _ h => (Option.mem_some.1 h).symm
    · next name value limit step _ =>
      refine iteInduction (fun _ => ?_) fun _ => hleave
      -- if the counter cannot be set, the round is counted although there is no jump
      let kind : LoopKind := .counting name (value + step) limit step
      let st₁ : State := { st with
        loops := { inner with kind := kind, iterations := inner.iterations + 1 } :: outer }
      have hset : Performs (Act stage False) stage (setCounter name (value + step)) :=
        (setCounter_serves name _).performs
      exact LoopsFrom.jump (hset.loops_eq st₁) (hround kind)

theorem run_loopsFrom (d : FlowDirective) (name rest : Text) :
    LoopsFrom file resume stage st (d.run file resume name rest) := by
  unfold run
  dsimp only
  split
  · exact beginCount_loopsFrom _ _ _ _
  · exact beginCount_loopsFrom _ _ _ _
  · exact .misuse _
  · exact beginRepeat_loopsFrom _
  · exact .misuse _
  · exact endBody_loopsFrom
  · exact .pure rfl

end FlowDirective

/-! ## Statements -/

namespace PassM

variable {runFile : Option (Nat → PassM Bool)} {file : Nat} {pos : Position} {stage : Stage}
  {st : State}

theorem branch_loopsFrom (d : BranchDirective) (name rest : Text) :
    LoopsFrom file pos.next stage st (do d.run name rest; return Flow.next) := by
  obtain ⟨st', hcourse, -, hafter⟩ := d.stateAfter_run stage st name rest
  refine .next ?_
  rw [hafter]
  exact congrArg Course.loops hcourse

theorem directive_loopsFrom {d : Directive} (hd : d ≠ .includeFile) (name rest : Text) :
    LoopsFrom file pos.next stage st (directive runFile file pos d name rest) := by
  rcases directive_cases stage file pos d name rest with
    ⟨m, hm, hquiet⟩ | rfl | ⟨d, rfl⟩ | ⟨d, rfl⟩ | ⟨d, rfl⟩
  · rw [hm]
    exact .next (hquiet st).loops_eq
  · exact absurd rfl hd
  · exact branch_loopsFrom d name rest
  · have hmacros : Performs (fun st st' => st'.loops = st.loops) stage (d.run name rest) :=
      (d.run_serves (fun _ _ _ => rfl) name rest).performs
    refine .next (keeps_of_steps (P := fun st' => st'.loops = st.loops) ?_ (hmacros st) rfl)
    exact fun _ _ hstep hst => hstep.trans hst
  · exact d.run_loopsFrom name rest

theorem command_loopsFrom {s : Statement} (hexpanded : s.expanded = true)
    (hs : st.store.statementAt file pos = some s)
    (hinclude : directiveOf s.text s.column0 ≠ some .includeFile) :
    LoopsFrom file pos.next stage st (command runFile file pos s.text s.column0) := by
  refine command_induction hexpanded (fun _ _ hm => hm) (fun _ => .pure rfl)
    (fun st _ => LoopStep.kept st.loops) (fun st _ _ hm hf => .bind (hm.loops_eq st) hf)
    (fun _ _ hm => .next hm.loops_eq) s.text s.column0 (fun st d name rest hd => ?_) st hs rfl
  rw [hd] at hinclude
  exact directive_loopsFrom (fun h => hinclude (congrArg some h)) name rest

/-- A statement is executed that includes a file. -/
def executesInclude (st : State) (s : Statement) : Bool :=
  st.longMacro.isNone && st.skippedLoops == 0 && st.conditionals.active &&
    directiveOf s.text s.column0 == some .includeFile

theorem execute_loopsFrom {s : Statement} (hs : st.store.statementAt file pos = some s)
    (hready : Ready st s) (hinclude : executesInclude st s = false) :
    LoopsFrom file pos.next stage st (execute runFile file pos s.text s.column0) := by
  have hget : ∀ m : State → PassM Flow, LoopsFrom file pos.next stage st (m st) →
      LoopsFrom file pos.next stage st (get >>= m) := fun _ hm => hm
  have hpass : ∀ st' : State, st'.loops = st.loops →
      LoopsFrom file pos.next stage st (do set st'; return Flow.next) := fun _ h => .next h
  refine hget _ ?_
  dsimp only
  refine iteInduction (fun _ => .pure rfl) fun hempty => ?_
  refine iteInduction (fun _ => hpass _ ?_) fun hlong => ?_
  · unfold State.collect
    split
    · rfl
    · split
      · rfl
      · rfl
  refine iteInduction (fun _ => hpass _ ?_) fun hloops => ?_
  · unfold State.skip
    split
    all_goals rfl
  split
  next d hd => exact branch_loopsFrom d _ _
  next =>
    refine iteInduction (fun hactive => ?_) fun _ => .pure rfl
    have hlong : st.longMacro.isNone = true := by
      rw [← Option.not_isSome]
      exact Bool.not_eq_true' _ ▸ Bool.eq_false_iff.2 hlong
    have hskipped : st.skippedLoops = 0 := Nat.eq_zero_of_not_pos hloops
    have hexpanded : s.expanded = true := by
      rcases hready with h | h | h | h
      · rw [Option.isNone_iff_eq_none.1 hlong] at h
        cases h
      · exact absurd h hloops
      · rw [h] at hactive
        cases hactive
      · exact h
    refine command_loopsFrom hexpanded hs fun h => ?_
    rw [executesInclude, hlong, hskipped, hactive, h] at hinclude
    cases hinclude

theorem loops_reach (file : Nat) (pos : Position) (stage : Stage) (st : State) :
    (stateAfter (reach file pos stage) st).loops = st.loops := by
  have hexpand : (stateAfter (expandStatement file pos stage) st).loops = st.loops := by
    rw [stateAfter, expandStatement_apply]
    cases unexpanded st file pos with
    | none => rfl
    | some s =>
      have htext : Performs (Act stage False) stage _ := expandedText_performs s
      have hreplace : ∀ text st', PerformsFrom (fun st st' => st'.loops = st.loops) stage st'
          (replaceStatement file pos s text) := by
        intro text st'
        unfold replaceStatement
        split
        · exact ReflTransGen.single rfl
        · exact ReflTransGen.single rfl
      have hsteps := PerformsFrom.bind
        ((htext st).mono fun _ _ hact => congrArg Course.loops hact.course_eq)
        fun text st' _ => hreplace text st'
      exact keeps_of_steps (P := fun st' => st'.loops = st.loops)
        (fun _ _ hstep hst => hstep.trans hst) hsteps rfl
  rw [stateAfter] at hexpand ⊢
  rw [reach_apply]
  split at hexpand
  next heq =>
    rw [heq]
    exact hexpand
  next heq =>
    rw [heq]
    exact hexpand

end PassM

/-- The statement at a position is executed and includes a file. -/
def includesAt (file : Nat) (stage : Stage) (pos : Position) (st : State) : Bool :=
  match PassM.reach file pos stage (st.locate file pos) with
  | .ok (some s) st' => PassM.executesInclude st' s
  | _ => false

/-- Where a visit jumps, if it does. -/
def Visit.jump? (v : Visit) : Option Position :=
  match v.outcome with
  | .ok flow => flow.jump?
  | .error _ => none

/-- A run goes on where a visit jumps, or else at the next statement. -/
theorem Visit.target_eq {v : Visit} {strict : Bool} {target : Position}
    (h : v.target? strict = some target) : target = v.jump?.getD v.pos.next := by
  rw [Visit.target?] at h
  rw [Visit.jump?]
  cases houtcome : v.outcome with
  | ok flow =>
    rw [houtcome] at h
    cases flow with
    | next => exact (Option.some.inj h).symm
    | jump target' => exact (Option.some.inj h).symm
    | stop => cases h
  | error fault =>
    rw [houtcome] at h
    dsimp only at h
    split at h
    · cases h
    · exact (Option.some.inj h).symm

/-- **A visit does at most one thing to the open loops**, unless it includes a file. -/
theorem visit_loopStep (runFile : Option (Nat → PassM Bool)) {file : Nat} {stage : Stage}
    {pos : Position} {st : State} (h : includesAt file stage pos st = false) :
    LoopStep file pos.next st.loops (visit runFile file stage pos st).jump?
      (visit runFile file stage pos st).after.loops := by
  have hstatement : LoopsFrom file pos.next stage (st.locate file pos)
      (PassM.statement runFile file pos) := by
    refine .bind (PassM.loops_reach file pos stage _) fun s st' hreach => ?_
    cases s with
    | none => exact .pure rfl
    | some s =>
      rw [includesAt, hreach] at h
      obtain ⟨st₀, hexpand, hs, rfl⟩ := PassM.expandStatement_of_reach hreach
      exact PassM.execute_loopsFrom hs.symm
        ((PassM.ready_of_expandStatement hexpand hs.symm).executing file pos) h
  unfold visit
  rw [LoopsFrom] at hstatement
  cases hrun : PassM.statement runFile file pos stage (st.locate file pos) with
  | ok flow st' =>
    rw [hrun] at hstatement
    exact hstatement
  | error fault st' =>
    rw [hrun] at hstatement
    dsimp only
    split
    · exact hstatement
    · exact hstatement

end MacroAssembler
