import MacroAssembler.Proofs.Change

/-!
# Failures are reported

A statement that fails may leave changes behind that no other statement makes.  The run goes on
behind it, but not before its fault has been reported as an error, and an assembly with errors has
no output.  So what every other change keeps holds at the end of a successful assembly, although not
every change keeps it.

An `Advance` is what a run makes of that: a change of a statement that does not fail, or a failure
together with its report.  A computation `Advances` if it consists of these as long as it succeeds.
-/

namespace MacroAssembler

open Relation

variable {stage : Stage} {failing : Prop} {α β : Type}
variable {m : PassM α} {st st' : State}

theorem Performs.change (h : Performs (Act stage failing) stage m) :
    Performs (Change stage failing) stage m :=
  h.mono fun _ _ => .act

theorem Performs.quiet (h : Performs (Act stage failing) stage m) :
    Performs (Quiet stage failing) stage m :=
  h.mono fun _ _ => .act

theorem PerformsFrom.ofQuiet {st : State} (h : PerformsFrom (Quiet stage failing) stage st m) :
    PerformsFrom (Change stage failing) stage st m :=
  h.mono fun _ _ => Quiet.change

theorem Performs.ofQuiet (h : Performs (Quiet stage failing) stage m) :
    Performs (Change stage failing) stage m :=
  h.mono fun _ _ => Quiet.change

/-- Acts before a part of a statement leave the sources as they were. -/
theorem Performs.store_eq (h : Performs (Act stage failing) stage m) {a : α}
    (hrun : m stage st = .ok a st') : st'.store = st.store := by
  have hsteps := h st
  rw [PerformsFrom, LeadsFrom, stateAfter_of_ok hrun] at hsteps
  exact store_eq_of_acts hsteps

/-- Acts before a part of a statement leave the course as it was. -/
theorem Performs.course_eq (h : Performs (Act stage failing) stage m) {a : α}
    (hrun : m stage st = .ok a st') : st'.course = st.course := by
  have hsteps := h st
  rw [PerformsFrom, LeadsFrom, stateAfter_of_ok hrun] at hsteps
  exact course_eq_of_acts hsteps

/-! ## Errors are counted -/

namespace Diagnostics

theorem errorCount_le_report (ds : Diagnostics) (d : Diagnostic) :
    ds.errorCount ≤ (ds.report d).2.errorCount := by
  rw [report]
  split
  · exact Nat.le_refl _
  · rw [errorCount, errorCount, count, count, Array.countP_push]
    exact Nat.le_add_right _ _

/-- After the report of an error there is one, whether or not it was reported before. -/
theorem errorCount_report_ne_zero (ds : Diagnostics) {d : Diagnostic} (hd : d.severity = .error) :
    (ds.report d).2.errorCount ≠ 0 := by
  rw [report]
  split
  next hsame =>
    obtain ⟨e, hmem, he⟩ := Array.any_eq_true'.1 hsame
    rw [Diagnostic.same, Bool.and_eq_true, Bool.and_eq_true, Bool.and_eq_true, beq_iff_eq] at he
    refine Nat.ne_of_gt (Array.countP_pos_iff.2 ⟨e, hmem, ?_⟩)
    rw [← he.1.1.1, hd]
    rfl
  next =>
    rw [errorCount, count, Array.countP_push, hd]
    exact Nat.succ_ne_zero _

end Diagnostics

/-- No change takes an error back. -/
theorem Change.errorCount_le (h : Change stage failing st st') :
    st.diagnostics.errorCount ≤ st'.diagnostics.errorCount := by
  cases h with
  | act h =>
    cases h with
    | control h =>
      have hdiagnostics : st'.diagnostics = st.diagnostics := congrArg Tracked.diagnostics h
      exact Nat.le_of_eq (congrArg Diagnostics.errorCount hdiagnostics.symm)
    | report severity message => exact Diagnostics.errorCount_le_report _ _
    | _ => exact Nat.le_refl _
  | _ => exact Nat.le_refl _

theorem errorCount_le_of_steps (h : ReflTransGen (Change stage failing) st st') :
    st.diagnostics.errorCount ≤ st'.diagnostics.errorCount :=
  keeps_of_steps (P := fun s => st.diagnostics.errorCount ≤ s.diagnostics.errorCount)
    (fun _ _ hstep hle => Nat.le_trans hle hstep.errorCount_le) h (Nat.le_refl _)

/-! ## Advances -/

/-- A step of a run that goes on: a change by a statement that does not fail, or a failure and its
report. -/
inductive Advance (stage : Stage) : State → State → Prop
  | change {st st' : State} (h : Change stage False st st') : Advance stage st st'
  | recovered {st st' : State} (h : ReflTransGen (Change stage True) st st') (message : String) :
      Advance stage st (st'.report .error message)

theorem changes_of_advances (h : ReflTransGen (Advance stage) st st') :
    ReflTransGen (Change stage True) st st' := by
  induction h with
  | refl => exact .refl
  | tail _ hstep ih =>
    cases hstep with
    | change h => exact ih.tail (h.mono False.elim)
    | recovered h message => exact (ih.trans h).tail (.act (.report _ _ _))

/-- **What is kept unless a statement fails is kept unless there are errors.** -/
theorem keeps_of_advances {P : State → Prop}
    (hstep : ∀ st st', Change stage False st st' → P st → P st')
    (h : ReflTransGen (Advance stage) st st') (hst : P st) :
    st'.diagnostics.errorCount ≠ 0 ∨ P st' := by
  induction h with
  | refl => exact .inr hst
  | tail _ hlast ih =>
    cases hlast with
    | change h =>
      rcases ih with herrors | hP
      · have hle := h.errorCount_le
        exact .inl (Nat.ne_of_gt (Nat.lt_of_lt_of_le (Nat.pos_of_ne_zero herrors) hle))
      · exact .inr (hstep _ _ h hP)
    | recovered h message => exact .inl (Diagnostics.errorCount_report_ne_zero _ rfl)

/-- A result that a run comes to from a state: it has advanced, or it fails. -/
def Reaches (stage : Stage) (st : State) : EStateM.Result Fault State α → Prop
  | .ok _ st' => ReflTransGen (Advance stage) st st'
  | .error _ st' => ReflTransGen (Change stage True) st st'

theorem Reaches.trans {result : EStateM.Result Fault State α}
    (h : ReflTransGen (Advance stage) st st')
    (h' : Reaches stage st' result) : Reaches stage st result := by
  cases result with
  | ok a st'' => exact ReflTransGen.trans h h'
  | error fault st'' => exact (changes_of_advances h).trans h'

/-- From a state, a computation advances. -/
def AdvancesFrom (stage : Stage) (st : State) (m : PassM α) : Prop :=
  Reaches stage st (m stage st)

theorem AdvancesFrom.steps {a : α} (h : AdvancesFrom stage st m) (hrun : m stage st = .ok a st') :
    ReflTransGen (Change stage True) st st' := by
  rw [AdvancesFrom, hrun] at h
  exact changes_of_advances h

/-- A computation advances from every state. -/
def Advances (stage : Stage) (m : PassM α) : Prop :=
  ∀ st, AdvancesFrom stage st m

namespace AdvancesFrom

variable {st : State}

theorem bind {m : PassM α} {f : α → PassM β} (hm : AdvancesFrom stage st m)
    (hf : ∀ a st', m stage st = .ok a st' → AdvancesFrom stage st' (f a)) :
    AdvancesFrom stage st (m >>= f) := by
  unfold AdvancesFrom at hm ⊢
  cases hrun : m stage st with
  | ok a st' =>
    rw [hrun] at hm
    rw [PassM.bind_of_ok hrun]
    exact Reaches.trans hm (hf a st' hrun)
  | error fault st' =>
    rw [hrun] at hm
    rw [PassM.bind_of_error hrun]
    exact hm

theorem get_bind {f : State → PassM α} (h : AdvancesFrom stage st (f st)) :
    AdvancesFrom stage st (MonadState.get >>= f) :=
  h

theorem read_bind {f : Stage → PassM α} (h : AdvancesFrom stage st (f stage)) :
    AdvancesFrom stage st (read >>= f) :=
  h

/-- A computation that is observed advances if what follows a failure makes up for it. -/
theorem observe_bind {m : PassM α} {f : Except Fault α → PassM β} (hm : AdvancesFrom stage st m)
    (hok : ∀ a st', AdvancesFrom stage st' (f (.ok a)))
    (herror : ∀ fault st', ReflTransGen (Change stage True) st st' →
      Reaches stage st (f (.error fault) stage st')) :
    AdvancesFrom stage st (PassM.observe m >>= f) := by
  unfold AdvancesFrom at hm ⊢
  cases hrun : m stage st with
  | ok a st' =>
    rw [hrun] at hm
    rw [PassM.bind_of_ok (PassM.observe_of_ok hrun)]
    exact Reaches.trans hm (hok a st')
  | error fault st' =>
    rw [hrun] at hm
    rw [PassM.bind_of_ok (PassM.observe_of_error hrun)]
    exact herror fault st' hm

end AdvancesFrom

/-- From a state, a computation consists of acts.  It makes those of a failing statement only if it
fails. -/
def ActsFrom (stage : Stage) (st : State) (m : PassM α) : Prop :=
  match m stage st with
  | .ok _ st' => ReflTransGen (Act stage False) st st'
  | .error _ st' => ReflTransGen (Act stage True) st st'

theorem ActsFrom.advances {st : State} (h : ActsFrom stage st m) : AdvancesFrom stage st m := by
  unfold ActsFrom at h
  unfold AdvancesFrom
  cases hrun : m stage st with
  | ok a st' =>
    rw [hrun] at h
    exact ReflTransGen.mono (fun _ _ hact => .change (.act hact)) _ _ h
  | error fault st' =>
    rw [hrun] at h
    exact ReflTransGen.mono (fun _ _ => .act) _ _ h

theorem ActsFrom.store_eq {a : α} (h : ActsFrom stage st m) (hrun : m stage st = .ok a st') :
    st'.store = st.store := by
  rw [ActsFrom, hrun] at h
  exact store_eq_of_acts h

theorem ActsFrom.course_eq {a : α} (h : ActsFrom stage st m) (hrun : m stage st = .ok a st') :
    st'.course = st.course := by
  rw [ActsFrom, hrun] at h
  exact course_eq_of_acts h

theorem PerformsFrom.advances {st : State} (h : PerformsFrom (Change stage False) stage st m) :
    AdvancesFrom stage st m := by
  unfold PerformsFrom LeadsFrom stateAfter at h
  unfold AdvancesFrom
  cases hrun : m stage st with
  | ok a st' =>
    rw [hrun] at h
    exact ReflTransGen.mono (fun _ _ => Advance.change) _ _ h
  | error fault st' =>
    rw [hrun] at h
    exact ReflTransGen.mono (fun _ _ hstep => hstep.mono False.elim) _ _ h

theorem Performs.advances (h : Performs (Change stage False) stage m) : Advances stage m :=
  fun st => (h st).advances

/-- A computation consists of acts, from every state. -/
def Acts (stage : Stage) (m : PassM α) : Prop :=
  ∀ st, ActsFrom stage st m

namespace Acts

theorem advances {m : PassM α} (h : Acts stage m) : Advances stage m :=
  fun st => (h st).advances

theorem performs {m : PassM α} (h : Acts stage m) : Performs (Act stage True) stage m := by
  intro st
  have hst := h st
  unfold ActsFrom at hst
  unfold PerformsFrom LeadsFrom stateAfter
  cases hrun : m stage st with
  | ok a st' =>
    rw [hrun] at hst
    exact ReflTransGen.mono (fun _ _ hact => hact.mono False.elim) _ _ hst
  | error fault st' =>
    rw [hrun] at hst
    exact hst

theorem ofPerforms {m : PassM α} (h : Performs (Act stage False) stage m) : Acts stage m := by
  intro st
  have hst := h st
  unfold PerformsFrom LeadsFrom stateAfter at hst
  unfold ActsFrom
  cases hrun : m stage st with
  | ok a st' =>
    rw [hrun] at hst
    exact hst
  | error fault st' =>
    rw [hrun] at hst
    exact ReflTransGen.mono (fun _ _ hact => hact.mono False.elim) _ _ hst

theorem bind {m : PassM α} {f : α → PassM β} (hm : Acts stage m) (hf : ∀ a, Acts stage (f a)) :
    Acts stage (m >>= f) := by
  intro st
  have hst := hm st
  unfold ActsFrom at hst ⊢
  cases hrun : m stage st with
  | ok a st' =>
    rw [hrun] at hst
    rw [PassM.bind_of_ok hrun]
    have hrest := hf a st'
    unfold ActsFrom at hrest
    cases hrun' : f a stage st' with
    | ok b st'' =>
      rw [hrun'] at hrest
      exact hst.trans hrest
    | error fault st'' =>
      rw [hrun'] at hrest
      exact (ReflTransGen.mono (fun _ _ hact => hact.mono False.elim) _ _ hst).trans hrest
  | error fault st' =>
    rw [hrun] at hst
    rw [PassM.bind_of_error hrun]
    exact hst

theorem get_bind {f : State → PassM α} (h : ∀ st, ActsFrom stage st (f st)) :
    Acts stage (MonadState.get >>= f) :=
  h

/-- A check that stops the statement, and what comes after it. -/
theorem check_bind {c : Prop} [Decidable c] {cause : DirectiveError} {f : PUnit → PassM α}
    (hf : ¬c → Acts stage (f ⟨⟩)) :
    Acts stage (if c then PassM.misuse cause >>= f else f ⟨⟩) := by
  split
  · exact fun st => (ReflTransGen.refl : ReflTransGen (Act stage True) st st)
  · exact hf ‹_›

end Acts

theorem Advances.bind {f : α → PassM β} (hm : Advances stage m) (hf : ∀ a, Advances stage (f a)) :
    Advances stage (m >>= f) :=
  fun st => (hm st).bind fun a st' _ => hf a st'

/-- A computation that advances consists of changes, however it ends. -/
theorem Advances.performs (h : Advances stage m) : Performs (Change stage True) stage m := by
  intro st
  have hst := h st
  unfold AdvancesFrom at hst
  unfold PerformsFrom LeadsFrom stateAfter
  cases hrun : m stage st with
  | ok a st' =>
    rw [hrun] at hst
    exact changes_of_advances hst
  | error fault st' =>
    rw [hrun] at hst
    exact hst

end MacroAssembler
