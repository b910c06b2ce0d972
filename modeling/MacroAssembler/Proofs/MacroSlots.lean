import MacroAssembler.Proofs.Directive

/-!
# Macro slots

A macro may ask for an argument of a certain value.  To find out whether an argument has it, the
expansion of a text evaluates expressions in the middle of a pass: it reads labels, pages, sizes and
reusable labels, of this pass and of the one before.  An expression of a statement leaves its traces
when it does so, with the labels that it names and in the count of those that are missing.  A slot
is evaluated quietly.

There are two things to show.  One run of the expansion only notes what it takes from the pass
before (`Noted`), which goes to the history of the pass and is never read.  And two runs that differ
in their histories have the same outcome, so what is noted there cannot make a difference to the
next slot.  Both are carried through the expansion at any depth, and past every way in which it can
fail.
-/

namespace MacroAssembler

open Relation

/-! ## One expansion -/

/-- Whether a step is that something was taken from the pass before. -/
def Event.isLookBack : Event → Bool
  | .recalled _ _ _ | .anticipated _ _ _ => true
  | _ => false

/-- It is noted that something was taken from the pass before, and nothing else happens. -/
def Noted (st st' : State) : Prop :=
  ∃ event : Event, event.isLookBack = true ∧ st' = st.record event

theorem exists_of_noted {st st' : State} (h : ReflTransGen Noted st st') :
    ∃ new : List Event, (∀ event ∈ new, event.isLookBack = true) ∧
      st' = { st with history := new ++ st.history } := by
  induction h with
  | refl => exact ⟨[], fun _ h => (List.not_mem_nil h).elim, rfl⟩
  | tail _ hlast ih =>
    obtain ⟨new, hnew, rfl⟩ := ih
    obtain ⟨event, hevent, rfl⟩ := hlast
    exact ⟨event :: new, List.forall_mem_cons.2 ⟨hevent, hnew⟩, rfl⟩

namespace Stage

variable (stage : Stage)

theorem lookup_noted (aspect : Aspect) (name : Text) (st : State) :
    ReflTransGen Noted st (stage.lookup true aspect name st).2 := by
  unfold lookup
  split
  · exact .refl
  · split
    · exact .single ⟨_, rfl, rfl⟩
    · exact .refl

theorem lookupReusable_noted (target : ReusableRef) (st : State) :
    ReflTransGen Noted st (stage.lookupReusable target st).2 := by
  unfold lookupReusable
  split
  · exact .single ⟨_, rfl, rfl⟩
  · exact .refl

/-- Macro slots are evaluated quietly. -/
theorem environment_noted : (stage.environment true).Has Eq (Follows Noted) :=
  stage.environment_has true Follows.closedIn
    (fun aspect name => Follows.modifyGet (stage.lookup_noted aspect name))
    (fun target => Follows.modifyGet (stage.lookupReusable_noted target)) (fun _ h => nomatch h)
    (fun _ _ h => h ▸ rfl) (fun _ _ h => h ▸ rfl) (fun _ _ h _ => h ▸ rfl) fun _ _ h => h ▸ rfl

theorem slotValue_inStep {base : List Event} {w : Surroundings} (text : Text) {st s : State}
    (h : InStep base w st s) : (stage.slotValue text st).1 = (stage.slotValue text s).1 ∧
      InStep base w (stage.slotValue text st).2 (stage.slotValue text s).2 := by
  have hquiet : s.quiet = st.quiet := by
    obtain ⟨new, -, rfl⟩ := h
    rfl
  have hagree := evaluate_has Respects.closedIn (stage.environment_inStep st.quiet) text st s h
  unfold slotValue
  rw [EStateM.run, EStateM.run, hquiet]
  generalize evaluate (stage.environment st.quiet) text st = r,
    evaluate (stage.environment st.quiet) text s = r' at hagree
  cases hagree with
  | ok _ h' => exact ⟨rfl, h'⟩
  | error _ h' => exact ⟨rfl, h'⟩

end Stage

namespace PassM

variable {stage : Stage}

theorem expandMacros_noted (text : Text) : Performs Noted stage (expandMacros text) := by
  refine expandMacros_performs_of (fun text st hquiet => stage.slotValue_leads ?_ text) ?_ text
  · rw [hquiet]
    exact stage.environment_noted
  · rintro st _ ⟨event, hevent, rfl⟩
    exact ⟨rfl, fun _ _ => ⟨event, hevent, rfl⟩⟩

theorem expandMacros_inStep {base : List Event} {w : Surroundings} (text : Text) :
    Respects (InStep base w) Anything Anything (expandMacros text stage) := by
  intro st s h
  have hmacros : s.macros = st.macros ∧ s.quiet = st.quiet := by
    obtain ⟨new, -, rfl⟩ := h
    exact ⟨rfl, rfl⟩
  have hwith : ∀ (macros : MacroTable) (quiet : Bool) {st s : State}, InStep base w st s →
      InStep base w (st.withMacros macros quiet) (s.withMacros macros quiet) :=
    fun macros quiet _ _ => .change (f := fun st => st.withMacros macros quiet) []
      (fun _ => rfl) fun _ _ => rfl
  have hagree : Agree (InStep base w) Anything Anything
      (st.macros.expand stage.slotValue text (st.withMacros {} true))
      (st.macros.expand stage.slotValue text (s.withMacros {} true)) :=
    MacroTable.expand_has (Respects.closedIn (R := InStep base w)).toClosed
      (fun slot => Respects.modifyGet
        (fun _ _ h => ⟨(stage.slotValue_inStep slot h).1, trivial⟩)
        fun _ _ h => (stage.slotValue_inStep slot h).2) text _ _ (hwith {} true h)
  rw [expandMacros_apply, expandMacros_apply, hmacros.1, hmacros.2]
  split
  · exact .ok trivial h
  · generalize st.macros.expand stage.slotValue text (st.withMacros {} true) = r,
      st.macros.expand stage.slotValue text (s.withMacros {} true) = r' at hagree
    cases hagree with
    | ok _ h' => exact .ok trivial (hwith _ _ h')
    | error _ h' => exact .error trivial (hwith _ _ h')

/-- The expansion of a text leaves no trace, whether it succeeds or fails: all of the state is as it
was, but for the history, where it is noted what the slots have taken from the pass before.  What
has been noted there already makes no difference to the outcome, nor to what is added. -/
theorem expandMacros_leaves_no_trace (stage : Stage) (text : Text) (st : State) :
    ∃ looks : List Event, (∀ event ∈ looks, event.isLookBack = true) ∧
      ((∃ expanded, ∀ history, expandMacros text stage { st with history := history } =
          .ok expanded { st with history := looks ++ history }) ∨
        ∃ fault, ∀ history, expandMacros text stage { st with history := history } =
          .error fault { st with history := looks ++ history }) := by
  let fresh : State := { st with history := [] }
  have hnoted : ReflTransGen Noted fresh (stateAfter (expandMacros text stage) fresh) :=
    expandMacros_noted text fresh
  obtain ⟨looks, hlooks, hafter⟩ := exists_of_noted hnoted
  refine ⟨looks, hlooks, ?_⟩
  -- in step with a run from an empty history, the state after it is known
  have hagree : ∀ history, Agree (InStep [] ⟨st.store, st.file, st.loops, history, st.asWritten⟩)
      Anything Anything (expandMacros text stage fresh)
      (expandMacros text stage { st with history := history }) :=
    fun history => expandMacros_inStep text fresh _ ⟨[], rfl, rfl⟩
  have hstate : ∀ history s, InStep [] ⟨st.store, st.file, st.loops, history, st.asWritten⟩
      { fresh with history := looks ++ fresh.history } s →
        s = { st with history := looks ++ history } := by
    rintro history s ⟨new, hnew, rfl⟩
    have heq : looks = new := List.append_cancel_right hnew
    rw [heq]
    rfl
  cases hrun : expandMacros text stage fresh with
  | ok expanded st' =>
    rw [stateAfter_of_ok hrun] at hafter
    refine Or.inl ⟨expanded, fun history => ?_⟩
    have h := hagree history
    rw [hrun, hafter] at h
    generalize expandMacros text stage { st with history := history } = r at h ⊢
    cases h with
    | ok _ h => rw [hstate history _ h]
  | error fault st' =>
    rw [stateAfter_of_error hrun] at hafter
    refine Or.inr ⟨fault, fun history => ?_⟩
    have h := hagree history
    rw [hrun, hafter] at h
    generalize expandMacros text stage { st with history := history } = r at h ⊢
    cases h with
    | error _ h => rw [hstate history _ h]

end PassM

end MacroAssembler
