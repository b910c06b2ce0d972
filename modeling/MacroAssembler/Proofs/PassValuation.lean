import MacroAssembler.Proofs.Deferral
import MacroAssembler.Proofs.FormulaChain

/-!
# What names stand for in a pass

An expression asks the state of a pass for labels and for the current address, and every question
may leave a trace: a use is noted with the label, or kept for the end of the pass, or a number that
comes from the pass before is recorded.  None of these traces shows in a later answer.  So the
labels and the address of a state are a valuation, and the environment of the pass keeps to it
however often it is asked.
-/

namespace MacroAssembler

open Relation

namespace Stage

variable (stage : Stage)

/-- The values of labels and the address in a state of a pass. -/
def valuation (st : State) : Valuation where
  label name :=
    match st.resolveLabel name with
    | some id => (st.symbols.label? id).map Label.value
    | none => (stage.previousEntry st name).map fun entry => entry.2.value
  address := Value.ofInt st.address

variable {st st' : State}

/-- Two states that give expressions the same answers. -/
structure AnswersAlike (st st' : State) : Prop where
  resolveLabel : st'.resolveLabel = st.resolveLabel
  number : ∀ id aspect, (st'.symbols.label? id).map (·.number aspect) = (st.symbols.label? id).map
    (·.number aspect)
  previousEntry : stage.previousEntry st' = stage.previousEntry st
  address : st'.address = st.address

variable {stage}

namespace AnswersAlike

theorem refl (st : State) : stage.AnswersAlike st st :=
  ⟨rfl, fun _ _ => rfl, rfl, rfl⟩

theorem trans {st'' : State} (h : stage.AnswersAlike st st') (h' : stage.AnswersAlike st' st'') :
    stage.AnswersAlike st st'' :=
  ⟨h'.resolveLabel.trans h.resolveLabel, fun id aspect => (h'.number id aspect).trans
    (h.number id aspect), h'.previousEntry.trans h.previousEntry, h'.address.trans h.address⟩

/-- A use that is noted with a label does not change what names stand for. -/
theorem reference (id : LabelId) (location : Location) :
    stage.AnswersAlike st { st with symbols := st.symbols.modifyLabel id fun label =>
      { label with references := label.references.push location } } := by
  have hnumber : ∀ id' aspect, ((st.symbols.modifyLabel id fun label =>
      { label with references := label.references.push location }).label? id').map
        (·.number aspect) = (st.symbols.label? id').map (·.number aspect) := by
    intro id' aspect
    rw [Symbols.label?_modifyLabel]
    split
    · rw [Option.map_map]
      cases aspect <;> rfl
    · rfl
  -- the modules are the same, and with them everything that a name is searched in
  generalize htree : (st.symbols.modifyLabel id fun label =>
    { label with references := label.references.push location }) = tree at hnumber ⊢
  have hresolve : tree.resolve = st.symbols.resolve := by
    rw [← htree]
    exact Symbols.resolve_congr rfl rfl
  have hpath : tree.modulePath st.home = st.symbols.modulePath st.home := by
    rw [← htree]
    exact Symbols.modulePath_congr (fun _ _ => rfl) fun _ _ => rfl
  refine ⟨funext fun name => congrFun (congrFun hresolve name) st.scope, hnumber,
    funext fun name => ?_, rfl⟩
  simp only [Stage.previousEntry, Symbols.equivalentModule, hpath]
  rfl

theorem of_evalStep (h : EvalStep stage st st') : stage.AnswersAlike st st' := by
  cases h with
  | reference id location => exact reference id location
  | _ => exact ⟨rfl, fun _ _ => rfl, rfl, rfl⟩

theorem of_steps (h : ReflTransGen (EvalStep stage) st st') : stage.AnswersAlike st st' := by
  induction h with
  | refl => exact refl st
  | tail _ hlast ih => exact ih.trans (of_evalStep hlast)

theorem valuation_eq (h : stage.AnswersAlike st st') :
    stage.valuation st' = stage.valuation st := by
  have hnumber : ∀ id, (st'.symbols.label? id).map Label.value =
      (st.symbols.label? id).map Label.value :=
    fun id => h.number id .value
  unfold valuation
  simp only [h.resolveLabel, h.previousEntry, hnumber, h.address]

end AnswersAlike

theorem valuation_of_steps (h : ReflTransGen (EvalStep stage) st st') :
    stage.valuation st' = stage.valuation st :=
  (AnswersAlike.of_steps h).valuation_eq

/-- What is found is read off the label before its use is noted. -/
theorem lookup_fst (quiet : Bool) (aspect : Aspect) (name : Text) (st : State) :
    (stage.lookup quiet aspect name st).1 = match st.resolveLabel name with
      | some id => (st.symbols.label? id).map (·.number aspect)
      | none => (stage.previousEntry st name).map fun entry => entry.2.number aspect := by
  unfold lookup
  cases hname : st.resolveLabel name with
  | some id =>
    exact (AnswersAlike.of_steps (stage.recordReference_steps quiet st id)).number id aspect
  | none => cases stage.previousEntry st name <;> rfl

theorem lookup_value (quiet : Bool) (name : Text) (st : State) :
    (stage.lookup quiet .value name st).1 = (stage.valuation st).label name :=
  stage.lookup_fst quiet .value name st

/-- The environment of a pass answers with the values of its state. -/
theorem environment_answers (stage : Stage) (quiet : Bool) (st : State) :
    (stage.environment quiet).Answers (fun s => stage.valuation s = stage.valuation st)
      (stage.valuation st) where
  address s hs := congrArg Valuation.address hs
  label name value hvalue := by
    have hlookup : Gives (fun s => stage.valuation s = stage.valuation st)
        (modifyGet (stage.lookup quiet .value name) : EvalM State (Option Float)) (some value) := by
      intro s hs
      have hfound : (stage.lookup quiet .value name s).1 = some value := by
        rw [lookup_value, hs, hvalue]
      have hsteps := stage.lookup_steps quiet .value name s
      exact ⟨_, congrArg (EStateM.Result.ok · _) hfound, (valuation_of_steps hsteps).trans hs⟩
    exact hlookup.bind (gives_pure value)

end Stage

end MacroAssembler
