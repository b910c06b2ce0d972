import MacroAssembler.Proofs.Passes

/-!
# Constants that are read ahead of their assignment

An expression may use a label that the pass has not come to yet.  It then takes the number that the
label has in the tree of the pass before.  For an address the assembling pass compares the two when
it comes to the label, and reports an error if they differ.  For a constant it does not.

So the number that was read is the one that the final labels pass has worked out, and nothing more
can be said of it: an assembly is a fixed point for its constants exactly when the final labels pass
has already given them the values that they have in the output.  A chain of three constants, each of
which is used before its assignment, is long enough for that to fail.
-/

namespace MacroAssembler

/-- Where a label stands in its tree: the root above it, and the keys on the way down to it.  This
is what a label has in common with itself in another pass. -/
def Symbols.keyPath (t : Symbols) (label : Label) : ModuleId × List Text :=
  let (top, names) := t.modulePath label.home
  (top, (names ++ [label.name]).map t.key)

/-- Whether a step is an assignment to a label. -/
def Event.assigns (id : LabelId) : Event → Bool
  | .assigned id' => id' == id
  | _ => false

/-- Whether a step has taken a number from the pass before. -/
def Event.recalls : Event → Bool
  | .recalled _ _ _ => true
  | _ => false

/-! ## What is recalled -/

/-- All numbers that were recalled in a history are those of the labels of a tree. -/
def RecallsFrom (t : Symbols) (history : List Event) : Prop :=
  ∀ aspect id number, .recalled aspect id number ∈ history →
    ∃ label, t.label? id = some label ∧ number = label.number aspect

theorem Change.recallsFrom {stage : Stage} {failing : Prop} {st st' : State}
    (h : Change stage failing st st')
    (hst : RecallsFrom stage.previous st.history) : RecallsFrom stage.previous st'.history := by
  intro aspect id number hmem
  rcases h.history_eq with heq | ⟨event, heq, hevent⟩
  · rw [heq] at hmem
    exact hst aspect id number hmem
  · rw [heq] at hmem
    rcases List.mem_cons.1 hmem with rfl | hmem
    · exact hevent
    · exact hst aspect id number hmem

namespace Assembler

variable {a : Assembler} {path : Text}

namespace Passes

/-- Whatever an expression of the assembling pass takes from the pass before is the number that the
final labels pass has worked out. -/
theorem recallsFrom_final (p : Passes a path) : RecallsFrom p.final.symbols p.done.history := by
  have hstep : ∀ st st', Change p.assembling True st st' → RecallsFrom p.final.symbols st.history →
      RecallsFrom p.final.symbols st'.history :=
    fun _ _ h => h.recallsFrom
  refine keeps_of_steps hstep p.done_steps ?_
  intro aspect id number hmem
  simp [start, State.initial] at hmem

/-- A label of the output that the assembling pass assigns exactly once, and the label of the final
labels pass at the same place. -/
structure Constant (p : Passes a path) (label before : Label) (id : LabelId) : Prop where
  assignedOnce : ∃ out, p.done.symbols.label? out = some label ∧
    p.done.history.countP (Event.assigns out) = 1
  before_eq : p.final.symbols.label? id = some before
  keyPath_eq : p.final.symbols.keyPath before = p.done.symbols.keyPath label

/-- Every value that was read ahead for a constant is the value that it has in the output. -/
def ConstantsSettled (p : Passes a path) : Prop :=
  ∀ label before id, p.Constant label before id →
    ∀ number, .recalled .value id number ∈ p.done.history → number = label.value

/-- The final labels pass has given every constant that was read ahead the value that it has in the
output. -/
def ConstantsReproduced (p : Passes a path) : Prop :=
  ∀ label before id, p.Constant label before id →
    (∃ number, .recalled .value id number ∈ p.done.history) → before.value = label.value

/-- A value that was read ahead for a constant is the one that it had in the final labels pass. -/
theorem Constant.eq_of_recalled {p : Passes a path} {label before : Label} {id : LabelId}
    (h : p.Constant label before id) {number : Float}
    (hmem : .recalled .value id number ∈ p.done.history) : number = before.value := by
  obtain ⟨before', hbefore, rfl⟩ := p.recallsFrom_final .value id number hmem
  rw [h.before_eq] at hbefore
  cases hbefore
  rfl

theorem constantsSettled_iff (p : Passes a path) :
    p.ConstantsSettled ↔ p.ConstantsReproduced := by
  constructor
  · rintro h label before id hconstant ⟨number, hmem⟩
    rw [← hconstant.eq_of_recalled hmem]
    exact h label before id hconstant number hmem
  · intro h label before id hconstant number hmem
    rw [hconstant.eq_of_recalled hmem]
    exact h label before id hconstant ⟨number, hmem⟩

/-- The last two passes give the same values to the labels that stand at the same places. -/
def SameValues (p : Passes a path) : Prop :=
  ∀ before ∈ p.final.symbols.labels, ∀ label ∈ p.done.symbols.labels,
    p.final.symbols.keyPath before = p.done.symbols.keyPath label → before.value = label.value

instance (p : Passes a path) : Decidable p.SameValues :=
  inferInstanceAs (Decidable (∀ before ∈ p.final.symbols.labels,
    ∀ label ∈ p.done.symbols.labels, _))

theorem SameValues.constantsReproduced {p : Passes a path} (h : p.SameValues) :
    p.ConstantsReproduced := by
  rintro label before id ⟨⟨out, hlabel, -⟩, hbefore, hkey⟩ -
  exact h before (Array.mem_of_getElem? hbefore) label (Array.mem_of_getElem? hlabel) hkey

end Passes

/-- **Constants are a fixed point when the final labels pass has settled them.**  A number that is
taken from the pass before is noted in the history.  In a successful assembly, every number that an
expression of the assembling pass takes from the pass before is the one that the label has at the
end of the final labels pass.  So the values that were read ahead for the constants are those in the
output exactly when the final labels pass has already given them these values, and they are if the
two passes give the same values to the same labels. -/
theorem constants_settled_iff_reproduced {a' : Assembler} {output : Output}
    (h : assemble path a = .ok output a') :
    (∀ (stage : Stage) quiet aspect name st id label, st.resolveLabel name = none →
      stage.previousEntry st name = some (id, label) →
        stage.lookup quiet aspect name st = (some (label.number aspect),
          (stage.recordPending quiet st name).record (.recalled aspect id (label.number aspect)))) ∧
    ∃ p : Passes a path, p.Yields output ∧
      (∀ aspect id number, .recalled aspect id number ∈ p.done.history →
        ∃ label, p.final.symbols.label? id = some label ∧ number = label.number aspect) ∧
      (p.ConstantsSettled ↔ p.ConstantsReproduced) ∧ (p.SameValues → p.ConstantsSettled) := by
  obtain ⟨p⟩ := passes_of_assemble h
  refine ⟨fun stage quiet aspect name st id label hnone hprevious => ?_, p, p.yields h,
    p.recallsFrom_final, p.constantsSettled_iff, fun hsame => ?_⟩
  · rw [Stage.lookup, hnone, hprevious]
  · exact p.constantsSettled_iff.2 hsame.constantsReproduced

/-- A program that uses a constant ahead of its assignment, which uses another one in the same
way. -/
def shortChain : Assembler :=
  ofSource " .db A\nA = B + 1\nB = 5\n"

theorem constants_settled_iff_reproduced_shortChain : ∃ output a',
    assemble "main".toList shortChain = .ok output a' ∧
    ∃ p : Passes shortChain "main".toList, p.Yields output ∧
      p.done.history.countP Event.recalls = 2 ∧ p.SameValues ∧ p.ConstantsSettled := by
  have hrun : shortChain.assemblesBy
      (fun p => p.done.history.countP Event.recalls == 2 && decide p.SameValues) = true := by
    decide +kernel
  obtain ⟨output, a', h, q, -, hq⟩ := exists_of_assemblesBy hrun
  obtain ⟨-, p, hyields, -, -, hsettled⟩ := constants_settled_iff_reproduced h
  rw [Subsingleton.elim q p, Bool.and_eq_true, beq_iff_eq, decide_eq_true_eq] at hq
  exact ⟨output, a', h, p, hyields, hq.1, hq.2, hsettled hq.2⟩

/-- A program with a longer chain of constants, each of which depends on the next one. -/
def longChain : Assembler :=
  ofSource " .db A\nA = B + 1\nB = C + 1\nC = 5\n"

/-- Whether a step has recalled another value of a label than the given one. -/
def recallsOther (id : LabelId) (value : Float) : Event → Bool
  | .recalled .value id' number => id' == id && decide (number ≠ value)
  | _ => false

/-- Whether the first label of an assembly is a constant that was read with another value than it
has in the output. -/
def Passes.firstIsStale {a : Assembler} {path : Text} (p : Passes a path) : Bool :=
  (p.done.symbols.label? 0).any fun label =>
    (p.final.symbols.label? 0).any fun before =>
      p.done.history.countP (Event.assigns 0) == 1 &&
      decide (p.final.symbols.keyPath before = p.done.symbols.keyPath label) &&
      p.done.history.any (recallsOther 0 label.value)

theorem Passes.not_constantsSettled_of_firstIsStale {p : Passes a path}
    (h : p.firstIsStale = true) : ¬p.ConstantsSettled := by
  obtain ⟨label, hlabel, h⟩ := (Option.any_eq_true _ _).1 h
  obtain ⟨before, hbefore, h⟩ := (Option.any_eq_true _ _).1 h
  rw [Bool.and_eq_true, Bool.and_eq_true, beq_iff_eq, decide_eq_true_eq] at h
  obtain ⟨⟨honce, hkey⟩, hother⟩ := h
  obtain ⟨event, hmem, hevent⟩ := List.any_eq_true.1 hother
  intro hsettled
  cases event with
  | recalled aspect id number =>
    cases aspect with
    | value =>
      rw [recallsOther, Bool.and_eq_true, beq_iff_eq, decide_eq_true_eq] at hevent
      obtain ⟨rfl, hne⟩ := hevent
      exact hne (hsettled label before 0 ⟨⟨0, hlabel, honce⟩, hbefore, hkey⟩ number hmem)
    | _ => cases hevent
  | _ => cases hevent

/-- The longer chain is assembled without an error, with a value in the output that none of its
expressions has read. -/
theorem constants_not_settled_longChain : ∃ output a',
    assemble "main".toList longChain = .ok output a' ∧
    ∃ p : Passes longChain "main".toList, p.Yields output ∧ ¬p.ConstantsSettled := by
  have hrun : longChain.assemblesBy Passes.firstIsStale = true := by decide +kernel
  obtain ⟨output, a', h, p, hyields, hp⟩ := exists_of_assemblesBy hrun
  exact ⟨output, a', h, p, hyields, Passes.not_constantsSettled_of_firstIsStale hp⟩

end Assembler

end MacroAssembler
