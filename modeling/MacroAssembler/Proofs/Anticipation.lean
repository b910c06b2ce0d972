import MacroAssembler.Proofs.Passes

/-!
# Reusable labels that are used ahead of their definition

A reference such as `{+}` means the next definition of its label, and a bookmark with an offset may
mean one further on.  The pass has not met that definition yet.  The reference is therefore given
the value of the definition that has the same number among those of its label in the pass before.

The record of reusable labels that a pass keeps is nothing but the list of the definitions that it
has met, so the definition that a reference means is found later in the history, if the pass comes
to it at all.  There its value is not compared with the one that was used.  The two are equal
exactly when the final labels pass has met that definition at the same address, and a condition on
a constant that only the assembling pass has settled is enough to move it.
-/

namespace MacroAssembler

/-- The definition of a reusable label that a step has made. -/
def Event.definition? : Event → Option ReusableDef
  | .reached polarity run value => some ⟨polarity, run, value⟩
  | _ => none

/-- Whether a value that was used ahead is that of the definition in a record, if it is there. -/
def Event.metIn (labels : ReusableLabels) : Event → Bool
  | .anticipated target index value =>
    (labels.instances target.polarity target.run)[index]?.all (decide <| value = ·)
  | _ => true

namespace ReusableLabels

variable {labels : ReusableLabels} {target : ReusableRef} {polarity : Polarity} {run index : Nat}
  {value : Float}

/-- Only what lies ahead is looked for in the pass before, and a label that is looked for backwards
never does. -/
theorem polarity_ne_backward_of_ahead? (h : labels.ahead? target = some index) :
    target.polarity ≠ .backward := by
  obtain ⟨hordinal, hlength⟩ := ahead?_eq_some_iff.1 h
  intro hbackward
  unfold ordinal at hordinal
  rw [hbackward] at hordinal hlength
  dsimp only at hordinal
  split at hordinal
  · cases hordinal
  · cases hordinal
    omega

/-! ## The record and the history -/

/-- The reusable labels that were defined in a history, the newest step of which comes first. -/
def ofHistory (history : List Event) : ReusableLabels :=
  ⟨(history.reverse.filterMap Event.definition?).toArray⟩

theorem ofHistory_cons_of_none {event : Event} (h : event.definition? = none)
    (history : List Event) : ofHistory (event :: history) = ofHistory history := by
  simp [ofHistory, h]

theorem ofHistory_reached (history : List Event) :
    ofHistory (.reached polarity run value :: history) =
      (ofHistory history).define polarity run value := by
  simp [ofHistory, define, Event.definition?]

theorem instances_ofHistory_append (later earlier : List Event) :
    (ofHistory (later ++ earlier)).instances polarity run =
      (ofHistory earlier).instances polarity run ++ (ofHistory later).instances polarity run := by
  simp [ofHistory, instances]

theorem reached_of_mem_instances {history : List Event}
    (h : value ∈ (ofHistory history).instances polarity run) :
    .reached polarity run value ∈ history := by
  obtain ⟨d, hd, hinstance⟩ := List.mem_filterMap.1 h
  obtain ⟨event, hmem, hevent⟩ := List.mem_filterMap.1 hd
  obtain ⟨⟨rfl, rfl⟩, hvalue⟩ := Option.ite_none_right_eq_some.1 hinstance
  obtain rfl := Option.some.inj hvalue
  cases event with
  | reached polarity run value =>
    cases hevent
    exact List.mem_reverse.1 hmem
  | _ => cases hevent

/-- A definition that was not there at some point of a history is met after that point. -/
theorem reached_of_getElem? {later earlier : List Event}
    (hlength : ((ofHistory earlier).instances polarity run).length ≤ index)
    (h : ((ofHistory (later ++ earlier)).instances polarity run)[index]? = some value) :
    .reached polarity run value ∈ later := by
  rw [instances_ofHistory_append, List.getElem?_append_right hlength] at h
  exact reached_of_mem_instances (List.mem_of_getElem? h)

end ReusableLabels

open ReusableLabels

/-- **The record of reusable labels is that of the history.** -/
theorem Change.reusable_eq_ofHistory {stage : Stage} {failing : Prop} {st st' : State}
    (h : Change stage failing st st') (hst : st.reusable = ofHistory st.history) :
    st'.reusable = ofHistory st'.history := by
  -- a step that is noted and defines nothing leaves the record alone
  have hnoted : ∀ event : Event, event.definition? = none →
      st.reusable = ofHistory (event :: st.history) :=
    fun event hevent => hst.trans (ofHistory_cons_of_none hevent st.history).symm
  cases h with
  | act h =>
    cases h with
    | control h =>
      have hreusable : st'.reusable = st.reusable := congrArg Tracked.reusable h
      have hhistory : st'.history = st.history := congrArg Tracked.history h
      rw [hreusable, hhistory]
      exact hst
    | recalled | anticipated | assigned | labelled | exported | awaited | drawn =>
      exact hnoted _ rfl
    | reached polarity run value =>
      exact (congrArg (define · polarity run value) hst).trans (ofHistory_reached _).symm
    | _ => exact hst
  | spliced | matched | encoded | entered | left | skipped | passedHead | passedEnd =>
    exact hnoted _ rfl
  | _ => exact hst

/-- What the references in a history that are ahead of their definitions have got: the value of the
definition that they mean in another record. -/
structure AnticipatesFrom (previous : ReusableLabels) (st : State) : Prop where
  reusable_eq : st.reusable = ofHistory st.history
  ahead : ∀ {later target index value earlier},
    st.history = later ++ .anticipated target index value :: earlier →
      (ofHistory earlier).ahead? target = some index ∧
      (previous.instances target.polarity target.run)[index]? = some value

theorem AnticipatesFrom.step {stage : Stage} {failing : Prop} {st st' : State}
    (h : Change stage failing st st') (hst : AnticipatesFrom stage.previousReusable st) :
    AnticipatesFrom stage.previousReusable st' := by
  refine ⟨h.reusable_eq_ofHistory hst.reusable_eq, ?_⟩
  intro later target index value earlier hsplit
  rcases h.history_eq with heq | ⟨event, heq, hevent⟩
  · rw [heq] at hsplit
    exact hst.ahead hsplit
  · rw [heq] at hsplit
    cases later with
    | nil =>
      obtain ⟨rfl, rfl⟩ := List.cons_eq_cons.1 hsplit
      rw [← hst.reusable_eq]
      exact hevent
    | cons newest later => exact hst.ahead (List.cons_eq_cons.1 hsplit).2

namespace Assembler

variable {a a' : Assembler} {path : Text}

namespace Passes

variable (p : Passes a path)

theorem anticipatesFrom_final : AnticipatesFrom p.final.reusable p.done := by
  have hstep : ∀ st st', Change p.assembling True st st' →
      AnticipatesFrom p.final.reusable st → AnticipatesFrom p.final.reusable st' :=
    fun _ _ h hst => hst.step h
  refine keeps_of_steps hstep p.done_steps ⟨rfl, fun hsplit => ?_⟩
  simp [start, State.initial] at hsplit

/-- A reference got the value of a definition that lies ahead.  At that point of the assembling pass
it means the definition with the given number; the value is that of this definition in the final
labels pass; and the assembling pass comes to the definition later, if at all. -/
structure Anticipates (later : List Event) (target : ReusableRef) (index : Nat) (value : Float)
    (earlier : List Event) : Prop where
  ahead : (ofHistory earlier).ahead? target = some index
  forward : target.polarity ≠ .backward
  before : (p.final.reusable.instances target.polarity target.run)[index]? = some value
  after : ∀ reached, (p.done.reusable.instances target.polarity target.run)[index]? = some reached →
    .reached target.polarity target.run reached ∈ later

variable {p}

theorem anticipates_of_history_eq {later earlier : List Event} {target : ReusableRef} {index : Nat}
    {value : Float} (h : p.done.history = later ++ .anticipated target index value :: earlier) :
    p.Anticipates later target index value earlier := by
  obtain ⟨hahead, hbefore⟩ := p.anticipatesFrom_final.ahead h
  refine ⟨hahead, polarity_ne_backward_of_ahead? hahead, hbefore, fun reached hreached => ?_⟩
  rw [p.anticipatesFrom_final.reusable_eq, h, List.append_cons] at hreached
  have hmem := reached_of_getElem? (ahead?_eq_some_iff.1 hahead).2 hreached
  simpa using hmem

theorem before_of_anticipated {target : ReusableRef} {index : Nat} {value : Float}
    (h : .anticipated target index value ∈ p.done.history) :
    (p.final.reusable.instances target.polarity target.run)[index]? = some value := by
  obtain ⟨later, earlier, hsplit⟩ := List.append_of_mem h
  exact (anticipates_of_history_eq hsplit).before

variable (p)

/-- Every value that was used ahead of a definition is the one that the assembling pass records for
the definition. -/
def ReusableSettled : Prop :=
  ∀ target index value, .anticipated target index value ∈ p.done.history →
    ∀ reached, (p.done.reusable.instances target.polarity target.run)[index]? = some reached →
      value = reached

/-- Every definition that was used ahead has the same value in the final labels pass and in the
assembling pass. -/
def ReusableReproduced : Prop :=
  ∀ target index, (∃ value, .anticipated target index value ∈ p.done.history) →
    ∀ before reached,
      (p.final.reusable.instances target.polarity target.run)[index]? = some before →
      (p.done.reusable.instances target.polarity target.run)[index]? = some reached →
        before = reached

theorem reusableSettled_iff : p.ReusableSettled ↔ p.ReusableReproduced := by
  constructor
  · rintro h target index ⟨value, hmem⟩ before reached hbefore hreached
    have heq := before_of_anticipated hmem
    have hvalue : before = value := Option.some.inj (hbefore.symm.trans heq)
    rw [hvalue]
    exact h target index value hmem reached hreached
  · intro h target index value hmem reached hreached
    exact h target index ⟨value, hmem⟩ value reached (before_of_anticipated hmem) hreached

theorem reusableSettled_iff_metIn :
    p.ReusableSettled ↔ p.done.history.all (Event.metIn p.done.reusable) = true := by
  rw [List.all_eq_true]
  constructor
  · intro h event hmem
    cases event with
    | anticipated target index value =>
      rw [Event.metIn, Option.all_eq_true]
      exact fun reached hreached => decide_eq_true (h target index value hmem reached hreached)
    | _ => rfl
  · intro h target index value hmem reached hreached
    have hmet := h _ hmem
    rw [Event.metIn, Option.all_eq_true] at hmet
    exact of_decide_eq_true (hmet reached hreached)

instance : Decidable p.ReusableSettled :=
  decidable_of_iff _ p.reusableSettled_iff_metIn.symm

end Passes

/-- **Reusable labels are settled when the final labels pass has placed them.**  A reference to a
definition that lies ahead is noted in the history of its pass, with the value that the definition
has in the pass before.  In a successful assembly, the assembling pass comes to the definition after
the reference, if at all.  The values that were used ahead are the ones that it finds there exactly
when the final labels pass has already given these definitions the same values. -/
theorem reusable_settled_iff_reproduced {output : Output} (h : assemble path a = .ok output a') :
    (∀ (stage : Stage) st target index value, st.reusable.ahead? target = some index →
      (stage.previousReusable.instances target.polarity target.run)[index]? = some value →
        stage.lookupReusable target st =
          (some value, st.record (.anticipated target index value))) ∧
    ∃ p : Passes a path, p.Yields output ∧
      (∀ later target index value earlier,
        p.done.history = later ++ .anticipated target index value :: earlier →
          p.Anticipates later target index value earlier) ∧
      (p.ReusableSettled ↔ p.ReusableReproduced) := by
  obtain ⟨p⟩ := passes_of_assemble h
  refine ⟨fun stage st target index value hahead hvalue => ?_, p, p.yields h, ?_,
    p.reusableSettled_iff⟩
  · rw [← resolve_of_ahead? _ hahead] at hvalue
    rw [Stage.lookupReusable, hvalue, hahead]
  · exact fun _ _ _ _ _ hsplit => p.anticipates_of_history_eq hsplit

/-- A program that uses a label in front of its definition and two bookmarks ahead. -/
def jumpsAhead : Assembler :=
  ofSource " .dw \x7b+\x7d, \x7b@+2\x7d\n@:\n+:\n .dw \x7b+\x7d\n@:\n+:\n .db 0\n"

/-- Whether a step has used a reusable label ahead of its definition. -/
def usesAhead : Event → Bool
  | .anticipated _ _ _ => true
  | _ => false

theorem reusable_settled_iff_reproduced_jumpsAhead : ∃ output a',
    assemble "main".toList jumpsAhead = .ok output a' ∧
    ∃ p : Passes jumpsAhead "main".toList, p.Yields output ∧
      p.done.history.countP usesAhead = 3 ∧
      (∀ later target index value earlier,
        p.done.history = later ++ .anticipated target index value :: earlier →
          p.Anticipates later target index value earlier) ∧
      p.ReusableSettled ∧ p.ReusableReproduced := by
  have hrun : jumpsAhead.assemblesBy
      (fun p => p.done.history.countP usesAhead == 3 && decide p.ReusableSettled) = true := by
    decide +kernel
  obtain ⟨output, a', h, q, -, hq⟩ := exists_of_assemblesBy hrun
  obtain ⟨-, p, hyields, hahead, hiff⟩ := reusable_settled_iff_reproduced h
  rw [Subsingleton.elim q p, Bool.and_eq_true, beq_iff_eq, decide_eq_true_eq] at hq
  obtain ⟨hcount, hsettled⟩ := hq
  exact ⟨output, a', h, p, hyields, hcount, hahead, hsettled, hiff.1 hsettled⟩

/-- A program with a byte in front of a label that is only there in the assembling pass. -/
def movedAhead : Assembler :=
  ofSource " .dw \x7b+\x7d\n .if A == 2\n .db 0\n .endif\n+:\nA = B + 1\nB = 1\n"

/-- The label moves on by that byte, and the program is assembled without an error, with the address
where the label was before. -/
theorem reusable_not_settled_movedAhead : ∃ output a',
    assemble "main".toList movedAhead = .ok output a' ∧
    ∃ p : Passes movedAhead "main".toList, p.Yields output ∧ ¬p.ReusableSettled := by
  have hrun : movedAhead.assemblesBy (fun p => decide ¬p.ReusableSettled) = true := by
    decide +kernel
  obtain ⟨output, a', h, p, hyields, hp⟩ := exists_of_assemblesBy hrun
  exact ⟨output, a', h, p, hyields, of_decide_eq_true hp⟩

end Assembler

end MacroAssembler
