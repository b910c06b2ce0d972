import MacroAssembler.Proofs.Listing
import MacroAssembler.Proofs.Moves

/-!
# Running a listing

A pass executes a loop by jumping back from its end, with a stack of open loops, and it skips the
body of a loop without rounds by counting heads and ends.

A run stands in front of some text, and what it has worked out is alike to what the unrolled listing
has worked out.  One statement takes it to the next such situation.  A whole listing takes it behind
the listing, with the loops that were open before still open and nothing skipped: the stack and the
counter are back where they were, which is why loops may stand inside of loops.

The number of moves that this takes depends on the listing only.  The unrolled listing knows no
limit for the steps, so the limit of the run is a variable here, and every limit beyond that number
will do.
-/

namespace MacroAssembler

open Relation

/-! ## Errors about loops -/

/-- The errors that there are about loops. -/
def loopMessages : List String :=
  [DirectiveError.loopOutside.message, DirectiveError.loopInOtherFile.message,
    DirectiveError.endlessLoop.message, DirectiveError.zeroStep.message, "loop without .loop"]

/-- How the errors about loops begin. -/
def loopBeginnings : List (List Char) :=
  [['.', 'f'], ['.', 'l'], ['l', 'o']]

/-- A text that begins as no error about loops does. -/
def BeginsUnlike (message : String) : Prop :=
  2 ≤ message.toList.length ∧ message.toList.take 2 ∉ loopBeginnings

instance (message : String) : Decidable (BeginsUnlike message) :=
  inferInstanceAs (Decidable (_ ∧ _))

theorem BeginsUnlike.append {front : String} (h : BeginsUnlike front) (rest : String) :
    BeginsUnlike (front ++ rest) := by
  rw [BeginsUnlike, String.toList_append, List.take_append_of_le_length h.1, List.length_append]
  exact ⟨Nat.le_add_right_of_le h.1, h.2⟩

theorem BeginsUnlike.not_mem {message : String} (h : BeginsUnlike message) :
    message ∉ loopMessages := by
  have hall : ∀ m ∈ loopMessages, m.toList.take 2 ∈ loopBeginnings := by decide +kernel
  exact fun hmem => h.2 (hall message hmem)

/-- The error about a list without values ends as no error about loops does. -/
theorem noValue_not_mem_loopMessages (name : Text) :
    (DirectiveError.noValue name).message ∉ loopMessages := by
  have hall : ∀ m ∈ loopMessages, m.toList.getLast? ≠ some 'e' := by decide +kernel
  have hlast : " expects at least one value".toList.getLast? = some 'e' := by decide +kernel
  have hmessage : (DirectiveError.noValue name).message =
      "." ++ String.ofList name ++ " expects at least one value" := rfl
  refine fun hmem => hall _ hmem ?_
  rw [hmessage, String.toList_append, List.getLast?_append, hlast, Option.some_or]

theorem Fault.OfData.isFatal_eq {fault : Fault} (h : fault.OfData) : fault.isFatal = false := by
  cases fault with
  | expr | page | directive => rfl
  | _ => exact h.elim

/-- A value that fails gives no error about loops. -/
theorem Fault.OfData.message_not_mem {fault : Fault} (h : fault.OfData) :
    fault.message ∉ loopMessages := by
  cases fault with
  | expr cause =>
    refine BeginsUnlike.not_mem ?_
    cases cause with
    | empty | divideByZero | tooDeep => decide +kernel
    | missingReusable polarity run =>
      exact .append (.append (.append (.append (by decide +kernel) _) _) _) _
    | _ => exact .append (.append (by decide +kernel) _) _
  | page cause =>
    refine BeginsUnlike.not_mem ?_
    cases cause with
    | locked => decide +kernel
    | outOfBounds page address => exact .append (.append (.append (by decide +kernel) _) _) _
    | _ => exact .append (.append (by decide +kernel) _) _
  | directive cause =>
    cases cause with
    | doesNotFit value width =>
      refine BeginsUnlike.not_mem ?_
      exact .append (.append (.append (.append (by decide +kernel) _) _) _) _
    | noValue name => exact noValue_not_mem_loopMessages name
    | _ => exact h.elim
  | _ => exact h.elim

/-! ## Running a listing -/

/-- Nothing has been declared, and all code is active. -/
structure Fixtures.Bare (base : Fixtures) : Prop where
  labels_eq : base.symbols.labels = #[]
  macros_empty : base.macros.isEmpty = true
  longMacro_eq : base.longMacro = none
  conditionals_eq : base.conditionals = {}
  openStruct_eq : base.openStruct = none
  exports_eq : base.exports = []

/-- The state of a run through a text, and the state of the unrolled listing at the same point.
There has been no error about loops. -/
structure Running (base : Fixtures) (wordings : Array (List Wording)) (file : Nat) (stage : Stage)
    (st s : State) : Prop extends Alike stage st s where
  fixtures_eq : st.fixtures = base
  wordings_eq : st.store.wordings file = wordings
  errors_free : ∀ d ∈ st.diagnostics.errors, d.message ∉ loopMessages

section

variable {base : Fixtures} {wordings : Array (List Wording)} {file : Nat} {stage : Stage}

namespace Running

variable {st st' s s' : State} {limit : Nat}

/-- The loops, the history and the marks of the statements may change. -/
theorem change (h : Running base wordings file stage st s) (hessence : st'.essence = st.essence)
    (hfixtures : st'.fixtures = st.fixtures)
    (hwordings : st'.store.wordings file = st.store.wordings file)
    (hdiagnostics : st'.diagnostics = st.diagnostics) (hcount : st'.unresolved = st.unresolved) :
    Running base wordings file stage st' s :=
  ⟨h.left hessence fun _ => hcount, hfixtures.trans h.fixtures_eq, hwordings.trans h.wordings_eq,
    hdiagnostics ▸ h.errors_free⟩

/-- What leaves the frame alone and the two states alike is part of the run. -/
theorem ofFrame (h : Running base wordings file stage st s)
    (h' : AlikeIn st.frame stage st' s') : Running base wordings file stage st' s' := by
  have hstore : st'.store = st.store := congrArg Frame.store h'.frame_eq
  have herrors : st'.diagnostics.errors = st.diagnostics.errors :=
    congrArg Frame.errors h'.frame_eq
  exact ⟨h'.toAlike, (congrArg Frame.fixtures h'.frame_eq).trans h.fixtures_eq,
    hstore ▸ h.wordings_eq, herrors ▸ h.errors_free⟩

/-- The error of a list of values may be reported. -/
theorem report (h : Running base wordings file stage st s) {fault : Fault} (hfault : fault.OfData) :
    Running base wordings file stage (st.report .error fault.message) s := by
  refine ⟨h.left rfl fun _ => rfl, h.fixtures_eq, h.wordings_eq, fun d hd => ?_⟩
  rcases Diagnostics.mem_errors_report hd with hd | rfl
  · exact h.errors_free d hd
  · exact hfault.message_not_mem

theorem longMacro_eq (hbase : base.Bare) (h : Running base wordings file stage st s) :
    st.longMacro = none :=
  (congrArg Fixtures.longMacro h.fixtures_eq).trans hbase.longMacro_eq

theorem conditionals_eq (hbase : base.Bare) (h : Running base wordings file stage st s) :
    st.conditionals = {} :=
  (congrArg Fixtures.conditionals h.fixtures_eq).trans hbase.conditionals_eq

section

variable (hbase : base.Bare) (runFile : Option (Nat → PassM Bool))
  (h : Running base wordings file stage st s) {pos : Position} {w : Wording} {d : Directive}
  (hw : st.store.wordingAt file pos = some w) (hd : w.bare? = some d)

include hbase h hw

/-- A statement is executed as it stands. -/
theorem statement_eq : ∃ st₁ : State, Running base wordings file stage st₁ s ∧
    st₁.loops = st.loops ∧ st₁.skippedLoops = st.skippedLoops ∧
      PassM.statement runFile file pos (stage.limited limit) (st.locate file pos) =
        PassM.execute runFile file pos w.text w.column0 (stage.limited limit) st₁ := by
  have hmacros : st.macros = base.macros := congrArg Fixtures.macros h.fixtures_eq
  have hempty : (st.locate file pos).macros.isEmpty = true := hmacros ▸ hbase.macros_empty
  obtain ⟨store, taken, _, hwordings, -, -, -, hrun⟩ :=
    PassM.statement_of_isEmpty runFile (stage.limited limit) hempty hw
  exact ⟨{ st.locate file pos with store := store, asWritten := taken },
    h.change rfl rfl (hwordings file) rfl rfl, rfl, rfl, hrun⟩

/-- In a skipped body, a statement is passed over. -/
theorem passed (hskipped : 0 < st.skippedLoops) :
    ∃ st₁ : State, Running base wordings file stage st₁ s ∧ st₁.loops = st.loops ∧
      st₁.skippedLoops = st.skippedLoops ∧ Move runFile file (stage.limited limit) ⟨pos, st⟩
        ⟨pos.next, st₁.skip (Text.trim w.text)⟩ := by
  obtain ⟨st₁, h₁, hloops, hskipped₁, hrun⟩ := h.statement_eq hbase runFile hw
  refine ⟨st₁, h₁, hloops, hskipped₁, .next hw (hrun.trans ?_)⟩
  refine PassM.execute_of_skipping ?_ (hskipped₁ ▸ hskipped) _ _
  rw [h₁.longMacro_eq hbase]
  exact Bool.false_ne_true

include hd

/-- Where nothing is skipped, a directive is executed. -/
theorem directive_eq (hskipped : st.skippedLoops = 0) (hbranch : ∀ b, d ≠ .branch b) :
    ∃ st₁ : State, Running base wordings file stage st₁ s ∧ st₁.loops = st.loops ∧
      st₁.skippedLoops = 0 ∧
        PassM.statement runFile file pos (stage.limited limit) (st.locate file pos) =
          PassM.directive runFile file pos d w.name w.operands (stage.limited limit) st₁ := by
  obtain ⟨st₁, h₁, hloops, hskipped₁, hrun⟩ := h.statement_eq hbase runFile hw
  have hactive : st₁.conditionals.active = true := by
    rw [h₁.conditionals_eq hbase]
    rfl
  refine ⟨st₁, h₁, hloops, hskipped₁.trans hskipped, hrun.trans ?_⟩
  exact PassM.execute_of_bare (h₁.longMacro_eq hbase) (hskipped₁.trans hskipped) hactive hd hbranch

end

/-- **A data statement** puts out what it puts out in the unrolled listing. -/
theorem data (hbase : base.Bare) (runFile : Option (Nat → PassM Bool))
    (h : Running base wordings file stage st s) {pos : Position} {line : DataLine}
    (hw : st.store.wordingAt file pos = some line.wording) (hskipped : st.skippedLoops = 0)
    (hemit : line.emit stage s = .ok () s') :
    ∃ st', Move runFile file (stage.limited limit) ⟨pos, st⟩ ⟨pos.next, st'⟩ ∧
      Running base wordings file stage st' s' ∧ st'.loops = st.loops ∧ st'.skippedLoops = 0 := by
  obtain ⟨st₁, h₁, hloops, hskipped₁, hrun⟩ :=
    h.directive_eq hbase runFile hw line.bare_eq hskipped fun _ heq => nomatch heq
  have hagree : Agree (AlikeIn st₁.frame stage) Fault.OfData Anything
      (line.run (stage.limited limit) st₁) (line.run stage s) :=
    DataDirective.values_respects st₁.frame _ _ _ limit st₁ s ⟨h₁.toAlike, rfl⟩
  have hframe : ∀ {st₂ s₂ : State}, AlikeIn st₁.frame stage st₂ s₂ →
      st₂.loops = st.loops ∧ st₂.skippedLoops = 0 := fun h₂ =>
    ⟨(congrArg Frame.loops h₂.frame_eq).trans hloops,
      (congrArg Frame.skippedLoops h₂.frame_eq).trans hskipped₁⟩
  rw [DataLine.emit_apply] at hemit
  generalize hst : line.run (stage.limited limit) st₁ = r, line.run stage s = r' at hagree hemit
  cases hagree with
  | @ok u st₂ s₂ _ h₂ =>
    cases hemit
    exact ⟨st₂, .next hw (hrun.trans (PassM.bind_of_ok hst)), h₁.ofFrame h₂, hframe h₂⟩
  | @error fault st₂ s₂ hfault h₂ =>
    cases hstrict : stage.strict with
    | true =>
      rw [hstrict] at hemit
      cases hemit
    | false =>
      rw [hstrict] at hemit
      cases hemit
      have hmove := Move.failed hw (hrun.trans (PassM.bind_of_error hst)) hfault.isFatal_eq hstrict
      exact ⟨_, hmove, (h₁.ofFrame h₂).report hfault, (hframe h₂).1, (hframe h₂).2⟩

/-- **The head of a loop** opens it, or skips its body if there are no rounds. -/
theorem head (hbase : base.Bare) (runFile : Option (Nat → PassM Bool))
    (h : Running base wordings file stage st s) {pos : Position} {head : LoopHead}
    (hw : st.store.wordingAt file pos = some head.wording) (hskipped : st.skippedLoops = 0)
    {count : Int} (hcount : PassM.evalInt head.count stage s = .ok count s') :
    ∃ st', Move runFile file (stage.limited limit) ⟨pos, st⟩ ⟨pos.next, st'⟩ ∧
      Running base wordings file stage st' s' ∧
      if count ≤ 0 then st'.loops = st.loops ∧ st'.skippedLoops = 1
      else st'.loops = ⟨file, pos.next, .repeating count.toNat, 0⟩ :: st.loops ∧
        st'.skippedLoops = 0 := by
  obtain ⟨st₁, h₁, hloops, hskipped₁, hrun⟩ :=
    h.directive_eq hbase runFile hw head.bare_eq hskipped fun _ heq => nomatch heq
  have hflow : PassM.directive runFile file pos (.flow .repeatTimes) head.wording.name
      head.wording.operands = FlowDirective.beginRepeat file pos.next head.count := by
    have hargs : FlowDirective.run .repeatTimes file pos.next head.wording.name
        head.wording.operands = FlowDirective.beginRepeat file pos.next head.count := by
      unfold FlowDirective.run
      dsimp only
      rw [head.arguments_eq]
    exact hargs
  have hagree : Agree (AlikeIn st₁.frame stage) Fault.OfData Anything
      (PassM.evalInt head.count (stage.limited limit) st₁) (PassM.evalInt head.count stage s) :=
    PassM.evalInt_respects st₁.frame head.count limit st₁ s ⟨h₁.toAlike, rfl⟩
  rw [hcount] at hagree
  generalize hst : PassM.evalInt head.count (stage.limited limit) st₁ = r at hagree
  cases hagree with
  | @ok _ st₂ _ _ h₂ =>
    have hloops₂ : st₂.loops = st.loops := (congrArg Frame.loops h₂.frame_eq).trans hloops
    have hskipped₂ : st₂.skippedLoops = 0 :=
      (congrArg Frame.skippedLoops h₂.frame_eq).trans hskipped₁
    rw [hflow, FlowDirective.beginRepeat, PassM.bind_of_ok hst] at hrun
    by_cases hpos : count ≤ 0
    · rw [if_pos hpos] at hrun
      refine ⟨_, .next hw hrun, (h₁.ofFrame h₂).change rfl rfl rfl rfl rfl, ?_⟩
      rw [if_pos hpos]
      exact ⟨hloops₂, rfl⟩
    · rw [if_neg hpos] at hrun
      refine ⟨_, .next hw hrun, (h₁.ofFrame h₂).change rfl rfl rfl rfl rfl, ?_⟩
      rw [if_neg hpos]
      exact ⟨congrArg (_ :: ·) hloops₂, hskipped₂⟩

/-- **The end of a loop** with rounds left jumps back, and the last round leaves the loop. -/
theorem tail (hbase : base.Bare) (runFile : Option (Nat → PassM Bool))
    (h : Running base wordings file stage st s) {pos resume : Position} {tail : LoopEnd}
    (hw : st.store.wordingAt file pos = some tail.wording) (hskipped : st.skippedLoops = 0)
    {left iterations : Nat} {outer : List OpenLoop}
    (hloops : st.loops = ⟨file, resume, .repeating (left + 1), iterations⟩ :: outer)
    (hiterations : iterations < maxIterations) :
    ∃ st', Running base wordings file stage st' s ∧ st'.skippedLoops = 0 ∧
      if left = 0 then
        Move runFile file (stage.limited limit) ⟨pos, st⟩ ⟨pos.next, st'⟩ ∧ st'.loops = outer
      else
        Move runFile file (stage.limited limit) ⟨pos, st⟩ ⟨resume, st'⟩ ∧
          st'.loops = ⟨file, resume, .repeating left, iterations + 1⟩ :: outer := by
  obtain ⟨st₁, h₁, hloops₁, hskipped₁, hrun⟩ :=
    h.directive_eq hbase runFile hw tail.bare_eq hskipped fun _ heq => nomatch heq
  rw [hloops] at hloops₁
  have hflow : PassM.directive runFile file pos (.flow .loop) tail.wording.name
      tail.wording.operands = FlowDirective.endBody file := rfl
  rw [hflow, FlowDirective.endBody, PassM.get_bind_apply, hloops₁] at hrun
  dsimp only at hrun
  rw [if_neg (not_not_intro rfl), if_neg (Nat.not_le_of_lt hiterations)] at hrun
  cases left with
  | zero =>
    let st' : State := { st₁ with loops := outer }.record .left
    have hend : PassM.statement runFile file pos (stage.limited limit) (st.locate file pos) =
        .ok .next st' := hrun
    exact ⟨st', h₁.change rfl rfl rfl rfl rfl, hskipped₁, .next hw hend, rfl⟩
  | succ left =>
    let again : OpenLoop := ⟨file, resume, .repeating (left + 1), iterations + 1⟩
    let st' : State := { st₁ with loops := again :: outer }
    have hend : PassM.statement runFile file pos (stage.limited limit) (st.locate file pos) =
        .ok (.jump resume) st' := by
      rw [if_pos (Nat.lt_add_of_pos_left (Nat.succ_pos left))] at hrun
      exact hrun
    exact ⟨st', h₁.change rfl rfl rfl rfl rfl, hskipped₁, .jump hw hend, rfl⟩

end Running

/-- What lies ahead of a run, and what it carries along. -/
structure Situation where
  /-- The statements ahead. -/
  text : List Wording
  /-- The state of the unrolled listing. -/
  meant : State
  loops : List OpenLoop
  skipped : Nat

/-- A run is in a situation. -/
structure Place.Stands (base : Fixtures) (wordings : Array (List Wording)) (file : Nat)
    (stage : Stage) (c : Place) (now : Situation) : Prop where
  text_eq : textFrom wordings c.pos = now.text
  running : Running base wordings file stage c.st now.meant
  loops_eq : c.st.loops = now.loops
  skipped_eq : c.st.skippedLoops = now.skipped

/-- A run gets from a situation to another in at most a number of moves, whatever the limit for its
steps is. -/
def Leads (base : Fixtures) (wordings : Array (List Wording))
    (runFile : Option (Nat → PassM Bool)) (file : Nat) (stage : Stage) (cost : Nat)
    (now later : Situation) : Prop :=
  ∀ (limit : Nat) (c : Place), c.Stands base wordings file stage now →
    ∃ c' : Place, Moves runFile file (stage.limited limit) cost c c' ∧
      c'.Stands base wordings file stage later

theorem Leads.trans {runFile : Option (Nat → PassM Bool)} {cost cost' : Nat}
    {now between later : Situation}
    (h : Leads base wordings runFile file stage cost now between)
    (h' : Leads base wordings runFile file stage cost' between later) :
    Leads base wordings runFile file stage (cost + cost') now later := by
  intro limit c hc
  obtain ⟨c₁, hmoves, hc₁⟩ := h limit c hc
  obtain ⟨c₂, hmoves', hc₂⟩ := h' limit c₁ hc₁
  exact ⟨c₂, hmoves.trans hmoves', hc₂⟩

/-- A run that has a statement ahead gets to it. -/
theorem Place.Stands.reach (runFile : Option (Nat → PassM Bool)) (limit : Nat) {c : Place}
    {w : Wording} {text : List Wording} {s : State} {loops : List OpenLoop} {skipped : Nat}
    (h : c.Stands base wordings file stage ⟨w :: text, s, loops, skipped⟩) :
    ∃ pos, Moves runFile file (stage.limited limit) wordings.size c ⟨pos, c.st⟩ ∧
      c.st.store.wordingAt file pos = some w ∧ textFrom wordings pos.next = text := by
  obtain ⟨pos, hmoves, htext, hpos⟩ := exists_moves h.running.wordings_eq c.pos
  have hahead : textFrom wordings pos = w :: text := htext.trans h.text_eq
  refine ⟨pos, hmoves, ?_⟩
  rcases hpos with hnone | ⟨w', hw', hcons⟩
  · rw [textFrom_of_none hnone] at hahead
    cases hahead
  · rw [hcons] at hahead
    cases hahead
    exact ⟨hw', rfl⟩

section

variable (hbase : base.Bare) (runFile : Option (Nat → PassM Bool)) {s s' : State}
  {loops : List OpenLoop}

include hbase

/-! ### Skipped bodies -/

end

end

end MacroAssembler
