import MacroAssembler.Proofs.Passes
import MacroAssembler.Proofs.Visit

/-!
# Loops and their ends

The heads and the ends of loops are brackets in the history of a pass.  A head is executed, and its
body is entered or skipped; in a body that is skipped, heads and ends are only passed.  The matching
end of a head is found as that of a bracket is: by counting heads and ends from there on.

A pass keeps the open heads in two places, a stack of open loops and a counter for the body that is
being skipped.  `HeadsKept` says that the two together are the brackets that the history has left
open.  The loops that a file leaves open are reported as an error when its end is reached.  The
counter is not looked at when a pass ends, so a loop without rounds may have no end at all.
-/

namespace MacroAssembler

open Relation
variable {st : State} {head : Event} {st' : State}

/-! ## Brackets in a history -/

namespace Event

/-- The head of a loop. -/
def isHead : Event → Bool
  | .entered | .skipped | .passedHead => true
  | _ => false

/-- The end of a loop. -/
def isEnd : Event → Bool
  | .passedEnd | .left => true
  | _ => false

end Event

/-- The heads that a history has left open, the innermost first. -/
def openHeads : List Event → List Event
  | [] => []
  | e :: earlier =>
    if e.isHead then e :: openHeads earlier
    else if e.isEnd then (openHeads earlier).tail
    else openHeads earlier

/-- How many heads are open, counted from a head on, when some events have followed it; the newest
comes first.  There is none any more as soon as the matching end of that head has been reached. -/
def pendingHeads : List Event → Nat
  | [] => 1
  | e :: later =>
    if pendingHeads later = 0 then 0
    else if e.isHead then pendingHeads later + 1
    else if e.isEnd then pendingHeads later - 1
    else pendingHeads later

/-- Every head of a kind has reached its matching end. -/
def AllReachEnds (head : Event) (history : List Event) : Prop :=
  ∀ later earlier, history = later ++ head :: earlier → pendingHeads later = 0

/-- A head that has not reached its matching end is open, below the heads that came after it. -/
theorem openHeads_append (hhead : head.isHead = true) (later earlier : List Event)
    (h : pendingHeads later ≠ 0) :
    ∃ inner, openHeads (later ++ head :: earlier) = inner ++ head :: openHeads earlier ∧
      inner.length + 1 = pendingHeads later := by
  induction later with
  | nil =>
    refine ⟨[], ?_, rfl⟩
    rw [List.nil_append, List.nil_append, openHeads, if_pos hhead]
  | cons e later ih =>
    rw [pendingHeads] at h
    by_cases hreached : pendingHeads later = 0
    · rw [if_pos hreached] at h
      exact absurd rfl h
    · obtain ⟨inner, hopen, hlength⟩ := ih hreached
      rw [if_neg hreached] at h
      rw [pendingHeads, if_neg hreached, List.cons_append, openHeads, hopen]
      by_cases hopens : e.isHead = true
      · rw [if_pos hopens, if_pos hopens]
        exact ⟨e :: inner, rfl, by rw [List.length_cons, hlength]⟩
      · rw [if_neg hopens, if_neg hopens] at *
        by_cases hcloses : e.isEnd = true
        · rw [if_pos hcloses] at h
          rw [if_pos hcloses, if_pos hcloses]
          cases inner with
          | nil =>
            rw [← hlength] at h
            exact absurd rfl h
          | cons first inner =>
            refine ⟨inner, rfl, ?_⟩
            rw [← hlength]
            rfl
        · rw [if_neg hcloses, if_neg hcloses]
          exact ⟨inner, rfl, hlength⟩

/-- A head that is open has not reached its matching end. -/
theorem exists_of_openHeads {history inner outer : List Event}
    (h : openHeads history = inner ++ head :: outer) :
    ∃ later earlier, history = later ++ head :: earlier ∧
      pendingHeads later = inner.length + 1 := by
  induction history generalizing inner with
  | nil =>
    rw [openHeads, eq_comm, List.append_eq_nil_iff] at h
    cases h.2
  | cons e history ih =>
    rw [openHeads] at h
    by_cases hopens : e.isHead = true
    · rw [if_pos hopens] at h
      cases inner with
      | nil =>
        rw [List.nil_append, List.cons.injEq] at h
        exact ⟨[], history, by rw [h.1]; rfl, rfl⟩
      | cons first inner =>
        rw [List.cons_append, List.cons.injEq] at h
        obtain ⟨later, earlier, rfl, hpending⟩ := ih h.2
        refine ⟨e :: later, earlier, rfl, ?_⟩
        rw [pendingHeads, hpending, if_neg (Nat.succ_ne_zero _), if_pos hopens, List.length_cons]
    · rw [if_neg hopens] at h
      by_cases hcloses : e.isEnd = true
      · rw [if_pos hcloses] at h
        -- the end closed a head inside of the one that is open
        obtain ⟨closed, hclosed⟩ : ∃ closed, openHeads history = (closed :: inner) ++
          head :: outer := by
          cases hbefore : openHeads history with
          | nil =>
            rw [hbefore, List.tail_nil, eq_comm, List.append_eq_nil_iff] at h
            cases h.2
          | cons closed rest =>
            rw [hbefore, List.tail_cons] at h
            exact ⟨closed, by rw [h, List.cons_append]⟩
        obtain ⟨later, earlier, rfl, hpending⟩ := ih hclosed
        refine ⟨e :: later, earlier, rfl, ?_⟩
        rw [pendingHeads, hpending, if_neg (Nat.succ_ne_zero _), if_neg hopens, if_pos hcloses,
          List.length_cons]
        rfl
      · rw [if_neg hcloses] at h
        obtain ⟨later, earlier, rfl, hpending⟩ := ih h
        refine ⟨e :: later, earlier, rfl, ?_⟩
        rw [pendingHeads, hpending, if_neg (Nat.succ_ne_zero _), if_neg hopens, if_neg hcloses]

/-- All heads of a kind have reached their ends exactly if none of them is open. -/
theorem allReachEnds_iff (hhead : head.isHead = true) (history : List Event) :
    AllReachEnds head history ↔ head ∉ openHeads history := by
  constructor
  · intro hall hopen
    obtain ⟨inner, outer, hsplit⟩ := List.append_of_mem hopen
    obtain ⟨later, earlier, hhistory, hpending⟩ := exists_of_openHeads hsplit
    have hreached := hall later earlier hhistory
    omega
  · rintro hopen later earlier rfl
    by_cases hpending : pendingHeads later = 0
    · exact hpending
    · obtain ⟨inner, hsplit, _⟩ := openHeads_append hhead later earlier hpending
      refine absurd ?_ hopen
      rw [hsplit]
      exact List.mem_append_right inner List.mem_cons_self

/-! ## Open heads in a state -/

/-- The heads that a number of skipped loops stands for, the innermost first. -/
def skippedHeads : Nat → List Event
  | 0 => []
  | 1 => [.skipped]
  | n + 2 => .passedHead :: skippedHeads (n + 1)

/-- The open heads of the history are those of the body that is being skipped, inside of the open
loops. -/
def State.HeadsKept (st : State) : Prop :=
  openHeads st.history = skippedHeads st.skippedLoops ++ List.replicate st.loops.length .entered

theorem entered_not_mem_skippedHeads (n : Nat) : Event.entered ∉ skippedHeads n := by
  induction n using skippedHeads.induct with
  | case1 => exact List.not_mem_nil
  | case2 => simp [skippedHeads]
  | case3 n ih => simp [skippedHeads, ih]

theorem skipped_mem_skippedHeads_iff (n : Nat) : Event.skipped ∈ skippedHeads n ↔ n ≠ 0 := by
  induction n using skippedHeads.induct with
  | case1 => simp [skippedHeads]
  | case2 => simp [skippedHeads]
  | case3 n ih => simp [skippedHeads, ih]

/-- A step that leaves the loops alone and notes neither a head nor an end. -/
theorem State.HeadsKept.of_eq (h : st.HeadsKept) (hcourse : st'.course = st.course)
    (hhistory : openHeads st'.history = openHeads st.history) : st'.HeadsKept := by
  have hskipped : st'.skippedLoops = st.skippedLoops := congrArg Course.skippedLoops hcourse
  have hloops : st'.loops = st.loops := congrArg Course.loops hcourse
  rw [HeadsKept, hhistory, hskipped, hloops]
  exact h

/-- An act notes neither the head nor the end of a loop. -/
theorem Act.openHeads_eq {stage : Stage} {failing : Prop} (h : Act stage failing st st') :
    openHeads st'.history = openHeads st.history := by
  cases h with
  | control h => exact congrArg (fun tracked => openHeads tracked.history) h
  | _ => rfl

/-- **The step**: unless there are errors, the open heads of the history stay those of the state. -/
theorem Change.headsKept {stage : Stage} (h : Change stage False st st')
    (hst : st.diagnostics.errorCount ≠ 0 ∨ st.HeadsKept) :
    st'.diagnostics.errorCount ≠ 0 ∨ st'.HeadsKept := by
  rcases hst with herrors | hst
  · exact .inl (Nat.ne_of_gt (Nat.lt_of_lt_of_le (Nat.pos_of_ne_zero herrors) h.errorCount_le))
  cases h with
  | act h => exact .inr (hst.of_eq h.course_eq h.openHeads_eq)
  | abandoned loops h =>
    rcases h with h | h
    · exact h.elim
    · exact .inl h
  | entered hskipped loop =>
    refine .inr ?_
    change Event.entered :: openHeads st.history =
      skippedHeads st.skippedLoops ++ List.replicate (st.loops.length + 1) .entered
    rw [State.HeadsKept, hskipped] at hst
    rw [hst, hskipped]
    rfl
  | nextRound hloops kind iterations =>
    refine .inr ?_
    rw [State.HeadsKept, hloops] at hst
    exact hst
  | @left inner outer hskipped hloops =>
    refine .inr ?_
    change (openHeads st.history).tail =
      skippedHeads st.skippedLoops ++ List.replicate outer.length .entered
    rw [State.HeadsKept, hskipped, hloops] at hst
    rw [hst, hskipped]
    rfl
  | skipped hskipped =>
    refine .inr ?_
    change Event.skipped :: openHeads st.history =
      [Event.skipped] ++ List.replicate st.loops.length .entered
    rw [State.HeadsKept, hskipped] at hst
    rw [hst]
    rfl
  | passedHead hskipped =>
    refine .inr ?_
    change Event.passedHead :: openHeads st.history =
      skippedHeads (st.skippedLoops + 1) ++ List.replicate st.loops.length .entered
    obtain ⟨n, hn⟩ := Nat.exists_eq_succ_of_ne_zero (Nat.ne_of_gt hskipped)
    rw [State.HeadsKept, hn] at hst
    rw [hst, hn]
    rfl
  | passedEnd hskipped =>
    refine .inr ?_
    change (openHeads st.history).tail =
      skippedHeads (st.skippedLoops - 1) ++ List.replicate st.loops.length .entered
    obtain ⟨n, hn⟩ := Nat.exists_eq_succ_of_ne_zero (Nat.ne_of_gt hskipped)
    rw [State.HeadsKept, hn] at hst
    rw [hst, hn]
    cases n with
    | zero => rfl
    | succ n => rfl
  | _ => exact .inr hst

/-- At the end of a pass without open loops, every body that was entered has been left, and the
skipped ones have been left exactly if none is being skipped. -/
theorem State.HeadsKept.reach_ends (h : st.HeadsKept) (hloops : st.loops = []) :
    AllReachEnds .entered st.history ∧ (AllReachEnds .skipped st.history ↔
      st.skippedLoops = 0) := by
  have hopen : openHeads st.history = skippedHeads st.skippedLoops := by
    rw [h, hloops, List.length_nil, List.replicate_zero, List.append_nil]
  rw [allReachEnds_iff rfl, allReachEnds_iff rfl, hopen, skipped_mem_skippedHeads_iff,
    Decidable.not_not]
  exact ⟨entered_not_mem_skippedHeads _, Iff.rfl⟩

/-! ## Whole passes -/

namespace PassM

variable {stage : Stage} {st : State}
variable {main : Nat} {st' : State}

/-- A file leaves no more loops open than there were before it. -/
theorem length_loops_runWith (runFile : Option (Nat → PassM Bool)) (file : Nat) :
    (stateAfter (runWith runFile file stage) st).loops.length ≤ st.loops.length := by
  have hclose : ∀ (st' : State) (finished : Bool),
      (st'.closeFile st finished).loops.length ≤ st.loops.length := by
    intro st' finished
    change (st'.loops.drop (st'.loops.length - st.loops.length)).length ≤ st.loops.length
    rw [List.length_drop]
    omega
  rw [stateAfter, runWith_apply]
  cases runFrom runFile file stage.maxSteps ⟨0, 0⟩ stage (st.openFile file) with
  | ok stopped st' => exact hclose st' true
  | error fault st' => exact hclose st' false

theorem length_loops_runFile (levels file : Nat) :
    (stateAfter (runFile levels file stage) st).loops.length ≤ st.loops.length := by
  cases levels with
  | zero => exact length_loops_runWith none file
  | succ levels => exact length_loops_runWith (some (runFile levels)) file

/-- A pass leaves no loop open. -/
theorem loops_of_settleSource (h : settleSource main stage st = .ok () st') (hst : st.loops = []) :
    st'.loops = [] := by
  obtain ⟨stopped, st₁, hrun, hsettle⟩ := bind_eq_ok h
  have hfile : st₁.loops.length ≤ st.loops.length :=
    stateAfter_of_ok hrun ▸ length_loops_runFile maxIncludes main
  have hacts : Performs (Act stage False) stage settle := settle_serves.performs
  have hloops : st'.loops = st₁.loops := congrArg Course.loops (hacts.course_eq hsettle)
  rw [hst] at hfile
  rw [hloops]
  exact List.eq_nil_of_length_eq_zero (Nat.le_zero.1 hfile)

/-- **The run**: at the end of a pass without errors, the open heads are those of the body that is
being skipped. -/
theorem headsKept_of_settleSource {settings : Settings} {store : SourceStore}
    {diagnostics : Diagnostics}
    (h : settleSource main stage (.initial settings store diagnostics) = .ok () st')
    (herrors : st'.diagnostics.errorCount = 0) : st'.HeadsKept := by
  have hadvances : AdvancesFrom stage (.initial settings store diagnostics) (settleSource main) :=
    settleSource_advances main _
  rw [AdvancesFrom, h] at hadvances
  have hkept := keeps_of_advances (fun _ _ hchange => hchange.headsKept) hadvances (.inr rfl)
  rcases hkept with hkept | hkept | hkept
  · exact absurd herrors hkept
  · exact absurd herrors hkept
  · exact hkept

/-- At the end of a pass without errors, every body that was entered has been left, and the skipped
ones have been left exactly if none is being skipped. -/
theorem reach_ends_of_settleSource {settings : Settings} {store : SourceStore}
    {diagnostics : Diagnostics}
    (h : settleSource main stage (.initial settings store diagnostics) = .ok () st')
    (herrors : st'.diagnostics.errorCount = 0) :
    st'.loops = [] ∧ AllReachEnds .entered st'.history ∧
      (AllReachEnds .skipped st'.history ↔ st'.skippedLoops = 0) :=
  have hloops := loops_of_settleSource h rfl
  ⟨hloops, (headsKept_of_settleSource h herrors).reach_ends hloops⟩

end PassM

namespace Assembler

variable {a a' : Assembler} {path : Text} {output : Output}

/-- **Loops and their ends in a successful assembly.**  In each of the three passes no loop is open
at the end, and every loop whose body was entered has reached its matching end.  The loops without
rounds have reached their matching ends exactly if no body is being skipped when the pass ends: this
is not checked. -/
theorem loops_reach_ends (h : assemble path a = .ok output a') :
    ∃ p : Passes a path, p.Yields output ∧ ∀ st ∈ [p.draft, p.final, p.done],
      st.loops = [] ∧ AllReachEnds .entered st.history ∧
        (AllReachEnds .skipped st.history ↔ st.skippedLoops = 0) := by
  obtain ⟨p⟩ := passes_of_assemble h
  have hyields := p.yields h
  refine ⟨p, hyields, fun st hst => ?_⟩
  rw [List.mem_cons, List.mem_cons, List.mem_singleton] at hst
  rcases hst with rfl | rfl | rfl
  · exact PassM.reach_ends_of_settleSource p.draft_eq p.errorCount_draft
  · exact PassM.reach_ends_of_settleSource p.final_eq hyields.errorCount_final
  · exact PassM.reach_ends_of_settleSource hyields.done_eq hyields.errorCount_done

/-- A loop without rounds around another loop, inside of a loop that is entered. -/
def skippedInside : Assembler :=
  ofSource " .repeat 2\n .db 1\n .repeat 0\n .for n, 1, 3\n .db 2\n .loop\n .loop\n .loop\n"

theorem loops_reach_ends_skippedInside :
    ∃ output a', assemble "main".toList skippedInside = .ok output a' ∧
      ∃ p : Passes skippedInside "main".toList, p.Yields output ∧
        p.done.history.length = 10 ∧ AllReachEnds .entered p.done.history ∧
        (AllReachEnds .skipped p.done.history ↔ p.done.skippedLoops = 0) := by
  have hrun : skippedInside.assemblesBy (fun p => p.done.history.length == 10) = true := by
    decide +kernel
  obtain ⟨output, a', h, q, -, hq⟩ := exists_of_assemblesBy hrun
  obtain ⟨p, hyields, hends⟩ := loops_reach_ends h
  have hdone := hends p.done (by simp)
  rw [Subsingleton.elim q p, beq_iff_eq] at hq
  exact ⟨output, a', h, p, hyields, hq, hdone.2⟩

/-- A loop without rounds that has no end. -/
def skippedToTheEnd : Assembler :=
  ofSource " .db 1\n .repeat 0\n .db 2\n"

/-- **The rest of a source is swallowed** by a loop without rounds that has no end, and the assembly
succeeds. -/
theorem loop_without_end_skippedToTheEnd :
    ∃ output a', assemble "main".toList skippedToTheEnd = .ok output a' ∧
      ∃ p : Passes skippedToTheEnd "main".toList, p.Yields output ∧
        p.done.skippedLoops = 1 ∧ ¬AllReachEnds .skipped p.done.history ∧
        output.emissions.map Emission.value = #[1] := by
  have hrun : skippedToTheEnd.assemblesBy (fun p => p.done.skippedLoops == 1 &&
      p.done.emissions.map Emission.value == #[1]) = true := by
    decide +kernel
  obtain ⟨output, a', h, p, hyields, hp⟩ := exists_of_assemblesBy hrun
  rw [Bool.and_eq_true, beq_iff_eq, beq_iff_eq] at hp
  refine ⟨output, a', h, p, hyields, hp.1, fun hends => ?_, ?_⟩
  · have hdone := PassM.reach_ends_of_settleSource hyields.done_eq hyields.errorCount_done
    have hnone := hdone.2.2.1 hends
    rw [hp.1] at hnone
    cases hnone
  · rw [hyields.emissions_eq, hp.2]

end Assembler

end MacroAssembler
