import MacroAssembler.Proofs.Statement

/-!
# Statements that are passed over

A statement that is passed over has hardly an effect.  It goes into the body of the macro that is
being collected; it is counted if it begins or ends a loop in a body that is being skipped; in a
branch that is not active only the directives around branches count.  So two texts may be passed
over alike though they say something else, and a statement may be replaced by another one where it
is passed over.
-/

namespace MacroAssembler

/-! ## Words -/

namespace Text

/-- The blanks at the end of a text. -/
theorem exists_trimEnd_append (text : Text) :
    ∃ blanks, text = trimEnd text ++ blanks ∧ ∀ c ∈ blanks, isBlank c = true := by
  refine ⟨(text.reverse.takeWhile isBlank).reverse, ?_, fun c hc => ?_⟩
  · rw [trimEnd, ← List.reverse_append, List.takeWhile_append_dropWhile, List.reverse_reverse]
  · rw [List.mem_reverse] at hc
    exact List.all_eq_true.1 List.all_takeWhile c hc

theorem takeWhile_trimEnd (text : Text) :
    (trimEnd text).takeWhile (!isBlank ·) = text.takeWhile (!isBlank ·) := by
  obtain ⟨blanks, hsplit, hblanks⟩ := exists_trimEnd_append text
  have hnone : blanks.takeWhile (!isBlank ·) = [] := by
    cases blanks with
    | nil => rfl
    | cons c rest =>
      rw [List.takeWhile_cons, hblanks c List.mem_cons_self]
      rfl
  have hwhole : text.takeWhile (!isBlank ·) =
      (trimEnd text ++ blanks).takeWhile (!isBlank ·) := by rw [← hsplit]
  rw [hwhole, List.takeWhile_append, hnone, List.append_nil]
  split
  next hall => exact (List.takeWhile_prefix _).eq_of_length hall
  next => rfl

/-- The blanks around a text do not change its first word. -/
theorem splitWord_trim_fst (text : Text) : (splitWord (trim text)).1 = (splitWord text).1 := by
  have hword : ∀ text, (splitWord text).1 = (trimStart text).takeWhile (!isBlank ·) := fun _ => rfl
  rw [hword, hword, trim, ← takeWhile_trimEnd (trimStart text)]
  cases h : trimEnd (trimStart text) with
  | nil => rfl
  | cons c rest =>
    -- there is no blank at the start any more
    have hstart : isBlank c = false := by
      obtain ⟨blanks, hsplit, -⟩ := exists_trimEnd_append (trimStart text)
      rw [h, trimStart] at hsplit
      have hhead := List.head?_dropWhile_not isBlank text
      rw [hsplit] at hhead
      exact hhead
    rw [trimStart, List.dropWhile_cons, hstart, if_neg Bool.false_ne_true]

end Text

/-! ## Texts that are passed over alike -/

/-- The directive on loops in a statement of a body that is being skipped. -/
def loopMark (text : Text) : Option FlowDirective :=
  match skippedDirective text with
  | some (.flow d) => some d
  | _ => none

/-- A statement, if it is a directive around branches. -/
def branchText (text : Text) : Option Text :=
  match Directive.ofWord (Text.splitWord text).1 with
  | some (.branch _) => some text
  | _ => none

/-- Two texts are passed over in the same way. -/
def Bypass.Alike (bypass : Bypass) (x y : Text) : Prop :=
  match bypass with
  | .collecting => Text.trim x = Text.trim y
  | .skipping => loopMark (Text.trim x) = loopMark (Text.trim y)
  | .inactive => branchText (Text.trim x) = branchText (Text.trim y)

instance (bypass : Bypass) (x y : Text) : Decidable (bypass.Alike x y) :=
  match bypass with
  | .collecting => inferInstanceAs (Decidable (Text.trim x = Text.trim y))
  | .skipping => inferInstanceAs (Decidable (loopMark (Text.trim x) = loopMark (Text.trim y)))
  | .inactive => inferInstanceAs (Decidable (branchText (Text.trim x) = branchText (Text.trim y)))

/-- Statements are passed over here. -/
def State.PassesOver (st : State) : Prop :=
  st.longMacro.isSome = true ∨ 0 < st.skippedLoops ∨ st.conditionals.active = false

/-- The state after a directive on loops was passed over in a body that is being skipped. -/
def State.passLoop (st : State) : Option FlowDirective → State
  | some .count | some .repeatTimes =>
    { st with skippedLoops := st.skippedLoops + 1 }.record .passedHead
  | some .loop => { st with skippedLoops := st.skippedLoops - 1 }.record .passedEnd
  | some .stop | none => st

theorem State.skip_eq (st : State) (text : Text) : st.skip text = st.passLoop (loopMark text) := by
  unfold State.skip loopMark
  cases skippedDirective text with
  | none => rfl
  | some d =>
    cases d with
    | flow d => cases d <;> rfl
    | _ => rfl

namespace PassM

variable {stage : Stage} {runFile : Option (Nat → PassM Bool)} {file : Nat} {pos : Position}
  {st : State}

theorem execute_of_collecting (hcollecting : st.longMacro.isSome = true) (text : Text)
    (column0 : Bool) : execute runFile file pos text column0 stage st =
      .ok .next (if (Text.trim text).isEmpty then st else st.collect (Text.trim text)) := by
  rw [execute, PassM.get_bind_apply]
  dsimp only
  rw [if_pos hcollecting]
  split
  · rfl
  · rfl

theorem execute_of_skipping (hcollecting : ¬st.longMacro.isSome = true)
    (hloops : 0 < st.skippedLoops)
    (text : Text) (column0 : Bool) : execute runFile file pos text column0 stage st =
      .ok .next (st.skip (Text.trim text)) := by
  rw [execute, PassM.get_bind_apply]
  dsimp only
  rw [if_neg hcollecting, if_pos hloops]
  split
  next hempty =>
    rw [List.isEmpty_iff.1 hempty]
    rfl
  next => rfl

/-- What is done for a statement of a branch that is not active. -/
def branch (text : Option Text) : PassM Unit :=
  match text with
  | none => pure ()
  | some text =>
    match Directive.ofWord (Text.splitWord text).1 with
    | some (.branch d) =>
      d.run ((Directive.nameOf (Text.splitWord text).1).getD []) (Text.splitWord text).2
    | _ => pure ()

theorem execute_of_inactive (hcollecting : ¬st.longMacro.isSome = true)
    (hloops : ¬0 < st.skippedLoops)
    (hactive : st.conditionals.active = false) (text : Text) (column0 : Bool) :
    execute runFile file pos text column0 stage st =
      (do branch (branchText (Text.trim text)); return .next : PassM Flow) stage st := by
  rw [execute, PassM.get_bind_apply]
  dsimp only
  rw [if_neg hcollecting, if_neg hloops, hactive, if_neg Bool.false_ne_true]
  split
  next hempty =>
    rw [List.isEmpty_iff.1 hempty]
    rfl
  next =>
    unfold branchText
    cases hword : Directive.ofWord (Text.splitWord (Text.trim text)).1 with
    | none => rfl
    | some d =>
      cases d with
      | branch d =>
        dsimp only [branch]
        rw [hword]
      | _ => rfl

/-- **Texts that are passed over alike come to the same.** -/
theorem execute_of_alike (hover : st.PassesOver) {x y : Text} (h : st.bypass.Alike x y)
    (column0 column0' : Bool) : execute runFile file pos x column0 stage st =
      execute runFile file pos y column0' stage st := by
  unfold State.bypass at h
  by_cases hcollecting : st.longMacro.isSome = true
  · rw [if_pos hcollecting] at h
    have htrim : Text.trim x = Text.trim y := h
    rw [execute_of_collecting hcollecting, execute_of_collecting hcollecting, htrim]
  rw [if_neg hcollecting] at h
  by_cases hloops : 0 < st.skippedLoops
  · rw [if_pos hloops] at h
    have hmark : loopMark (Text.trim x) = loopMark (Text.trim y) := h
    rw [execute_of_skipping hcollecting hloops, execute_of_skipping hcollecting
      hloops, State.skip_eq, State.skip_eq, hmark]
  rw [if_neg hloops] at h
  have hbranch : branchText (Text.trim x) = branchText (Text.trim y) := h
  have hactive : st.conditionals.active = false := by
    rcases hover with hover | hover | hover
    · exact absurd hover hcollecting
    · exact absurd hover hloops
    · exact hover
  rw [execute_of_inactive hcollecting hloops hactive,
    execute_of_inactive hcollecting hloops hactive, hbranch]

/-- Two statements come to the same in a state: they have the same wording, or they are passed over
alike. -/
def SameIn (st : State) (s s' : Statement) : Prop :=
  s'.wording = s.wording ∨ st.PassesOver ∧ st.bypass.Alike s.text s'.text

theorem execute_of_sameIn {s s' : Statement} (h : SameIn st s s') :
    execute runFile file pos s'.text s'.column0 stage st =
      execute runFile file pos s.text s.column0 stage st := by
  rcases h with hwording | ⟨hover, halike⟩
  · have htext : s'.text = s.text := congrArg Wording.text hwording
    have hcolumn : s'.column0 = s.column0 := congrArg Wording.column0 hwording
    rw [htext, hcolumn]
  · exact (execute_of_alike hover halike _ _).symm

/-! ## Expansion -/

/-- A statement that may be executed as an alternative is a directive around branches. -/
theorem branchText_of_isAlternative {text : Text} (h : Command.isAlternative text = true) :
    branchText (Text.trim text) = some (Text.trim text) := by
  rw [Command.isAlternative, decide_eq_true_eq, ← Text.splitWord_trim_fst] at h
  rw [branchText, h]

theorem isAlternative_of_alike {x y : Text} (h : Bypass.inactive.Alike x y)
    (hy : Command.isAlternative y = true) : Command.isAlternative x = true := by
  have hx : branchText (Text.trim x) = some (Text.trim y) :=
    h.trans (branchText_of_isAlternative hy)
  have htrim : Text.trim x = Text.trim y := by
    unfold branchText at hx
    split at hx
    · exact Option.some.inj hx
    · cases hx
  rw [Command.isAlternative, ← Text.splitWord_trim_fst, ← htrim, Text.splitWord_trim_fst] at hy
  exact hy

/-- What is passed over as it is written stays so where something alike stands in its place. -/
theorem unexpanded_of_alike {w : Surroundings} {s s' : Statement}
    (hs : st.store.statementAt file pos = some s) (hwritten : s.expanded = false)
    (h : unexpanded st file pos = none) (hs' : w.store.statementAt file pos = some s')
    (halike : st.bypass.Alike s.text s'.text) :
    unexpanded (st.within w) file pos = none := by
  have hfile : (st.store.file file).statement? pos = some s := hs
  have hfile' : ((st.within w).store.file file).statement? pos = some s' := hs'
  unfold unexpanded at h ⊢
  by_cases hskip : (st.longMacro.isSome || decide (0 < st.skippedLoops)) = true
  · exact if_pos hskip
  have hinactive : st.bypass = .inactive := by
    rw [Bool.or_eq_true, decide_eq_true_eq, not_or] at hskip
    rw [State.bypass, if_neg hskip.1, if_neg hskip.2]
  rw [hinactive] at halike
  rw [if_neg hskip, hfile, Option.filter_some] at h
  refine (if_neg hskip).trans ?_
  rw [hfile', Option.filter_some]
  have hidle : (st.conditionals.active ||
      st.conditionals.alternativePending && Command.isAlternative s.text) = false := by
    simpa [hwritten] using h
  rw [Bool.or_eq_false_iff] at hidle
  obtain ⟨hactive, halternative⟩ := hidle
  have halternative' : (st.conditionals.alternativePending && Command.isAlternative s'.text) =
      false := by
    cases hy : Command.isAlternative s'.text with
    | false => exact Bool.and_false _
    | true => rwa [isAlternative_of_alike halike hy] at halternative
  have hidle' : (!s'.expanded && ((st.within w).conditionals.active ||
      (st.within w).conditionals.alternativePending && Command.isAlternative s'.text)) = false := by
    have hor : ((st.within w).conditionals.active ||
        (st.within w).conditionals.alternativePending && Command.isAlternative s'.text) = false :=
      Bool.or_eq_false_iff.2 ⟨hactive, halternative'⟩
    rw [hor, Bool.and_false]
  rw [hidle', if_neg Bool.false_ne_true]

end PassM

end MacroAssembler
