import MacroAssembler.Proofs.Visit

/-!
# Moves through a text

The layout of a source, its lines and the statements on a line, decides where a run stands but not
what it comes to.  `textFrom` is the text ahead of a position, statement by statement.  A `Move` is
a step of a run, over a statement or from the end of a line to the next line, and a run goes on from
wherever its moves take it, as long as it is given enough steps.  `Moves` counts them.
-/

namespace MacroAssembler

open Relation

/-! ## The text ahead -/

/-- The statements of a text from a position on. -/
def textFrom (wordings : Array (List Wording)) (pos : Position) : List Wording :=
  (wordings[pos.line]?.getD []).drop pos.statement ++ (wordings.toList.drop (pos.line + 1)).flatten

section

variable {wordings : Array (List Wording)} {pos : Position} {words : List Wording}

theorem flatten_drop_lines (wordings : Array (List Wording)) (line : Nat) :
    (wordings.toList.drop line).flatten =
      wordings[line]?.getD [] ++ (wordings.toList.drop (line + 1)).flatten := by
  cases hline : wordings[line]? with
  | none =>
    have hsize : wordings.toList.length ≤ line := by simpa using hline
    rw [List.drop_eq_nil_of_le hsize, List.drop_eq_nil_of_le (Nat.le_succ_of_le hsize)]
    rfl
  | some words =>
    obtain ⟨hlt, heq⟩ := Array.getElem?_eq_some_iff.1 hline
    rw [List.drop_eq_getElem_cons (by simpa using hlt), List.flatten_cons,
      Array.getElem_toList, heq]
    rfl

theorem textFrom_of_lineEnd (hline : wordings[pos.line]? = some words)
    (hend : words.length ≤ pos.statement) :
    textFrom wordings pos = textFrom wordings ⟨pos.line + 1, 0⟩ := by
  rw [textFrom, textFrom, hline, Option.getD_some, List.drop_eq_nil_of_le hend, List.nil_append,
    List.drop_zero, flatten_drop_lines]

theorem textFrom_of_statement {w : Wording} (hline : wordings[pos.line]? = some words)
    (hw : words[pos.statement]? = some w) :
    textFrom wordings pos = w :: textFrom wordings pos.next := by
  obtain ⟨hlt, heq⟩ := List.getElem?_eq_some_iff.1 hw
  rw [textFrom, textFrom, hline, Option.getD_some, List.drop_eq_getElem_cons hlt, heq]
  rfl

theorem textFrom_of_none (hline : wordings[pos.line]? = none) : textFrom wordings pos = [] := by
  have hsize : wordings.toList.length ≤ pos.line := by simpa using hline
  rw [textFrom, hline, List.drop_eq_nil_of_le (Nat.le_succ_of_le hsize), Option.getD_none,
    List.drop_nil]
  rfl

end

/-! ## Moves -/

/-- Where a run is, and what it has worked out. -/
structure Place where
  pos : Position
  st : State

/-- A step of a run: from the end of a line to the next one, or over a statement. -/
inductive Move (runFile : Option (Nat → PassM Bool)) (file : Nat) (stage : Stage) :
    Place → Place → Prop
  | lineEnd {pos : Position} {st : State} {words : List Wording}
      (hline : (st.store.wordings file)[pos.line]? = some words)
      (hend : words.length ≤ pos.statement) :
      Move runFile file stage ⟨pos, st⟩ ⟨⟨pos.line + 1, 0⟩, st⟩
  | visit {pos target : Position} {st : State} {w : Wording} {v : Visit}
      (hw : st.store.wordingAt file pos = some w) (hv : visit runFile file stage pos st = v)
      (htarget : v.target? stage.strict = some target) :
      Move runFile file stage ⟨pos, st⟩ ⟨target, v.after⟩

section

variable {runFile : Option (Nat → PassM Bool)} {file : Nat} {stage : Stage}

namespace Move

variable {pos target : Position} {st st' : State} {w : Wording}

theorem next (hw : st.store.wordingAt file pos = some w)
    (hrun : PassM.statement runFile file pos stage (st.locate file pos) = .ok .next st') :
    Move runFile file stage ⟨pos, st⟩ ⟨pos.next, st'⟩ := by
  have hv : MacroAssembler.visit runFile file stage pos st = ⟨pos, .ok .next, st'⟩ := by
    rw [MacroAssembler.visit, hrun]
  exact visit hw hv rfl

theorem jump (hw : st.store.wordingAt file pos = some w)
    (hrun : PassM.statement runFile file pos stage (st.locate file pos) =
      .ok (.jump target) st') :
    Move runFile file stage ⟨pos, st⟩ ⟨target, st'⟩ := by
  have hv : MacroAssembler.visit runFile file stage pos st = ⟨pos, .ok (.jump target), st'⟩ := by
    rw [MacroAssembler.visit, hrun]
  exact visit hw hv rfl

/-- A statement that fails is passed, unless the assembly is strict. -/
theorem failed {fault : Fault} (hw : st.store.wordingAt file pos = some w)
    (hrun : PassM.statement runFile file pos stage (st.locate file pos) = .error fault st')
    (hfatal : fault.isFatal = false) (hstrict : stage.strict = false) :
    Move runFile file stage ⟨pos, st⟩ ⟨pos.next, st'.report .error fault.message⟩ := by
  have hv : MacroAssembler.visit runFile file stage pos st =
      ⟨pos, .error fault, st'.report .error fault.message⟩ := by
    rw [MacroAssembler.visit, hrun]
    dsimp only
    rw [if_neg (Bool.eq_false_iff.1 hfatal)]
  refine visit hw hv ?_
  rw [Visit.target?]
  dsimp only
  rw [hfatal, hstrict]
  rfl

end Move

/-- **The step**: a run goes on from the place that it moves to. -/
theorem PassM.runFrom_of_move {c c' : Place} (h : Move runFile file stage c c') (steps : Nat) :
    runFrom runFile file (steps + 1) c.pos stage c.st =
      runFrom runFile file steps c'.pos stage c'.st := by
  cases h with
  | @lineEnd pos st words hline hend =>
    rw [runFrom_succ]
    rcases st.store.line_cases file pos.line with ⟨_, hnone⟩ | ⟨line, words', hline',
      hwords, hlength⟩
    · rw [hnone] at hline
      cases hline
    · rw [hwords] at hline
      cases hline
      rw [hline']
      dsimp only
      rw [if_pos (hlength ▸ hend)]
  | @visit pos target st w v hw hv htarget =>
    rw [runFrom_succ]
    rw [SourceStore.wordingAt_eq] at hw
    obtain ⟨words, hwords, hw⟩ := Option.bind_eq_some_iff.1 hw
    obtain ⟨hlt, -⟩ := List.getElem?_eq_some_iff.1 hw
    rcases st.store.line_cases file pos.line with ⟨_, hnone⟩ | ⟨line, words', hline',
      hwords', hlength⟩
    · rw [hnone] at hwords
      cases hwords
    · rw [hwords'] at hwords
      cases hwords
      rw [hline', hv]
      dsimp only
      rw [if_neg (Nat.not_le_of_lt (hlength ▸ hlt)), htarget]

/-- **The run**: a run goes on from wherever its moves take it. -/
theorem PassM.runFrom_of_moves {c c' : Place} (h : ReflTransGen (Move runFile file stage) c c') :
    ∃ cost, ∀ steps, runFrom runFile file (steps + cost) c.pos stage c.st =
      runFrom runFile file steps c'.pos stage c'.st := by
  induction h using ReflTransGen.head_induction_on with
  | refl => exact ⟨0, fun _ => rfl⟩
  | @head c c₁ hmove _ ih =>
    obtain ⟨cost, hgo⟩ := ih
    refine ⟨cost + 1, fun steps => ?_⟩
    rw [← Nat.add_assoc, runFrom_of_move hmove, hgo]

/-! ## Numbers of moves -/

/-- A run gets from a place to another in at most a number of moves. -/
inductive Moves (runFile : Option (Nat → PassM Bool)) (file : Nat) (stage : Stage) :
    (cost : Nat) → Place → Place → Prop
  | refl {cost : Nat} {c : Place} : Moves runFile file stage cost c c
  | head {cost : Nat} {c c₁ c' : Place} (h : Move runFile file stage c c₁)
      (rest : Moves runFile file stage cost c₁ c') : Moves runFile file stage (cost + 1) c c'

namespace Moves

variable {cost cost' : Nat} {c c' c'' : Place}

theorem mono (h : Moves runFile file stage cost c c') (hle : cost ≤ cost') :
    Moves runFile file stage cost' c c' := by
  induction h generalizing cost' with
  | refl => exact .refl
  | head hmove _ ih =>
    obtain ⟨left, rfl⟩ := Nat.exists_eq_add_of_le' (Nat.le_of_succ_le hle)
    cases left with
    | zero => exact absurd hle (by omega)
    | succ left =>
      rw [Nat.succ_add]
      exact .head hmove (ih (Nat.le_add_left _ _))

theorem trans (h : Moves runFile file stage cost c c')
    (h' : Moves runFile file stage cost' c' c'') :
    Moves runFile file stage (cost + cost') c c'' := by
  induction h with
  | refl => exact h'.mono (Nat.le_add_left _ _)
  | head hmove _ ih =>
    rw [Nat.succ_add]
    exact .head hmove (ih h')

theorem tail (h : Moves runFile file stage cost c c') (hmove : Move runFile file stage c' c'') :
    Moves runFile file stage (cost + 1) c c'' :=
  h.trans (.head hmove .refl)

end Moves

/-- A run gets to the next statement of its text, or behind the last line. -/
theorem exists_moves {wordings : Array (List Wording)} {st : State}
    (hwordings : st.store.wordings file = wordings) (pos : Position) :
    ∃ pos', Moves runFile file stage wordings.size ⟨pos, st⟩ ⟨pos', st⟩ ∧
      textFrom wordings pos' = textFrom wordings pos ∧
      (wordings[pos'.line]? = none ∨ ∃ w, st.store.wordingAt file pos' = some w ∧
        textFrom wordings pos' = w :: textFrom wordings pos'.next) := by
  suffices h : ∀ left pos, wordings.size - pos.line = left →
      ∃ pos', Moves runFile file stage left ⟨pos, st⟩ ⟨pos', st⟩ ∧
        textFrom wordings pos' = textFrom wordings pos ∧
        (wordings[pos'.line]? = none ∨ ∃ w, st.store.wordingAt file pos' = some w ∧
          textFrom wordings pos' = w :: textFrom wordings pos'.next) by
    obtain ⟨pos', hmoves, hpos'⟩ := h _ pos rfl
    exact ⟨pos', hmoves.mono (Nat.sub_le _ _), hpos'⟩
  intro left
  induction left with
  | zero =>
    intro pos hleft
    have hline : wordings[pos.line]? = none := Array.getElem?_eq_none (Nat.le_of_sub_eq_zero hleft)
    exact ⟨pos, .refl, rfl, Or.inl hline⟩
  | succ left ih =>
    intro pos hleft
    cases hline : wordings[pos.line]? with
    | none => exact ⟨pos, .refl, rfl, Or.inl hline⟩
    | some words =>
      by_cases hend : words.length ≤ pos.statement
      · have hmove : Move runFile file stage ⟨pos, st⟩ ⟨⟨pos.line + 1, 0⟩, st⟩ :=
          .lineEnd (hwordings ▸ hline) hend
        obtain ⟨pos', hmoves, htext, hpos'⟩ := ih ⟨pos.line + 1, 0⟩ (by dsimp only; omega)
        refine ⟨pos', .head hmove hmoves, ?_, hpos'⟩
        rw [htext, textFrom_of_lineEnd hline hend]
      · have hw := List.getElem?_eq_getElem (Nat.lt_of_not_le hend)
        refine ⟨pos, .refl, rfl, Or.inr ⟨_, ?_, textFrom_of_statement hline hw⟩⟩
        rw [SourceStore.wordingAt_eq, hwordings, hline]
        exact hw

end

end MacroAssembler
