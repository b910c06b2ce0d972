import MacroAssembler.Proofs.Expression
import MacroAssembler.Proofs.TextPieces

/-!
# The expansion of macros ends

A template may hold the macro it belongs to, and it may be longer than what it replaces.  An
argument that is compared by value is expanded on the way, whatever the level.  Here the expansion
is written with levels that are counted upwards, nothing to stop it but fuel for nested calls, and a
log of what happens to the templates (`expandLogged`).  With enough fuel it is never cut off and
comes to what `expand` comes to.  Below the last level each nested call takes one of the levels that
are left; from there on templates are refused, and what is still expanded are arguments, which are
shorter than the text they stand in.
-/

namespace MacroAssembler

/-- What happens to the templates in the course of an expansion. -/
inductive ExpansionEvent where
  /-- A template takes the place of a word. -/
  | substituted (level : Nat) (word body : Text)
  /-- A word is too deep for its template. -/
  | refused (level : Nat) (word : Text)
  /-- A nested call finds no fuel. -/
  | cutOff

variable {σ α β : Type}

/-- What may happen on the way to an outcome, which may be a failure: templates are used below level
64, a template is refused only from there on and is then what the failure is about, and nothing is
cut off. -/
def ExpansionEvent.Allowed (failure : Option MacroError) : ExpansionEvent → Prop
  | .substituted level _ _ => level < 64
  | .refused level word => 64 ≤ level ∧ failure = some (.tooDeep word)
  | .cutOff => False

/-- What may happen on the way to a success may happen on the way to anything. -/
theorem ExpansionEvent.Allowed.of_none {event : ExpansionEvent} (h : event.Allowed none)
    (failure : Option MacroError) : event.Allowed failure := by
  cases event with
  | substituted level word body => exact h
  | refused level word => cases h.2
  | cutOff => exact h

namespace MacroTable

variable (table : MacroTable) (eval : Text → StateM σ (Option Float))

/-- The evaluation of slots beside a log. -/
def evalBeside (text : Text) : StateM (σ × List ExpansionEvent) (Option Float) := do
  let s ← get
  let result := eval text s.1
  set (result.2, s.2)
  return result.1

/-- Adds an event to the log. -/
def note (event : ExpansionEvent) : ExpandM (σ × List ExpansionEvent) Unit :=
  modify fun s => (s.1, event :: s.2)

/-- Expands a text at a level.  Each nested call takes some fuel. -/
def expandLogged : (fuel level : Nat) → (text : Text) → ExpandM (σ × List ExpansionEvent) Text
  | 0, _, text => do
    note .cutOff
    return text
  | fuel + 1, level, text =>
    expandTokens table (evalBeside eval) (expandLogged fuel (level + 1))
      (fun word body =>
        if level < maxExpansions then do
          note (.substituted level word body)
          expandLogged fuel (level + 1) body
        else do
          note (.refused level word)
          throw (.tooDeep word))
      text 0 (MacroToken.ofText text)

/-- Expands all the macros in a text, with a log. -/
def expandAllLogged (fuel : Nat) (text : Text) : ExpandM (σ × List ExpansionEvent) Text :=
  if table.isEmpty then return text else expandLogged table eval fuel 0 text

/-- An outcome beside a log. -/
def withLog (log : List ExpansionEvent) : EStateM.Result MacroError σ α →
    EStateM.Result MacroError (σ × List ExpansionEvent) α
  | .ok a s => .ok a (s, log)
  | .error e s => .error e (s, log)

/-- The failure of an outcome. -/
def failure? : EStateM.Result MacroError σ α → Option MacroError
  | .ok _ _ => none
  | .error e _ => some e

/-- With enough fuel, a family of computations comes to the outcome of a computation, and what it
has added to the log by then is allowed. -/
def Logged (m : ExpandM σ α) (n : Nat → ExpandM (σ × List ExpansionEvent) α) : Prop :=
  ∀ s log, ∃ enough new, (∀ event ∈ new, event.Allowed (failure? (m s))) ∧
    ∀ fuel, enough ≤ fuel → n fuel (s, log) = withLog (new ++ log) (m s)

namespace Logged

variable {m : ExpandM σ α} {n : Nat → ExpandM (σ × List ExpansionEvent) α}

theorem accompanied : Accompanied fun {α} (m : ExpandM σ α)
    (n : Nat → ExpandM (σ × List ExpansionEvent) α) => Logged m n where
  pure a := fun s log => ⟨0, [], List.forall_mem_nil _, fun _ _ => rfl⟩
  throw e := fun s log => ⟨0, [], List.forall_mem_nil _, fun _ _ => rfl⟩
  bind := by
    intro α β m n f g hm hf s log
    obtain ⟨enough, new, hnew, hrun⟩ := hm s log
    cases hs : m s with
    | ok a s₁ =>
      obtain ⟨enough', new', hnew', hrun'⟩ := hf a s₁ (new ++ log)
      rw [hs] at hnew hrun
      refine ⟨max enough enough', new' ++ new, ?_, fun fuel hfuel => ?_⟩
      · rw [bind_of_ok hs]
        exact List.forall_mem_append.2 ⟨hnew', fun event hevent => (hnew event hevent).of_none _⟩
      · rw [bind_of_ok hs, List.append_assoc, ← hrun' fuel (by omega)]
        exact bind_of_ok (hrun fuel (by omega))
    | error e s₁ =>
      rw [hs] at hnew hrun
      refine ⟨enough, new, ?_, fun fuel hfuel => ?_⟩
      · rw [bind_of_error hs]
        exact hnew
      · rw [bind_of_error hs]
        exact bind_of_error (hrun fuel hfuel)

/-- An event in front of what is done. -/
theorem note {event : ExpansionEvent} (h : Logged m n)
    (hevent : ∀ s, event.Allowed (failure? (m s))) : Logged m fun fuel => (do
      MacroTable.note event
      n fuel) := by
  intro s log
  obtain ⟨enough, new, hnew, hrun⟩ := h s (event :: log)
  refine ⟨enough, new ++ [event], ?_, fun fuel hfuel => ?_⟩
  · exact List.forall_mem_append.2 ⟨hnew, List.forall_mem_singleton.2 (hevent s)⟩
  · rw [List.append_assoc]
    exact hrun fuel hfuel

/-- A call for which some fuel is taken. -/
theorem call {n' : Nat → ExpandM (σ × List ExpansionEvent) α} (h : Logged m n)
    (hn : ∀ fuel, n' (fuel + 1) = n fuel) : Logged m n' := by
  intro s log
  obtain ⟨enough, new, hnew, hrun⟩ := h s log
  refine ⟨enough + 1, new, hnew, fun fuel hfuel => ?_⟩
  obtain ⟨fuel, rfl⟩ : ∃ k, fuel = k + 1 := ⟨fuel - 1, by omega⟩
  rw [hn]
  exact hrun fuel (by omega)

end Logged

section expansion

variable {table eval}

theorem evalSlot_logged (text : Text) :
    Logged (evalSlot eval text) fun _ => evalSlot (evalBeside eval) text :=
  fun _ _ => ⟨0, [], List.forall_mem_nil _, fun _ _ => rfl⟩

/-- The arguments behind the words of a text are shorter than the text. -/
theorem length_lt_of_read_behind {text : Text} (behind : List MacroToken)
    (hbehind : behind <:+ MacroToken.ofText text) (args : List Text) (length : Nat)
    (h : CallArguments.read (MacroToken.textOf behind) = .list args length) :
    ∀ arg ∈ args, arg.length < text.length := by
  intro arg harg
  have hlength := MacroToken.length_textOf_le hbehind
  rw [MacroToken.textOf_ofText] at hlength
  exact (CallArguments.length_lt_of_read h arg harg).trans_le hlength

/-- Where templates are refused, what is still expanded gets shorter. -/
theorem expandFlat_logged (text : Text) {level : Nat} (hlevel : maxExpansions ≤ level) :
    Logged (expandFlat table eval text) fun fuel => expandLogged table eval fuel level text := by
  induction text using expandFlat.induct generalizing level with
  | case1 text ih =>
    refine Logged.call ?_ fun fuel => rfl
    rw [expandFlat]
    refine expandTokens_accompanied Logged.accompanied evalSlot_logged (fun arg harg => ?_)
      (fun word body => ?_) text 0 length_lt_of_read_behind
    · rw [if_pos harg]
      exact ih arg harg (Nat.le_succ_of_le hlevel)
    · simp only [if_neg (Nat.not_lt.2 hlevel)]
      exact (Logged.accompanied.throw _).note fun _ => ⟨hlevel, rfl⟩

/-- Where templates are used, a nested call takes one of the levels that are left. -/
theorem expandAt_logged (levels : Nat) (text : Text) {level : Nat}
    (hlevel : level + levels = maxExpansions) :
    Logged (expandAt table eval levels text) fun fuel => expandLogged table eval fuel
      level text := by
  induction levels generalizing level text with
  | zero => exact expandFlat_logged text (Nat.le_of_eq hlevel.symm)
  | succ levels ih =>
    refine Logged.call ?_ fun fuel => rfl
    have hlt : level < maxExpansions := by omega
    refine expandTokens_accompanied Logged.accompanied evalSlot_logged (fun arg _ => ?_)
      (fun word body => ?_) text 0 length_lt_of_read_behind
    · exact ih arg (by omega)
    · simp only [if_pos hlt]
      exact (ih body (by omega)).note fun _ => hlt

end expansion

/-- **The expansion of macros ends**, whatever the macros, the text and the evaluation of slots:
with enough fuel for nested calls it is not cut off, and more fuel makes no difference.  No template
is used at level 64 or deeper.  Where one would be, the expansion fails for that reason. -/
theorem expand_terminates (table : MacroTable) (eval : Text → StateM σ (Option Float)) (text : Text)
    (s : σ) : ∃ enough log,
      (∀ more, expandAllLogged table eval (enough + more) text (s, []) =
        withLog log (table.expand eval text s)) ∧
      ∀ event ∈ log, event.Allowed (failure? (table.expand eval text s)) := by
  have hlogged :
      Logged (table.expand eval text) fun fuel => expandAllLogged table eval fuel text := by
    unfold expand expandAllLogged
    by_cases hempty : table.isEmpty
    · simp only [if_pos hempty]
      exact Logged.accompanied.pure text
    · simp only [if_neg hempty]
      exact expandAt_logged maxExpansions text (Nat.zero_add _)
  obtain ⟨enough, log, hlog, hrun⟩ := hlogged s []
  refine ⟨enough, log, fun more => ?_, hlog⟩
  rw [List.append_nil] at hrun
  exact hrun (enough + more) (Nat.le_add_right ..)

/-- A macro that holds itself is refused at the last level. -/
example : failure? (expand (σ := Unit) { macros := [("m".toList, [⟨none, "1+m".toList⟩])] }
    (fun _ => pure none) "m".toList ()) = some (.tooDeep "m".toList) := by
  decide +kernel

end MacroTable

end MacroAssembler
