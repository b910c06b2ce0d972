import MacroAssembler.Text.Basic

/-!
# Conditional assembly

A conditional block is a chain of branches, of which at most one is assembled.  Blocks nest.  For
each open block the stack remembers whether the block around it is active, whether a branch was
taken already, and whether the final branch has begun.

A condition is consulted only when its outcome matters: when the block around is active, no
earlier branch of the chain was taken and the final branch has not begun.  The operations take the
condition as a computation, so that a condition which is not consulted has no effect.
-/

namespace MacroAssembler

/-- A part of a conditional block where it can not stand. -/
inductive ConditionalError where
  | alternativeOutside
  | alternativeAfterElse
  | elseOutside
  | duplicateElse
  | closeOutside
  deriving DecidableEq, Repr

/-- The text shown for a misplaced part. -/
def ConditionalError.message : ConditionalError → String
  | .alternativeOutside => "elseif without if"
  | .alternativeAfterElse => "elseif after else"
  | .elseOutside => "else without if"
  | .duplicateElse => "duplicate else"
  | .closeOutside => "endif without if"

/-- An open conditional block. -/
structure Branch where
  /-- Whether the current branch is assembled. -/
  active : Bool
  /-- Whether this branch or an earlier one of the chain was taken. -/
  taken : Bool
  /-- Whether the block around is active. -/
  parentActive : Bool
  /-- Whether the final branch has begun. -/
  seenElse : Bool
  deriving DecidableEq, Repr

/-- The open conditional blocks, the innermost first. -/
structure Conditionals where
  branches : List Branch := []
  deriving DecidableEq, Repr

namespace Conditionals

/-- Whether statements here are assembled. -/
def active (s : Conditionals) : Bool :=
  s.branches.head?.all Branch.active

/-- The number of open blocks. -/
def depth (s : Conditionals) : Nat :=
  s.branches.length

/-- Whether an alternative that came now would consult its condition. -/
def alternativePending (s : Conditionals) : Bool :=
  s.branches.head?.any fun b => b.parentActive && !b.taken && !b.seenElse

variable {ε : Type} {m : Type → Type} [Monad m]

/-- Opens a block.  A failure comes with the stack that it leaves. -/
def beginBlock (cond : m (Except ε Bool)) (s : Conditionals) :
    m (EStateM.Result ε Conditionals Unit) := do
  match ← (if s.active then cond else pure (.ok false)) with
  | .ok active => return .ok () ⟨⟨active, active, s.active, false⟩ :: s.branches⟩
  | .error e => return .error e s

/-- Begins an alternative branch. -/
def beginAlternative (fail : ConditionalError → ε) (cond : m (Except ε Bool)) (s : Conditionals) :
    m (EStateM.Result ε Conditionals Unit) :=
  match s.branches with
  | [] => return .error (fail .alternativeOutside) s
  | b :: rest => do
    if b.seenElse then return .error (fail .alternativeAfterElse) s
    else if !b.parentActive || b.taken then
      return .ok () ⟨{ b with active := false } :: rest⟩
    else
      match ← cond with
      | .ok active => return .ok () ⟨{ b with active := active, taken := active } :: rest⟩
      | .error e => return .error e s

/-- Begins the final branch. -/
def beginFinal (fail : ConditionalError → ε) : EStateM ε Conditionals Unit := do
  match (← get).branches with
  | [] => throw (fail .elseOutside)
  | b :: rest =>
    if b.seenElse then throw (fail .duplicateElse)
    else
      set (⟨{ b with seenElse := true, active := b.parentActive && !b.taken, taken := true } ::
        rest⟩ : Conditionals)

/-- Closes the innermost block. -/
def endBlock (fail : ConditionalError → ε) : EStateM ε Conditionals Unit := do
  match (← get).branches with
  | [] => throw (fail .closeOutside)
  | _ :: rest => set (⟨rest⟩ : Conditionals)

/-! ## The stack after a step -/

/-- The stack with one more block. -/
def openBlock (s : Conditionals) (cond : m Bool) : m Conditionals := do
  match ← s.beginBlock (ε := Empty) (Except.ok <$> cond) with
  | .ok _ after | .error _ after => return after

/-- The stack in an alternative branch. -/
def alternative (s : Conditionals) (fail : ConditionalError → m Conditionals) (cond : m Bool) :
    m Conditionals := do
  match ← s.beginAlternative id (Except.ok <$> cond) with
  | .ok _ after => return after
  | .error e _ => fail e

/-- The stack after a step that consults no condition. -/
def afterStep (s : Conditionals) (step : EStateM ConditionalError Conditionals Unit) :
    Except ConditionalError Conditionals :=
  match step s with
  | .ok _ after => .ok after
  | .error e _ => .error e

/-- The stack in the final branch. -/
def otherwise (s : Conditionals) : Except ConditionalError Conditionals :=
  s.afterStep (beginFinal id)

/-- The stack without the innermost block. -/
def close (s : Conditionals) : Except ConditionalError Conditionals :=
  s.afterStep (endBlock id)

end Conditionals

end MacroAssembler
