import MacroAssembler.Directive.Name
import MacroAssembler.Pass.Evaluate

/-!
# Messages and breakpoints

They only take effect in the assembling pass, when every label has its final value.
-/

namespace MacroAssembler

namespace NoticeDirective

open PassM

/-- A number as it stands in a message: without a fraction it is written as an integer. -/
def numberText (value : Float) : Text :=
  if Value.isWhole value then (toString (Value.toWord value)).toList else Value.toText value

/-- One part of a message. -/
def part (arg : Text) : PassM Text := do
  match Text.unquoteString arg with
  | some text => return text
  | none => return numberText (← eval arg)

/-- Joins strings and the values of expressions. -/
def compose (rest : Text) : PassM String := do
  return String.ofList (← (Text.arguments rest).mapM part).flatten

/-- Remembers the current place for a debugger. -/
def addBreakpoint : PassM Unit := do
  let st ← get
  match st.location with
  | none => pure ()
  | some location =>
    let address := (st.address % addressSpace).toNat
    set { st with breakpoints := st.breakpoints.push ⟨address, st.pages.current, location⟩ }

/-- Executes a directive that tells something. -/
def run (d : NoticeDirective) (rest : Text) : PassM Unit := do
  if (← read).kind.isLabels then return
  else
    match d with
    | .message => report .message (← compose rest)
    | .warning => report .warning (← compose rest)
    | .failure => misuse (.raised (← compose rest))
    | .breakpoint => addBreakpoint

end NoticeDirective

end MacroAssembler
