import MacroAssembler.Directive.Name
import MacroAssembler.Pass.Evaluate

/-!
# Conditional branches

The directives around branches are executed inside of inactive blocks as well, to keep the
nesting straight.  A condition is only looked at when it decides something.
-/

namespace MacroAssembler

namespace BranchTest

/-- Whether there is a macro or a label with a name. -/
def isDefined (name : Text) : PassM Bool := do
  let name := Text.trim name
  if name.isEmpty then PassM.misuse .noName
  else
    let st ← get
    return st.macros.contains name || (st.resolveLabel name).isSome

/-- The outcome of a test. -/
def holds (test : BranchTest) (name : Text) (rest : Text) : PassM Bool := do
  match test with
  | .defined => isDefined rest
  | .undefined => return !(← isDefined rest)
  | .condition =>
    if (Text.trim rest).isEmpty then PassM.misuse (.noCondition name)
    else return (← PassM.eval rest) != 0

end BranchTest

/-- Puts the stack that a change has left in its place.  If the change has failed, so does the
statement. -/
def PassM.putBranches : EStateM.Result Fault Conditionals Unit → PassM Unit
  | .ok _ after => modify fun st => { st with conditionals := after }
  | .error fault after => do
    modify fun st => { st with conditionals := after }
    throw fault

/-- Executes a directive around branches. -/
def BranchDirective.run (d : BranchDirective) (name rest : Text) : PassM Unit := do
  let fail (cause : ConditionalError) : Fault := .directive (.conditional cause)
  let before := (← get).conditionals
  match d with
  | .openBlock test =>
    PassM.putBranches (← before.beginBlock (PassM.observe (test.holds name rest)))
  | .alternative test =>
    PassM.putBranches (← before.beginAlternative fail (PassM.observe (test.holds name rest)))
  | .otherwise => PassM.putBranches (Conditionals.beginFinal fail before)
  | .close => PassM.putBranches (Conditionals.endBlock fail before)

end MacroAssembler
