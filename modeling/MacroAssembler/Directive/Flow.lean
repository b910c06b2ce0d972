import MacroAssembler.Directive.Name
import MacroAssembler.Pass.Evaluate

/-!
# Loops

The head of a loop remembers the statement behind it, and the end of the body jumps back there
while there are rounds left.  A loop with no rounds at all is skipped: the statements up to its
end are passed over, and only the heads and the ends of loops among them are counted.
-/

namespace MacroAssembler

/-- Where the execution goes on after a statement. -/
inductive Flow where
  /-- At the next statement. -/
  | next
  /-- At another statement of the file. -/
  | jump (target : Position)
  /-- Nowhere: the source ends here. -/
  | stop
  deriving DecidableEq, Repr

namespace FlowDirective

open PassM

/-- Sets the label that counts the rounds of a loop. -/
def setCounter (name : Text) (value : Float) : PassM Unit := do
  let _ ← defineConstant name value (← get).pages.current

/-- Whether a counter is still on its way to the limit. -/
def goesOn (value limit step : Float) : Bool :=
  (0 < step && value ≤ limit) || (step < 0 && limit ≤ value)

/-- Whether a counter starts beyond its limit. -/
def startsBeyond (value limit step : Float) : Bool :=
  (0 < step && limit < value) || (step < 0 && value < limit)

/-- Passes over the body of a loop. -/
def skipBody : PassM Flow := do
  modify fun st => { st with skippedLoops := 1 }
  record .skipped
  return .next

/-- Opens a loop. -/
def openLoop (loop : OpenLoop) : PassM Flow := do
  modify fun st => { st with loops := loop :: st.loops }
  record .entered
  return .next

/-- The head of a loop with a counter. -/
def beginCount (file : Nat) (resume : Position) (counter startArg limitArg : Text)
    (stepArg : Option Text) : PassM Flow := do
  ofExcept .symbol (checkName counter)
  let start ← eval startArg
  let limit ← eval limitArg
  let step ←
    match stepArg with
    | some arg => eval arg
    | none => pure (if limit < start then -1 else 1)
  if step == 0 then misuse .zeroStep
  else
    setCounter counter start
    if startsBeyond start limit step then skipBody
    else openLoop { file := file, resume := resume, kind := .counting counter start limit step }

/-- The head of a loop with a number of rounds. -/
def beginRepeat (file : Nat) (resume : Position) (countArg : Text) : PassM Flow := do
  let count ← evalInt countArg
  if count ≤ 0 then skipBody
  else openLoop { file := file, resume := resume, kind := .repeating count.toNat }

/-- The end of the body of a loop. -/
def endBody (file : Nat) : PassM Flow := do
  match (← get).loops with
  | [] => misuse .loopOutside
  | inner :: outer =>
    let leave : PassM Unit := modify fun st => { st with loops := outer }
    let goOn (kind : LoopKind) : PassM Unit := modify fun st =>
      { st with loops := { inner with kind := kind, iterations := inner.iterations + 1 } :: outer }
    if inner.file ≠ file then
      leave
      misuse .loopInOtherFile
    else if maxIterations ≤ inner.iterations then
      leave
      misuse .endlessLoop
    else
      match inner.kind with
      | .repeating remaining =>
        if 1 < remaining then
          goOn (.repeating (remaining - 1))
          return .jump inner.resume
        else
          leave
          record .left
          return .next
      | .counting name value limit step =>
        let value := value + step
        if goesOn value limit step then
          goOn (.counting name value limit step)
          setCounter name value
          return .jump inner.resume
        else
          leave
          record .left
          return .next

/-- Executes a directive on the order of execution, in the statement before `resume`. -/
def run (d : FlowDirective) (file : Nat) (resume : Position) (name rest : Text) : PassM Flow :=
  let args := Text.arguments rest
  match d, args with
  | .count, [counter, start, limit] => beginCount file resume counter start limit none
  | .count, [counter, start, limit, step] =>
    beginCount file resume counter start limit (some step)
  | .count, _ => misuse (.argumentCount name 3 4 args.length)
  | .repeatTimes, [times] => beginRepeat file resume times
  | .repeatTimes, _ => misuse (.argumentCount name 1 1 args.length)
  | .loop, _ => endBody file
  | .stop, _ => pure .stop

end FlowDirective

/-- The directive of a statement in a skipped body, behind a label or not. -/
def skippedDirective (text : Text) : Option Directive :=
  let (word, rest) := Text.splitWord text
  match Directive.nameOf word with
  | some name => Directive.ofName name
  | none => Directive.ofWord (Text.splitWord rest).1

/-- The state after a statement of a skipped body was passed over. -/
def State.skip (st : State) (text : Text) : State :=
  match skippedDirective text with
  | some (.flow .count) | some (.flow .repeatTimes) =>
    { st with skippedLoops := st.skippedLoops + 1 }.record .passedHead
  | some (.flow .loop) => { st with skippedLoops := st.skippedLoops - 1 }.record .passedEnd
  | _ => st

end MacroAssembler
