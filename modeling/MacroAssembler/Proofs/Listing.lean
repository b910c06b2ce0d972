import MacroAssembler.Proofs.Alike
import MacroAssembler.Proofs.Visit

/-!
# Listings

A `Listing` is a text of data statements and of loops with a number of rounds, one inside of the
other.  It has the shape of a tree, where the statements of a source only have an order.

`unroll` takes a listing as it is meant: it works out the number of rounds of a loop when it comes
to the loop, and then takes the body that many times.  There is no jump, no stack of open loops and
no body to skip.  It returns the data statements in the order in which it has come to them, and
these alone put out what the whole listing puts out.
-/

namespace MacroAssembler

/-- A statement that is a list of values. -/
structure DataLine where
  wording : Wording
  width : Nat
  bare_eq : wording.bare? = some (.data (.values width))

/-- The head of a loop with a number of rounds. -/
structure LoopHead where
  wording : Wording
  count : Text
  bare_eq : wording.bare? = some (.flow .repeatTimes)
  arguments_eq : Text.arguments wording.operands = [count]

/-- The end of a loop. -/
structure LoopEnd where
  wording : Wording
  bare_eq : wording.bare? = some (.flow .loop)

/-- Data statements and loops, properly nested. -/
inductive Listing where
  | done
  | data (line : DataLine) (rest : Listing)
  | loop (head : LoopHead) (body : Listing) (tail : LoopEnd) (rest : Listing)

namespace DataLine

/-- Executes the directive of a data statement. -/
def run (line : DataLine) : PassM Unit :=
  (DataDirective.values line.width).run line.wording.name line.wording.operands

/-- Puts out a list of values.  One that fails ends a strict assembly. -/
def emit (line : DataLine) : PassM Unit := do
  match ← PassM.observe line.run with
  | .ok () => pure ()
  | .error fault => if (← read).strict then throw fault else pure ()

/-- Puts out several lists of values. -/
def emitAll : List DataLine → PassM Unit
  | [] => pure ()
  | line :: lines => do
    line.emit
    emitAll lines

theorem emit_apply (line : DataLine) (stage : Stage) (st : State) :
    line.emit stage st = match line.run stage st with
      | .ok () st' => .ok () st'
      | .error fault st' => if stage.strict then .error fault st' else .ok () st' := by
  cases hrun : line.run stage st with
  | ok u st' =>
    rw [emit, PassM.bind_of_ok (PassM.observe_of_ok hrun)]
    rfl
  | error fault st' =>
    rw [emit, PassM.bind_of_ok (PassM.observe_of_error hrun)]
    dsimp only
    rw [PassM.read_bind_apply]
    cases stage.strict with
    | true => rfl
    | false => rfl

end DataLine

/-- Does something a number of times, and puts the results one behind the other. -/
def PassM.rounds {α : Type} (part : PassM (List α)) : Nat → PassM (List α)
  | 0 => pure []
  | n + 1 => do
    let first ← part
    let others ← rounds part n
    return first ++ others

namespace Listing

/-- The statements of a listing, in their order. -/
def wordings : Listing → List Wording
  | .done => []
  | .data line rest => line.wording :: rest.wordings
  | .loop head body tail rest =>
    head.wording :: (body.wordings ++ tail.wording :: rest.wordings)

/-- Takes the body of each loop as often as its head says. -/
def unroll : Listing → PassM (List DataLine)
  | .done => pure []
  | .data line rest => do
    line.emit
    let lines ← rest.unroll
    return line :: lines
  | .loop head body _ rest => do
    let count ← PassM.evalInt head.count
    if maxIterations < count then PassM.misuse .endlessLoop
    else
      let rounds ← PassM.rounds body.unroll count.toNat
      let lines ← rest.unroll
      return rounds ++ lines

end Listing

/-! ## What a listing puts out -/

section

variable {stage : Stage} {frame : Frame} {st st' s : State}
variable {lines : List DataLine}

/-- **From states that are alike, a data statement puts out the same.** -/
theorem DataLine.emit_respects (frame : Frame) (line : DataLine) :
    RespectsIn stage (AlikeIn frame stage) Fault.OfData Anything line.emit := by
  refine RespectsIn.bind (RespectsIn.observe (DataDirective.values_respects frame _ _ _))
    fun outcome houtcome => ?_
  cases outcome with
  | ok u => exact RespectsIn.pure trivial
  | error fault =>
    refine RespectsIn.read_bind ?_ fun _ => rfl
    exact iteInduction (fun _ => RespectsIn.throw houtcome) fun _ => RespectsIn.pure trivial

end

end MacroAssembler
