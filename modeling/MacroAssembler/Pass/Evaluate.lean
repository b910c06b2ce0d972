import MacroAssembler.Expr.Evaluate
import MacroAssembler.Macro.Expand
import MacroAssembler.Pass.State

/-!
# Expressions in a pass

A label is looked up among the symbols of the current pass and then among those of the pass before.
Looking it up is a use of the label, and the assembling pass records the uses.  A labels pass does
not insist on finding every label: it counts the ones it misses and goes on with zero, and an
expression that fails after missing one is zero too.

Macro slots are evaluated *quietly*: names that are missing are an error in every pass, and nothing
is counted or recorded.  The macros are out of the state meanwhile.
-/

namespace MacroAssembler

namespace Stage

variable (stage : Stage) (quiet : Bool)

/-- The state after a use of a label of this pass. -/
def recordReference (st : State) (id : LabelId) : State :=
  match quiet, stage.kind, st.location with
  | false, .assemble, some location =>
    { st with symbols := st.symbols.modifyLabel id fun label =>
        { label with references := label.references.push location } }
  | _, _, _ => st

/-- The state after a use of a label that is only known from the pass before. -/
def recordPending (st : State) (name : Text) : State :=
  match quiet, stage.kind, st.location with
  | false, .assemble, some location =>
    { st with pendingReferences := st.pendingReferences.push ⟨name, st.home, location⟩ }.record
      (.awaited name st.scope location)
  | _, _, _ => st

/-- What is asked of the label that a name denotes, in this pass or in the one before. -/
def lookup (aspect : Aspect) (name : Text) (st : State) : Option Float × State :=
  match st.resolveLabel name with
  | some id =>
    let st := stage.recordReference quiet st id
    ((st.symbols.label? id).map (·.number aspect), st)
  | none =>
    match stage.previousEntry st name with
    | some (id, label) =>
      let number := label.number aspect
      (some number, (stage.recordPending quiet st name).record (.recalled aspect id number))
    | none => (none, st)

/-- The value of a reusable label, in this pass or in the one before. -/
def lookupReusable (target : ReusableRef) (st : State) : Option Float × State :=
  match st.reusable.resolve stage.previousReusable target, st.reusable.ahead? target with
  | some value, some index => (some value, st.record (.anticipated target index value))
  | found, _ => (found, st)

/-- The value of a name that is missing. -/
def unresolved (cause : ExprError) : EvalM State Float := do
  if stage.kind.isLabels && !quiet then
    modify fun st => { st with unresolved := st.unresolved + 1 }
    return 0
  else throw cause

/-- A number that is read off a label. -/
def fromLabel (aspect : Aspect) (name : Text) : EvalM State Float := do
  match ← modifyGet (stage.lookup quiet aspect name) with
  | some number => return number
  | none => stage.unresolved quiet (.unknownLabel name)

/-- What an expression sees of the pass. -/
def environment : Environment State where
  label := stage.fromLabel quiet .value
  page := stage.fromLabel quiet .page
  address st := Value.ofInt st.address
  reusable target := do
    match ← modifyGet (stage.lookupReusable target) with
    | some value => return value
    | none => stage.unresolved quiet (.missingReusable target.polarity target.run)
  sizeOf name := do
    let structs := (← get).structs
    match structs.resolveType name with
    | .ok ty =>
      match structs.sizeOf ty with
      | .ok size => return Float.ofNat size
      | .error e => throw (.unsized e)
    | .error _ => stage.fromLabel quiet .size name
  isDefined name st := (st.resolveLabel name).isSome
  charByte st c := st.charByte c

/-- The value of a macro slot, if it has one. -/
def slotValue (text : Text) : StateM State (Option Float) := fun st =>
  match (evaluate (stage.environment st.quiet) text).run st with
  | .ok value st => (some value, st)
  | .error _ st => (none, st)

end Stage

/-- The state with other macros, quiet or not. -/
def State.withMacros (st : State) (macros : MacroTable) (quiet : Bool) : State :=
  { st with macros := macros, quiet := quiet }

namespace PassM

/-- The value of an expression. -/
def eval (text : Text) : PassM Float := do
  let stage ← read
  let before ← get
  match (evaluate (stage.environment before.quiet) text).run before with
  | .ok value st =>
    set st
    return value
  | .error e st =>
    set st
    if stage.kind.isLabels && before.unresolved < st.unresolved then return 0
    else throw (.expr e)

/-- The value of an expression as an integer.  In a strict assembly it has to be one. -/
def evalInt (text : Text) : PassM Int := do
  let value ← eval text
  if (← read).strict && !Value.isWhole value then throw (.expr (.notIntegral value))
  else return Value.toWord value

/-- The value of an expression as a 32-bit number. -/
def evalAddress (text : Text) : PassM Nat := do
  let value ← evalInt text
  if 0 ≤ value ∧ value < addressSpace then return value.toNat
  else misuse (.outOfRange value)

/-- A text with its macros expanded. -/
def expandMacros (text : Text) : PassM Text := do
  let stage ← read
  let before ← get
  if before.macros.isEmpty then return text
  else
    match (before.macros.expand stage.slotValue text).run (before.withMacros {} true) with
    | .ok text st =>
      set (st.withMacros before.macros before.quiet)
      return text
    | .error e st =>
      set (st.withMacros before.macros before.quiet)
      throw (.macroUse e)

end PassM

end MacroAssembler
