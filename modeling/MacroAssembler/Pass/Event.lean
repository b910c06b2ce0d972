import MacroAssembler.Pass.Fault
import MacroAssembler.Source.File
import MacroAssembler.Symbol.Tree

/-!
# What happens in a pass

A pass keeps a history of the steps that theorems about whole runs speak of.  It is written and
never read: no statement can tell which history it is executed in.

Macro expansion moves the statements of a line.  A position that was recorded earlier is therefore
followed through the expansions since then to find the same statement again.
-/

namespace MacroAssembler

/-- A step in the history of a pass. -/
inductive Event where
  /-- An expression took a number from a label that was only known to the pass before. -/
  | recalled (aspect : Aspect) (id : LabelId) (number : Float)
  /-- A label was given the value of an expression. -/
  | assigned (id : LabelId)
  /-- A label was to be defined for an address, as seen in a scope. -/
  | labelled (name : Text) (scope : Scope) (address : Float)
  /-- A name was to be exported at the end of the pass, by a statement in a scope. -/
  | exported (name : Text) (scope : Scope)
  /-- The use of a label that the pass has not reached yet was put off to the end of the pass, by a
  statement in a scope. -/
  | awaited (name : Text) (scope : Scope) (location : Location)
  /-- A reusable label was defined. -/
  | reached (polarity : Polarity) (run : Nat) (value : Float)
  /-- An expression took the value of a reusable label that the pass has not reached yet from the
  pass before, where the definition has a place among those of the same label. -/
  | anticipated (target : ReusableRef) (index : Nat) (value : Float)
  /-- A labels pass executed a statement as an instruction, and found its row. -/
  | matched (file : Nat) (pos : Position)
  /-- A statement was replaced by the ones that its macros stand for. -/
  | spliced (file : Nat) (pos : Position) (count : Nat)
  /-- The assembling pass executed a statement as an instruction, and took up the row that was left
  with it, or refused to. -/
  | encoded (file : Nat) (pos : Position) (statement : Option Statement)
      (outcome : Except Desync Match)
  /-- The head of a loop was executed, and its body comes next. -/
  | entered
  /-- The head of a loop without rounds was executed, and its body is passed over. -/
  | skipped
  /-- The head of another loop was passed over. -/
  | passedHead
  /-- The end of a loop was passed over: of the skipped one, or of another one in its body. -/
  | passedEnd
  /-- The end of the body of a loop was executed in its last round. -/
  | left
  /-- A random number was drawn. -/
  | drawn

namespace Event

/-- Where a statement of a file stands after a step; nowhere if the step replaced it. -/
def move (file : Nat) (pos : Position) : Event → Option Position
  | .spliced file' at' count =>
    if file' ≠ file ∨ at'.line ≠ pos.line ∨ pos.statement < at'.statement then some pos
    else if pos.statement = at'.statement then none
    else some ⟨pos.line, pos.statement - 1 + count⟩
  | _ => some pos

/-- Where a statement of a file stands after a history, the newest step of which comes first. -/
def follow (file : Nat) (pos : Position) : List Event → Option Position
  | [] => some pos
  | event :: earlier => (follow file pos earlier).bind (event.move file ·)

end Event

/-- Why a statement is passed over. -/
inductive Bypass where
  /-- It is in the body of a macro that is being collected. -/
  | collecting
  /-- It is in the body of a loop without rounds. -/
  | skipping
  /-- It is in a branch that is not active. -/
  | inactive
  deriving DecidableEq, Repr

/-- A statement that was passed over as it is written, without a look for macros in it. -/
structure Taking where
  file : Nat
  pos : Position
  text : Text
  bypass : Bypass

end MacroAssembler
