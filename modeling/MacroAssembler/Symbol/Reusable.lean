import MacroAssembler.Number.Numeral

/-!
# Reusable labels

A reusable label has no name of its own and may be defined any number of times.  A run of `+`
signs is referred to from in front of it, a run of `-` signs from behind it, and runs of different
lengths are different labels.  A bookmark `@` is referred to by its distance from the last one.

A pass records the definitions in the order in which it meets them.  Those behind the current
position are in the pass's own record.  Those ahead are looked up in the record of the pass before,
at the place in the sequence that the current position has reached.
-/

namespace MacroAssembler

/-- The direction in which a reusable label is looked for. -/
inductive Polarity where
  | forward
  | backward
  | bookmark
  deriving DecidableEq, Repr

/-- A reference to a reusable label, the text between braces. -/
structure ReusableRef where
  polarity : Polarity
  run : Nat
  offset : Int
  deriving DecidableEq, Repr

namespace ReusableRef

/-- The polarity and length of a run of equal signs. -/
def ofRun (text : Text) : Option (Polarity × Nat) :=
  match text with
  | [] => none
  | c :: _ =>
    if text.all (· == c) then
      match c with
      | '+' => some (.forward, text.length)
      | '-' => some (.backward, text.length)
      | _ => none
    else none

/-- The label that a text in label position defines, if it is a reusable one. -/
def ofDefinition (text : Text) : Option (Polarity × Nat) :=
  if text = ['@'] then some (.bookmark, 1) else ofRun text

/-- The reference written between braces. -/
def read (text : Text) : Option ReusableRef :=
  match Text.trim text with
  | '@' :: offset =>
    match Text.trim offset with
    | [] => some ⟨.bookmark, 1, 0⟩
    | offset =>
      (readSigned (Text.trim ((Text.after? ['+'] offset).getD offset))).map (⟨.bookmark, 1, ·⟩)
  | text => (ofRun text).map fun (polarity, run) => ⟨polarity, run, 0⟩

end ReusableRef

/-- One definition of a reusable label. -/
structure ReusableDef where
  polarity : Polarity
  run : Nat
  value : Float

/-- The reusable labels of a pass, in the order of their definitions. -/
structure ReusableLabels where
  defs : Array ReusableDef := #[]

namespace ReusableLabels

/-- The record after one more definition. -/
def define (labels : ReusableLabels) (polarity : Polarity) (run : Nat) (value : Float) :
    ReusableLabels :=
  ⟨labels.defs.push ⟨polarity, run, value⟩⟩

/-- The values of all the definitions of one label. -/
def instances (labels : ReusableLabels) (polarity : Polarity) (run : Nat) : List Float :=
  labels.defs.toList.filterMap fun d =>
    if d.polarity = polarity ∧ d.run = run then some d.value else none

/-- The place of the definition that a reference means among all definitions of its label.  It is
counted from the number of definitions met so far. -/
def ordinal (labels : ReusableLabels) (target : ReusableRef) : Option Nat :=
  let met := (labels.instances target.polarity target.run).length
  let index : Int :=
    match target.polarity with
    | .forward => met
    | .backward => met - 1
    | .bookmark => met - 1 + target.offset
  if index < 0 then none else some index.toNat

/-- The place of the definition that a reference means, if it lies ahead. -/
def ahead? (labels : ReusableLabels) (target : ReusableRef) : Option Nat :=
  (labels.ordinal target).filter fun index =>
    (labels.instances target.polarity target.run).length ≤ index

/-- The value a reference has now: that of the definition it means, taken from the earlier pass
when it lies ahead. -/
def resolve (current previous : ReusableLabels) (target : ReusableRef) : Option Float :=
  (current.ordinal target).bind fun index =>
    (current.instances target.polarity target.run)[index]? <|>
      (previous.instances target.polarity target.run)[index]?

end ReusableLabels

end MacroAssembler
