import MacroAssembler.Directive.Name
import MacroAssembler.Symbol.Name

/-!
# What a statement asks for

A statement is a directive, an assignment, an instruction, or a label with another statement
behind it.  What it is shows in its text alone.  A label is known by a colon behind it, or by
standing at the very start of its line.

The statement behind a label is shorter than the whole, which is why taking a statement apart
label by label ends.
-/

namespace MacroAssembler

/-- What a statement asks for. -/
inductive Command where
  | blank
  /-- A directive by its name, and its operands. -/
  | directive (name rest : Text)
  | assign (name value : Text)
  /-- A label for the current address, and what stands behind it. -/
  | label (name rest : Text)
  | instruct (mnemonic operands : Text)
  deriving DecidableEq, Repr

namespace Command

/-- The name and the value of an assignment, written with an equals sign or with a directive. -/
def assignment (text : Text) : Option (Text × Text) :=
  let (word, rest) := Text.splitWord text
  let (next, value) := Text.splitWord rest
  if Directive.ofWord next = some .equate then some (Text.dropFinal ':' word, value)
  else
    match Text.splitAtFirst '=' text with
    | none => none
    | some (name, value) =>
      if value.head? = some '=' || !isValidName (Text.trim name) then none
      else some (Text.trim name, Text.trim value)

/-- What a text asks for. -/
def ofText (text : Text) (column0 : Bool) : Command :=
  let text := Text.trim text
  if text.isEmpty then .blank
  else
    let word := (Text.splitWord text).1
    let rest := (Text.splitWord text).2
    match Directive.nameOf word with
    | some name => .directive name rest
    | none =>
      match assignment text with
      | some (name, value) => .assign name value
      | none =>
        if column0 || word.getLast? = some ':' then .label (Text.dropFinal ':' word) rest
        else .instruct word rest

/-- What stands behind a label is shorter than the whole. -/
theorem length_lt_of_ofText {text name rest : Text} {column0 : Bool}
    (h : ofText text column0 = .label name rest) : rest.length < text.length := by
  dsimp only [ofText] at h
  split at h
  · cases h
  · rename_i hne
    split at h
    · cases h
    · split at h
      · cases h
      · split at h
        · cases h
          exact Nat.lt_of_lt_of_le (Text.length_splitWord_lt (by simpa using hne))
            (Text.length_trim_le text)
        · cases h

/-- Whether the operands of a statement name macros, behind a label or not. -/
def namesMacros (text : Text) (column0 : Bool) : Bool :=
  let (word, rest) := Text.splitWord text
  let behindLabel := (Directive.nameOf word).isNone && (column0 || word.getLast? = some ':')
  let word := if behindLabel then (Text.splitWord rest).1 else word
  (Directive.ofWord word).any Directive.namesMacros

/-- Whether a statement is an alternative branch with an expression.  It is the one directive
whose expression is read from a block that is not active. -/
def isAlternative (text : Text) : Bool :=
  Directive.ofWord (Text.splitWord text).1 = some (.branch (.alternative .condition))

end Command

end MacroAssembler
