import MacroAssembler.Symbol.Name
import MacroAssembler.Symbol.Reusable

/-!
# What can go wrong in an expression
-/

namespace MacroAssembler

/-- A failure to evaluate an expression. -/
inductive ExprError where
  | empty
  | malformed (text : Text)
  | unknownLabel (name : Text)
  | unknownFunction (name : Text)
  | divideByZero
  | unbalanced (text : Text)
  | unterminated (text : Text)
  /-- What stands between braces is no reference to a reusable label. -/
  | badReusable (text : Text)
  /-- There is no definition for a reference to a reusable label. -/
  | missingReusable (polarity : Polarity) (run : Nat)
  /-- A type has no size, because its definition is broken. -/
  | unsized (cause : SymbolError)
  | notIntegral (value : Float)
  | tooDeep

namespace ExprError

/-- The name of a polarity in messages. -/
def polarityName : Polarity → String
  | .forward => "Forward"
  | .backward => "Backward"
  | .bookmark => "Bookmark"

/-- The text shown for a failure. -/
def message : ExprError → String
  | .empty => "expression expected"
  | .malformed text => s!"malformed expression '{String.ofList text}'"
  | .unknownLabel name => s!"label '{String.ofList name}' not found"
  | .unknownFunction name => s!"unknown function '{String.ofList name}'"
  | .divideByZero => "division by zero"
  | .unbalanced text => s!"unbalanced brackets in '{String.ofList text}'"
  | .unterminated text => s!"unterminated string in '{String.ofList text}'"
  | .badReusable text => s!"invalid reusable label reference '\x7b{String.ofList text}\x7d'"
  | .missingReusable polarity run =>
    s!"invalid reusable label reference '\x7b{polarityName polarity} {run}\x7d'"
  | .unsized cause => s!"malformed expression '{cause.message}'"
  | .notIntegral value => s!"value {String.ofList (Value.toText value)} is not an integer"
  | .tooDeep => "expression nested too deeply"

end ExprError

end MacroAssembler
