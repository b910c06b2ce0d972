import MacroAssembler.Text.Bracket

/-!
# Operand patterns

A pattern is matched against the operands of a statement.  A star takes an expression: a stretch
of text that is not empty and has its brackets and double quotes balanced.  Any other character
stands for itself, ignoring case.  A plus sign in front of a star may be left out when the
expression starts with a minus sign, so that `(IX+*)` also takes `(ix-2)`.

Stars are greedy: of all ways to match, the one in which the first star takes the most is chosen,
then the second star, and so on.
-/

namespace MacroAssembler

namespace Pattern

/-- The first result of `attempt` over the ways to cut a text in two, the longest front first. -/
def longestFront {α : Type} (attempt : (front back : Text) → Option α) (front : Text) :
    Text → Option α
  | [] => attempt front []
  | c :: rest => longestFront attempt (front ++ [c]) rest <|> attempt front (c :: rest)

/-- The texts that the stars of a pattern take, if it matches a text.  The text is given as
written, and letters compare in upper case. -/
def capture : (pattern text : Text) → Option (List Text)
  | [], text => if text.isEmpty then some [] else none
  | '*' :: pattern, text =>
    longestFront (fun front back =>
      if !front.isEmpty && Text.balanced front then (capture pattern back).map (front :: ·)
      else none) [] text
  | p :: pattern, text =>
    if p = '+' ∧ pattern.head? = some '*' ∧ text.head? = some '-' then capture pattern text
    else match text with
      | [] => none
      | c :: text => if p = c.toUpper then capture pattern text else none

end Pattern

end MacroAssembler
