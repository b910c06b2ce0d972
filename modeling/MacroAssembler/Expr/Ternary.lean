import MacroAssembler.Number.Numeral

/-!
# Conditional expressions

`cond ? yes : no` is split at the first question mark and at the colon that belongs to it.  Each
further question mark in between takes the next colon for itself.  A colon may also stand in
front of a name and ask for the page of a label; it does so right after an operator, a question
mark or another colon, and such a colon divides nothing.
-/

namespace MacroAssembler

/-- Whether a colon that follows the character `before`, blanks aside, asks for a page. -/
def asksForPage (before : Char) : Bool :=
  "+-*/%&|^~!<>=?:".toList.contains before || before == Numeral.negativeMark

/-- The texts on either side of the colon that ends the first branch.  `before` is the last
character in front of the text that is no blank, `pending` the number of inner conditionals whose
colon is still to come. -/
def splitBranches (before : Char) (pending : Nat) : Text → Option (Text × Text)
  | [] => none
  | c :: rest =>
    let before' := if isBlank c then before else c
    let further (pending : Nat) :=
      (splitBranches before' pending rest).map fun (yes, no) => (c :: yes, no)
    if c = '?' then further (pending + 1)
    else if c = ':' ∧ !asksForPage before then
      match pending with
      | 0 => some ([], rest)
      | pending + 1 => further pending
    else further pending

/-- The condition and the two branches of a conditional expression. -/
def splitTernary (text : Text) : Option (Text × Text × Text) := do
  let (cond, rest) ← Text.splitAtFirst '?' text
  let (yes, no) ← splitBranches '?' 0 rest
  return (cond, yes, no)

end MacroAssembler
