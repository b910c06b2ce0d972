import MacroAssembler.Text.Literal

/-!
# Comments

A semicolon starts a comment that runs to the end of its line.  A slash and a star start one that
runs to the next star and slash, possibly on a later line, and leaves a space behind, so that the
texts on either side stay apart.  Literals are no place for comments.
-/

namespace MacroAssembler

namespace Source

/-- The lines of a text.  A line ends with a line feed, and a carriage return right in front of it
belongs to the line end. -/
def lines (text : Text) : List Text :=
  let parts := Text.splitOn '\n' text
  parts.dropLast.map (Text.dropFinal '\r') ++ parts.getLast?.toList.filter (!·.isEmpty)

/-- A line without its comments, and whether a comment goes on behind it.  `inComment` tells
whether the line starts inside of a comment, and `before` is the character in front of the text. -/
def stripLine (inComment : Bool) (before : Option Char) (text : Text) : Text × Bool :=
  match text with
  | [] => ([], inComment)
  | c :: rest =>
    if inComment then
      if c = '*' ∧ rest.head? = some '/' then
        let (kept, goesOn) := stripLine false (some '/') (rest.drop 1)
        (' ' :: kept, goesOn)
      else stripLine true (some c) rest
    else
      let literal := if Text.opensLiteral before c then Text.closeQuote c rest else none
      match _h : literal with
      | some (body, after) =>
        let (kept, goesOn) := stripLine false (some c) after
        (c :: body ++ c :: kept, goesOn)
      | none =>
        if c = ';' then ([], false)
        else if c = '/' ∧ rest.head? = some '*' then stripLine true (some '*') (rest.drop 1)
        else
          let (kept, goesOn) := stripLine false (some c) rest
          (c :: kept, goesOn)
termination_by text.length
decreasing_by
  · simp only [List.length_drop, List.length_cons]
    omega
  · simp
  · have := Text.length_lt_of_closeQuote (Option.ite_none_right_eq_some.1 _h).2
    simp only [List.length_cons]
    omega
  · simp only [List.length_drop, List.length_cons]
    omega
  · simp

/-- Lines without their comments.  `inComment` tells whether they start inside of one. -/
def stripLines (inComment : Bool) : List Text → List Text
  | [] => []
  | line :: rest =>
    let (kept, goesOn) := stripLine inComment none line
    kept :: stripLines goesOn rest

/-- The lines of a text without their comments. -/
def stripComments (text : Text) : List Text :=
  stripLines false (lines text)

end Source

end MacroAssembler
