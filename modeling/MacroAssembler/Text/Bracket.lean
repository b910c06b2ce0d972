import MacroAssembler.Text.Literal

/-!
# Brackets

Round and square brackets nest, and a separator counts only outside of all of them and outside of
literals.  The nesting depth is a number carried along the pieces of a text.  Round and square
brackets are not told apart, and a stray closing bracket takes the depth below zero, where no
separator counts any more.
-/

namespace MacroAssembler

namespace Text

/-- A bracket that opens a group. -/
def isOpening (c : Char) : Bool :=
  c == '(' || c == '['

/-- A bracket that closes a group. -/
def isClosing (c : Char) : Bool :=
  c == ')' || c == ']'

/-- The nesting depth behind a piece. -/
def depthAfter (depth : Int) : Piece → Int
  | .char c => if isOpening c then depth + 1 else if isClosing c then depth - 1 else depth
  | .literal _ _ | .unclosed _ => depth

/-- The text up to the first separator at depth zero, and the texts between the later ones. -/
def splitPieces (sep : Char) (depth : Int) : List Piece → Text × List Text
  | [] => ([], [])
  | p :: ps =>
    let (part, parts) := splitPieces sep (depthAfter depth p) ps
    if p = .char sep ∧ depth = 0 then ([], part :: parts) else (p.text ++ part, parts)

/-- The parts of a text between the separators outside of literals and brackets; never empty. -/
def splitTopLevel (sep : Char) (text : Text) : List Text :=
  let (part, parts) := splitPieces sep 0 (pieces text)
  part :: parts

/-- The arguments of a directive, separated by commas.  A blank text holds none. -/
def arguments (text : Text) : List Text :=
  if (trim text).isEmpty then [] else (splitTopLevel ',' text).map trim

/-- Whether the pieces close `depth` brackets and whatever they open themselves, and leave no
double quote open. -/
def closesAll : (depth : Nat) → List Piece → Bool
  | depth, [] => depth == 0
  | depth, .literal _ _ :: ps => closesAll depth ps
  | depth, .unclosed quote :: ps => quote != '"' && closesAll depth ps
  | depth, .char c :: ps =>
    if isOpening c then closesAll (depth + 1) ps
    else if isClosing c then
      match depth with
      | 0 => false
      | depth + 1 => closesAll depth ps
    else closesAll depth ps

/-- Whether every bracket outside of literals is matched and every double quote closed. -/
def balanced (text : Text) : Bool :=
  closesAll 0 (pieces text)

/-- The text without the blanks outside of literals. -/
def squeeze (text : Text) : Text :=
  (pieces text).flatMap fun
    | .char c => if isBlank c then [] else [c]
    | p => p.text

/-- The text in front of the first round bracket that closes depth one, and the text after it. -/
def closePieces (depth : Int) : List Piece → Option (Text × Text)
  | [] => none
  | p :: ps =>
    if p = .char ')' ∧ depth = 1 then some ([], ofPieces ps)
    else (closePieces (depthAfter depth p) ps).map fun (inner, after) => (p.text ++ inner, after)

/-- For a text that starts with a round bracket, what stands inside of it and what follows it;
nothing if it is never closed. -/
def bracketed (text : Text) : Option (Text × Text) :=
  closePieces 1 ((pieces text).drop 1)

/-- The texts between the commas inside of an argument list's brackets; none if it is blank. -/
def listItems (inner : Text) : List Text :=
  if (trim inner).isEmpty then [] else splitTopLevel ',' inner

end Text

end MacroAssembler
