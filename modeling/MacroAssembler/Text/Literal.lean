import MacroAssembler.Text.Basic

/-!
# Literals

A literal is opened by a quote and runs to the next quote of the same kind; a backslash takes the
character after it into the literal.  A double quote always opens a literal.  An apostrophe opens
one unless it is glued to the word in front of it, as in `af'`, where it belongs to the word.

Every scanner of the assembler has to step over literals, and they all agree on what a literal is
by working on the same view of a text: its *pieces*, which are whole literals and the single
characters outside of them.  A quote that opens a literal which is never closed is a piece of its
own; most scanners take it for an ordinary character.  `pieces` loses nothing: the texts of the
pieces, in order, are the text.
-/

namespace MacroAssembler

/-- A stretch of text: a whole literal, a quote whose literal is never closed, or any other
character outside of literals. -/
inductive Piece where
  | literal (quote : Char) (body : Text)
  | unclosed (quote : Char)
  | char (c : Char)
  deriving DecidableEq, Repr

/-- The text of a piece, as written. -/
def Piece.text : Piece → Text
  | .literal quote body => quote :: body ++ [quote]
  | .unclosed quote => [quote]
  | .char c => [c]

namespace Text

/-- A double quote or an apostrophe. -/
def isQuote (c : Char) : Bool :=
  c == '"' || c == '\''

/-- Whether `c` opens a literal when it follows the character `before`. -/
def opensLiteral (before : Option Char) (c : Char) : Bool :=
  c == '"' || (c == '\'' && !before.any isWordChar)

/-- The body of a literal and the text after its closing quote, for a text that starts right after
the opening quote. -/
def closeQuote (quote : Char) : Text → Option (Text × Text)
  | [] => none
  | c :: rest =>
    if c = '\\' then
      match rest with
      | [] => none
      | d :: rest => (closeQuote quote rest).map fun (body, after) => (c :: d :: body, after)
    else if c = quote then some ([], rest)
    else (closeQuote quote rest).map fun (body, after) => (c :: body, after)

theorem length_lt_of_closeQuote {quote : Char} {text body after : Text}
    (h : closeQuote quote text = some (body, after)) : after.length < text.length := by
  fun_induction closeQuote quote text generalizing body after with
  | case1 => cases h
  | case2 => cases h
  | case3 d rest ih =>
    obtain ⟨⟨b, a⟩, hb, hab⟩ := Option.map_eq_some_iff.1 h
    cases hab
    have := ih hb
    simp only [List.length_cons]
    omega
  | case4 rest hq =>
    cases h
    simp
  | case5 c rest hc hq ih =>
    obtain ⟨⟨b, a⟩, hb, hab⟩ := Option.map_eq_some_iff.1 h
    cases hab
    have := ih hb
    simp only [List.length_cons]
    omega

/-- The pieces of a text that follows the character `before`. -/
def piecesAfter (before : Option Char) (text : Text) : List Piece :=
  match text with
  | [] => []
  | c :: rest =>
    if opensLiteral before c then
      match _h : closeQuote c rest with
      | some (body, after) => .literal c body :: piecesAfter (some c) after
      | none => .unclosed c :: piecesAfter (some c) rest
    else .char c :: piecesAfter (some c) rest
termination_by text.length
decreasing_by
  · have := length_lt_of_closeQuote _h
    simp only [List.length_cons]
    omega
  · simp
  · simp

/-- The pieces of a text: its literals, and the characters outside of them. -/
def pieces (text : Text) : List Piece :=
  piecesAfter none text

/-- The text that a list of pieces was cut from. -/
def ofPieces (ps : List Piece) : Text :=
  ps.flatMap Piece.text

/-- The characters a backslash and the next character stand for inside a literal. -/
def unescape : Text → Text
  | [] => []
  | c :: rest =>
    if c = '\\' then
      match rest with
      | [] => [c]
      | d :: rest => escaped d :: unescape rest
    else c :: unescape rest
where
  /-- The character an escaped letter stands for; any other character stands for itself. -/
  escaped : Char → Char
    | 'n' => '\n'
    | 'r' => '\r'
    | 't' => '\t'
    | '0' => Char.ofNat 0
    | c => c

/-- The characters of a text that is one whole literal, blanks around it aside. -/
def unquote (text : Text) : Option Text :=
  match trim text with
  | [] => none
  | c :: rest =>
    if isQuote c then
      match closeQuote c rest with
      | some (body, []) => some (unescape body)
      | _ => none
    else none

/-- The characters of a literal, or the trimmed text if it is none. -/
def unquoted (text : Text) : Text :=
  (unquote text).getD (trim text)

/-- The characters of a text that is one whole literal in double quotes. -/
def unquoteString (text : Text) : Option Text :=
  if text.head? = some '"' then unquote text else none

end Text

end MacroAssembler
