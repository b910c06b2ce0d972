import MacroAssembler.Text.Literal

/-!
# Words and what is between them

For the purpose of macros a text is a sequence of words, whole literals and single characters that
end a word.  Only words can be macro names or parameters.  A literal that is never closed runs to
the end of the text.
-/

namespace MacroAssembler

/-- A word, or anything else. -/
inductive MacroToken where
  | word (text : Text)
  | other (text : Text)
  deriving DecidableEq, Repr

/-- The text of a token, as written. -/
def MacroToken.text : MacroToken → Text
  | .word text => text
  | .other text => text

/-- The characters other than blanks that end a word. -/
def separators : Text :=
  "+-*/%&|^~!<>=(),;:\\'\"[]\x7b\x7d?".toList

/-- Whether a character ends a word. -/
def endsWord (c : Char) : Bool :=
  isBlank c || separators.contains c

namespace MacroToken

/-- The tokens of a list of pieces. -/
def ofPieces : List Piece → List MacroToken
  | [] => []
  | .literal quote body :: ps => .other (Piece.literal quote body).text :: ofPieces ps
  | .unclosed quote :: ps => [.other (quote :: Text.ofPieces ps)]
  | .char c :: ps =>
    if endsWord c then .other [c] :: ofPieces ps
    else match ofPieces ps with
      | .word w :: tokens => .word (c :: w) :: tokens
      | tokens => .word [c] :: tokens

/-- The tokens of a text. -/
def ofText (text : Text) : List MacroToken :=
  ofPieces (Text.pieces text)

/-- The text that a list of tokens was cut from. -/
def textOf (tokens : List MacroToken) : Text :=
  tokens.flatMap text

end MacroToken

end MacroAssembler
