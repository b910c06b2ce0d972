import MacroAssembler.Proofs.TextPieces

/-!
# Tokens and their places

The tokens of a text can be found by one scan from left to right that notes the byte at which each
of them starts (`scan`).  Such a scan loses nothing and always moves on, and what it finds are the
tokens in which macros are looked for.  A text in which none of the words names a macro comes out of
the expansion as it was.
-/

namespace MacroAssembler

open MacroAssembler.Part (lastOr lastOr_cons)

namespace MacroToken

variable {before : Option Char} {c : Char} {text rest : Text}

/-- The first token of the text `c :: rest`, and what is behind it. -/
def next (before : Option Char) (c : Char) (rest : Text) : MacroToken × Text :=
  if Text.opensLiteral before c then
    match Text.closeQuote c rest with
    | some (body, after) => (.other (Piece.literal c body).text, after)
    | none => (.other (c :: rest), [])
  else if endsWord c then (.other [c], rest)
  else (.word (c :: rest.takeWhile (!endsWord ·)), rest.dropWhile (!endsWord ·))

theorem next_ne_nil (before : Option Char) (c : Char) (rest : Text) :
    (next before c rest).1.text ≠ [] := by
  unfold next
  split
  · split <;> simp [MacroToken.text, Piece.text]
  · split <;> simp [MacroToken.text]

theorem next_append (before : Option Char) (c : Char) (rest : Text) :
    (next before c rest).1.text ++ (next before c rest).2 = c :: rest := by
  unfold next
  split
  · split
    next body after hclose =>
      simp [MacroToken.text, Piece.text, (Text.eq_append_of_closeQuote hclose).1]
    · simp [MacroToken.text]
  · split <;> simp [MacroToken.text]

theorem length_next_lt (before : Option Char) (c : Char) (rest : Text) :
    (next before c rest).2.length < (c :: rest).length := by
  have hpos := List.length_pos_iff.2 (next_ne_nil before c rest)
  rw [← next_append before c rest, List.length_append]
  omega

/-- The number of bytes of a text. -/
def byteLength (text : Text) : Nat :=
  (String.ofList text).utf8ByteSize

theorem byteLength_append (x y : Text) : byteLength (x ++ y) = byteLength x + byteLength y := by
  rw [byteLength, String.ofList_append, String.utf8ByteSize_append]
  rfl

/-- The tokens of a text that starts at byte `start`, behind the character `before`, each with the
byte at which it starts. -/
def scan (start : Nat) (before : Option Char) (text : Text) : List (Nat × MacroToken) :=
  match text with
  | [] => []
  | c :: rest =>
    let token := (next before c rest).1
    (start, token) ::
      scan (start + byteLength token.text) (lastOr before token.text) (next before c rest).2
termination_by text.length
decreasing_by exact length_next_lt before c rest

/-- A word is not glued to what ends it. -/
theorem ofPieces_word (hends : endsWord c = false) (hrest : ∀ d ∈ rest.head?, endsWord d = true) :
    ofPieces (.char c :: Text.piecesAfter (some c) rest) =
      .word [c] :: ofPieces (Text.piecesAfter (some c) rest) := by
  rw [ofPieces, if_neg (by simp [hends])]
  cases rest with
  | nil => rw [Text.piecesAfter_nil, ofPieces]
  | cons d rest =>
    cases hopens : Text.opensLiteral (some c) d with
    | false => rw [piecesAfter_char hopens, ofPieces, if_pos (hrest d rfl)]
    | true =>
      cases hclose : Text.closeQuote d rest with
      | none => rw [piecesAfter_open hopens hclose, ofPieces]
      | some result => rw [piecesAfter_literal hopens hclose, ofPieces]

theorem opensLiteral_of_not_endsWord (hends : endsWord c = false) (before : Option Char) :
    Text.opensLiteral before c = false := by
  have hne : c ≠ '"' ∧ c ≠ '\'' := by
    constructor <;> rintro rfl <;> exact absurd hends (by decide)
  simp [Text.opensLiteral, hne]

/-- The tokens of a text are its first token and those of what is behind it. -/
theorem ofPieces_next (before : Option Char) (c : Char) (rest : Text) :
    ofPieces (Text.piecesAfter before (c :: rest)) = (next before c rest).1 ::
      ofPieces
        (Text.piecesAfter (lastOr before (next before c rest).1.text) (next before c rest).2) := by
  cases hopens : Text.opensLiteral before c with
  | true =>
    cases hclose : Text.closeQuote c rest with
    | some result =>
      have hlast : lastOr before (Piece.literal c result.1).text = some c := by
        simp [lastOr, Piece.text, List.getLast?_cons]
      rw [piecesAfter_literal hopens hclose, ofPieces, next, if_pos hopens, hclose,
        MacroToken.text, hlast]
    | none =>
      rw [piecesAfter_open hopens hclose, ofPieces, next, if_pos hopens, hclose,
        Text.ofPieces_piecesAfter, Text.piecesAfter_nil, ofPieces]
  | false =>
    cases hends : endsWord c with
    | true =>
      rw [piecesAfter_char hopens, ofPieces, if_pos hends, next,
        if_neg (by simp [hopens]), if_pos hends]
      rfl
    | false =>
      rw [piecesAfter_char hopens, next, if_neg (by simp [hopens]), if_neg (by simp [hends])]
      dsimp only [MacroToken.text]
      -- the word goes on as long as no character ends it
      induction rest generalizing before c with
      | nil => exact ofPieces_word hends (by simp)
      | cons d rest ih =>
        cases hd : endsWord d with
        | true =>
          rw [ofPieces_word hends (by simp [hd]), List.takeWhile_cons_of_neg (by simp [hd]),
            List.dropWhile_cons_of_neg (by simp [hd])]
          rfl
        | false =>
          have hopens' := opensLiteral_of_not_endsWord hd (some c)
          rw [ofPieces, if_neg (by simp [hends]), piecesAfter_char hopens',
            ih (some c) d hopens' hd,
            List.takeWhile_cons_of_pos (by simp [hd]), List.dropWhile_cons_of_pos (by simp [hd]),
            lastOr_cons before]

theorem scan_tokens (start : Nat) (before : Option Char) (text : Text) :
    (scan start before text).map Prod.snd = ofPieces (Text.piecesAfter before text) := by
  fun_induction scan start before text with
  | case1 => rw [Text.piecesAfter_nil, ofPieces, List.map_nil]
  | case2 start before c rest token ih => rw [ofPieces_next, List.map_cons, ih]

/-- A token has at least one character, and it stands in the text at the byte that is noted with
it. -/
theorem mem_scan {start : Nat} {piece : Nat × MacroToken} (h : piece ∈ scan start before text) :
    piece.2.text ≠ [] ∧ ∃ front back, text = front ++ piece.2.text ++ back ∧
      piece.1 = start + byteLength front := by
  fun_induction scan start before text with
  | case1 => cases h
  | case2 start before c rest token ih =>
    rcases List.mem_cons.1 h with rfl | h
    · exact ⟨next_ne_nil before c rest, [], _, (next_append before c rest).symm, rfl⟩
    · obtain ⟨hne, front, back, htext, hstart⟩ := ih h
      refine ⟨hne, token.text ++ front, back, ?_, ?_⟩
      · rw [← next_append before c rest, htext, List.append_assoc, List.append_assoc,
          List.append_assoc]
      · rw [hstart, byteLength_append, Nat.add_assoc]

end MacroToken

namespace MacroTable

variable {σ : Type} {table : MacroTable} {eval : Text → StateM σ (Option Float)}
variable {expandArg : Text → ExpandM σ Text} {expandBody : (word body : Text) → ExpandM σ Text}

/-- No word of the text is the name of a macro. -/
def Ignores (table : MacroTable) (text : Text) : Prop :=
  ∀ word, .word word ∈ MacroToken.ofText text → table.contains word = false

/-- Where no word is the name of a macro, nothing is expanded. -/
theorem expandTokens_of_ignored {tokens : List MacroToken}
    (h : ∀ word, .word word ∈ tokens → table.contains word = false) (whole : Text) :
    expandTokens table eval expandArg expandBody whole 0 tokens = pure
      (MacroToken.textOf tokens) := by
  induction tokens with
  | nil => rw [expandTokens, MacroToken.textOf, List.flatMap_nil]
  | cons token tokens ih =>
    have ih := ih fun word hmem => h word (List.mem_cons_of_mem _ hmem)
    cases token with
    | other text =>
      rw [expandTokens, ih]
      rfl
    | word word =>
      have hword : table.macros.lookup (table.key word) = none := by
        simpa [contains] using h word List.mem_cons_self
      rw [expandTokens, hword, ih]
      rfl

theorem expandAt_succ_of_ignores {text : Text} (h : table.Ignores text) (levels : Nat) :
    expandAt table eval (levels + 1) text = pure text := by
  rw [expandAt, expandTokens_of_ignored h, MacroToken.textOf_ofText]

theorem expand_of_ignores {text : Text} (h : table.Ignores text) :
    table.expand eval text = pure text := by
  unfold expand
  split
  · rfl
  · exact expandAt_succ_of_ignores h 63

/-- **Tokens make up the text, and only names of macros are expanded.**  The scan finds the tokens
of the text; none of them is empty, each stands at the byte that is noted with it, and one behind
the other they are the text.  If none of the words is the name of a macro, the expansion gives the
text back and leaves everything else alone. -/
theorem tokens_partition_text (text : Text) :
    (MacroToken.scan 0 none text).map Prod.snd = MacroToken.ofText text ∧
    (∀ piece ∈ MacroToken.scan 0 none text, piece.2.text ≠ [] ∧ ∃ front back,
      text = front ++ piece.2.text ++ back ∧ piece.1 = MacroToken.byteLength front) ∧
    MacroToken.textOf (MacroToken.ofText text) = text ∧
    ∀ {σ : Type} (table : MacroTable) (eval : Text → StateM σ (Option Float)) (s : σ),
      (∀ word, .word word ∈ MacroToken.ofText text → table.contains word = false) →
        table.expand eval text s = .ok text s := by
  refine ⟨MacroToken.scan_tokens 0 none text, fun piece hpiece => ?_, MacroToken.textOf_ofText text,
    fun table eval s hignores => ?_⟩
  · simpa using MacroToken.mem_scan hpiece
  · rw [expand_of_ignores hignores]
    rfl

/-- A name in a literal is no word, and neither is a name that is part of a longer word. -/
theorem tokens_partition_quoted :
    let table : MacroTable := { macros := [("foo".toList, [⟨none, "1".toList⟩])] }
    let text := "\"foo\" foo.a+'foo".toList
    table.contains "FOO".toList = true ∧
      ∀ eval : Text → StateM Nat (Option Float), table.expand eval text 0 = .ok text 0 := by
  refine ⟨by decide, fun eval => (tokens_partition_text _).2.2.2 _ eval 0 ?_⟩
  have htokens : MacroToken.ofText "\"foo\" foo.a+'foo".toList =
      [.other "\"foo\"".toList, .other [' '], .word "foo.a".toList, .other ['+'],
        .other "'foo".toList] := by decide +kernel
  rw [htokens]
  intro word hword
  simp only [List.mem_cons, reduceCtorEq, false_or, List.not_mem_nil, or_false] at hword
  cases hword
  decide

end MacroTable

end MacroAssembler
