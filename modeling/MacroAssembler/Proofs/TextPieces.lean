import MacroAssembler.Macro.Expand
import MacroAssembler.Proofs.ExpressionParts

/-!
# Cutting texts and putting them together

The scanners of the assembler cut a text into pieces, into the parts between separators, and into
the tokens in which macros are looked for.  No cut loses anything, and the pieces of a text are cut
the same way when some of them stand alone: a literal that is closed does not depend on what follows
it, and a quote that is never closed finds no end in less.

So a part of a text has the pieces that it had in the whole.  It does not split any further, and
texts that are whole in themselves (`Whole`) can be joined by separators and taken apart again.
-/

namespace MacroAssembler

open MacroAssembler.Part (lastOr)

namespace Text

variable {before : Option Char} {text rest : Text} {ps qs : List Piece}

/-! ## Pieces -/

@[simp] theorem ofPieces_nil : ofPieces [] = [] :=
  rfl

@[simp] theorem ofPieces_cons (p : Piece) (ps : List Piece) :
    ofPieces (p :: ps) = p.text ++ ofPieces ps :=
  List.flatMap_cons

@[simp] theorem ofPieces_append (ps qs : List Piece) :
    ofPieces (ps ++ qs) = ofPieces ps ++ ofPieces qs :=
  List.flatMap_append

theorem piecesAfter_nil (before : Option Char) : piecesAfter before [] = [] := by
  rw [piecesAfter]

theorem lastOr_append (before : Option Char) (text rest : Text) :
    lastOr before (text ++ rest) = lastOr (lastOr before text) rest := by
  simp only [lastOr, List.getLast?_append]
  cases rest.getLast? <;> rfl

/-- The first piece of a text.  It is cut off in the same way when some of what follows it is
missing, and whatever follows it unless it is a quote that is never closed. -/
theorem exists_piece (before : Option Char) (c : Char) (rest : Text) :
    ∃ p after, c :: rest = p.text ++ after ∧ ∀ less,
      (less <+: after ∨ ∀ quote, p ≠ .unclosed quote) →
        piecesAfter before (p.text ++ less) = p :: piecesAfter (lastOr before p.text) less := by
  cases hopens : opensLiteral before c with
  | false => exact ⟨.char c, rest, rfl, fun less _ => piecesAfter_char hopens⟩
  | true =>
    cases hclose : closeQuote c rest with
    | some result =>
      obtain ⟨body, after⟩ := result
      obtain ⟨rfl, hbody⟩ := eq_append_of_closeQuote hclose
      refine ⟨.literal c body, after, by simp [Piece.text], fun less _ => ?_⟩
      have hless : closeQuote c (body ++ c :: less) = some (body, less) := by
        simpa using closeQuote_append hbody less
      have hlast : lastOr before (Piece.literal c body).text = some c := by
        simp [lastOr, Piece.text, List.getLast?_cons]
      rw [hlast, ← piecesAfter_literal hopens hless]
      simp [Piece.text]
    | none =>
      refine ⟨.unclosed c, rest, rfl, fun less hless => ?_⟩
      rcases hless with ⟨more, rfl⟩ | hless
      · refine piecesAfter_open hopens (Option.eq_none_iff_forall_ne_some.2 fun result hfound => ?_)
        -- an end in less would be an end in the whole
        cases (closeQuote_append hfound more).symm.trans hclose
      · exact absurd rfl (hless c)

/-- The pieces of a text make up the text. -/
theorem ofPieces_piecesAfter (before : Option Char) (text : Text) :
    ofPieces (piecesAfter before text) = text := by
  fun_induction piecesAfter before text with
  | case1 => rfl
  | case2 before c rest hopens body after h ih =>
    rw [ofPieces_cons, ih, Piece.text, (eq_append_of_closeQuote h).1]
    simp
  | case3 before c rest hopens h ih => rw [ofPieces_cons, ih, Piece.text, List.singleton_append]
  | case4 before c rest hopens ih => rw [ofPieces_cons, ih, Piece.text, List.singleton_append]

/-- The first of the pieces of a text, and the others. -/
theorem piecesAfter_eq_cons {p : Piece} (h : piecesAfter before text = p :: ps) :
    text = p.text ++ ofPieces ps ∧ piecesAfter (lastOr before p.text) (ofPieces ps) = ps ∧
      ∀ less, (less <+: ofPieces ps ∨ ∀ quote, p ≠ .unclosed quote) →
        piecesAfter before (p.text ++ less) = p :: piecesAfter (lastOr before p.text) less := by
  cases text with
  | nil =>
    rw [piecesAfter_nil] at h
    cases h
  | cons c rest =>
    obtain ⟨p', after, htext, hcut⟩ := exists_piece before c rest
    rw [htext, hcut after (.inl List.prefix_rfl)] at h
    obtain ⟨rfl, rfl⟩ := List.cons_eq_cons.1 h
    rw [ofPieces_piecesAfter]
    exact ⟨htext, rfl, hcut⟩

/-- **Pieces are cut the same way when what follows them is cut off**, and so are those that follow,
if it is known what character was in front of them. -/
theorem piecesAfter_eq_append (h : piecesAfter before text = ps ++ qs) :
    piecesAfter before (ofPieces ps) = ps ∧
      piecesAfter (lastOr before (ofPieces ps)) (ofPieces qs) = qs := by
  induction ps generalizing before text with
  | nil =>
    refine ⟨piecesAfter_nil before, ?_⟩
    rw [List.nil_append] at h
    rw [← h, ofPieces_piecesAfter]
    rfl
  | cons p ps ih =>
    obtain ⟨-, hrest, hcut⟩ := piecesAfter_eq_cons h
    obtain ⟨hps, hqs⟩ := ih hrest
    have hless : ofPieces ps <+: ofPieces (ps ++ qs) := by
      rw [ofPieces_append]
      exact List.prefix_append ..
    rw [ofPieces_cons, hcut _ (.inl hless), hps, lastOr_append]
    exact ⟨rfl, hqs⟩

/-- Behind a text in which every quote is closed, the pieces go on with what follows. -/
theorem piecesAfter_append (hclosed : ∀ quote, .unclosed quote ∉ piecesAfter before text)
    (rest : Text) : piecesAfter before (text ++ rest) =
      piecesAfter before text ++ piecesAfter (lastOr before text) rest := by
  generalize hps : piecesAfter before text = ps at hclosed
  induction ps generalizing before text with
  | nil =>
    have htext : text = [] := by rw [← ofPieces_piecesAfter before text, hps, ofPieces_nil]
    rw [htext]
    rfl
  | cons p ps ih =>
    obtain ⟨rfl, hrest, hcut⟩ := piecesAfter_eq_cons hps
    have hopen : ∀ quote, p ≠ .unclosed quote := by
      rintro quote rfl
      exact hclosed quote List.mem_cons_self
    rw [List.append_assoc, hcut _ (.inr hopen), lastOr_append,
      ih hrest fun quote hmem => hclosed quote (List.mem_cons_of_mem _ hmem), List.cons_append]

/-- A character in front matters only if it can be part of a word. -/
theorem piecesAfter_eq_pieces (h : before.any isWordChar = false) (text : Text) :
    piecesAfter before text = pieces text := by
  have hopens : opensLiteral before = opensLiteral none := by
    funext c
    rw [opensLiteral, opensLiteral, h]
    rfl
  cases text with
  | nil => rw [pieces, piecesAfter_nil, piecesAfter_nil]
  | cons c rest => rw [pieces, piecesAfter, piecesAfter, hopens]

/-- Behind a character that is no quote and no part of a word, a text is cut as if it stood
alone. -/
theorem piecesAfter_cons_break {c : Char} (hquote : isQuote c = false)
    (hword : isWordChar c = false)
    (before : Option Char) (text : Text) :
    piecesAfter before (c :: text) = .char c :: pieces text := by
  rw [isQuote, Bool.or_eq_false_iff] at hquote
  have hopens : opensLiteral before c = false := by simp [opensLiteral, hquote]
  have hbefore : (some c).any isWordChar = false := hword
  rw [piecesAfter_char hopens, piecesAfter_eq_pieces hbefore]

/-! ## Parts -/

/-- A character that can stand between parts: it is no bracket, no quote, no blank, and no part of a
word. -/
def separates (c : Char) : Bool :=
  !isOpening c && !isClosing c && !isQuote c && !isBlank c && !isWordChar c

section parts

variable {sep : Char} {depth : Int}

/-- Pieces that are not split are followed by the first part of what is behind them. -/
theorem splitPieces_append (h : (splitPieces sep depth ps).2 = []) (qs : List Piece) :
    splitPieces sep depth (ps ++ qs) =
      (ofPieces ps ++ (splitPieces sep (ps.foldl depthAfter depth) qs).1,
        (splitPieces sep (ps.foldl depthAfter depth) qs).2) := by
  induction ps generalizing depth with
  | nil => rfl
  | cons p ps ih =>
    rw [splitPieces] at h
    rw [List.cons_append, splitPieces, List.foldl_cons]
    dsimp only at h ⊢
    split at h
    · cases h
    next hp =>
      rw [if_neg hp, ih h, ofPieces_cons, List.append_assoc]

theorem splitPieces_of_undivided (h : (splitPieces sep depth ps).2 = []) :
    splitPieces sep depth ps = (ofPieces ps, []) := by
  simpa [splitPieces] using splitPieces_append h []

/-- Pieces are not split, or at a first separator. -/
theorem splitPieces_cases (sep : Char) (depth : Int) (ps : List Piece) :
    (splitPieces sep depth ps).2 = [] ∨ ∃ front back, ps = front ++ .char sep :: back ∧
      (splitPieces sep depth front).2 = [] ∧ front.foldl depthAfter depth = 0 := by
  induction ps generalizing depth with
  | nil => exact .inl rfl
  | cons p ps ih =>
    by_cases hp : p = .char sep ∧ depth = 0
    · obtain ⟨rfl, rfl⟩ := hp
      exact .inr ⟨[], ps, rfl, rfl, rfl⟩
    · have hcons : ∀ ps, (splitPieces sep depth (p :: ps)).2 =
          (splitPieces sep (depthAfter depth p) ps).2 := by
        intro ps
        rw [splitPieces]
        dsimp only
        rw [if_neg hp]
      rcases ih (depthAfter depth p) with h | ⟨front, back, rfl, hfront, hdepth⟩
      · exact .inl ((hcons ps).trans h)
      · exact .inr ⟨p :: front, back, rfl, (hcons front).trans hfront, hdepth⟩

theorem splitTopLevel_eq_self_iff : splitTopLevel sep text = [text] ↔
    (splitPieces sep 0 (pieces text)).2 = [] := by
  constructor
  · intro h
    exact (List.cons_eq_cons.1 h).2
  · intro h
    have htext : ofPieces (pieces text) = text := ofPieces_piecesAfter none text
    rw [splitTopLevel, splitPieces_of_undivided h, htext]

theorem piecesAfter_cons_separator (hsep : separates sep = true)
    (before : Option Char) (text : Text) :
    piecesAfter before (sep :: text) = .char sep :: pieces text := by
  simp only [separates, Bool.and_eq_true, Bool.not_eq_true'] at hsep
  exact piecesAfter_cons_break hsep.1.1.2 hsep.2 before text

theorem depthAfter_separator (hsep : separates sep = true) (depth : Int) :
    depthAfter depth (.char sep) = depth := by
  simp only [separates, Bool.and_eq_true, Bool.not_eq_true'] at hsep
  simp [depthAfter, hsep.1.1.1.1, hsep.1.1.1.2]

/-- Behind undivided pieces that leave no bracket open, a separator starts a new part. -/
theorem splitTopLevel_of_pieces {front : List Piece} {back : Text} (hsep : separates sep = true)
    (hpieces : pieces text = front ++ .char sep :: pieces back)
    (hfront : (splitPieces sep 0 front).2 = []) (hdepth : front.foldl depthAfter 0 = 0) :
    splitTopLevel sep text = ofPieces front :: splitTopLevel sep back := by
  have hback : splitPieces sep 0 (.char sep :: pieces back) = ([], splitTopLevel sep back) := by
    rw [splitPieces, depthAfter_separator hsep]
    dsimp only
    rw [if_pos ⟨rfl, rfl⟩]
    rfl
  rw [splitTopLevel, hpieces, splitPieces_append hfront, hdepth, hback, List.append_nil]

/-- **A text is not split, or it is split at a first separator**: in front of it is a text that does
not split, and behind it the other parts. -/
theorem splitTopLevel_cases (hsep : separates sep = true) (text : Text) :
    splitTopLevel sep text = [text] ∨ ∃ front back, text = front ++ sep :: back ∧
      pieces text = pieces front ++ .char sep :: pieces back ∧ splitTopLevel sep front = [front] ∧
      splitTopLevel sep text = front :: splitTopLevel sep back := by
  rcases splitPieces_cases sep 0 (pieces text) with h | ⟨front, back, hpieces, hfront, hdepth⟩
  · exact .inl (splitTopLevel_eq_self_iff.2 h)
  · have htext : text = ofPieces front ++ sep :: ofPieces back := by
      rw [← ofPieces_piecesAfter none text, ← pieces, hpieces]
      simp [Piece.text]
    -- both sides have the pieces that they have in the whole
    obtain ⟨hpieces', hbehind⟩ := piecesAfter_eq_append hpieces
    rw [ofPieces_cons, Piece.text, List.singleton_append,
      piecesAfter_cons_separator hsep] at hbehind
    have hback : pieces (ofPieces back) = back := (List.cons_eq_cons.1 hbehind).2
    have hfront' : pieces (ofPieces front) = front := hpieces'
    refine .inr ⟨ofPieces front, ofPieces back, htext, ?_, ?_, ?_⟩
    · rw [hback, hfront']
      exact hpieces
    · rw [splitTopLevel_eq_self_iff, hfront']
      exact hfront
    · refine splitTopLevel_of_pieces hsep ?_ hfront hdepth
      rw [hback]
      exact hpieces

/-- What holds of texts that are not split, and is passed on from the parts behind a separator. -/
theorem splitTopLevel_induction (hsep : separates sep = true) {motive : Text → List Text → Prop}
    (hwhole : ∀ text, splitTopLevel sep text = [text] → motive text [text])
    (hcons : ∀ front back, splitTopLevel sep front = [front] →
      pieces (front ++ sep :: back) = pieces front ++ .char sep :: pieces back →
      motive back (splitTopLevel sep back) → motive (front ++ sep :: back)
        (front :: splitTopLevel sep back))
    (text : Text) : motive text (splitTopLevel sep text) := by
  induction hlength : text.length using Nat.strongRecOn generalizing text with
  | ind length ih =>
    rcases splitTopLevel_cases hsep text with h | ⟨front, back, rfl, hpieces, hfront, h⟩
    · rw [h]
      exact hwhole text h
    · have hshorter : back.length < length := by
        rw [← hlength, List.length_append, List.length_cons]
        omega
      rw [h]
      exact hcons front back hfront hpieces (ih _ hshorter back rfl)

/-- **No part splits any further.** -/
theorem splitTopLevel_of_mem (hsep : separates sep = true) {part : Text}
    (h : part ∈ splitTopLevel sep text) : splitTopLevel sep part = [part] := by
  refine splitTopLevel_induction hsep (motive := fun _ parts => ∀ part ∈ parts,
    splitTopLevel sep part = [part]) ?_ ?_ text part h
  · intro text htext part hpart
    rw [List.mem_singleton.1 hpart, htext]
  · intro front back hfront _ ih
    exact List.forall_mem_cons.2 ⟨hfront, ih⟩

/-- A part is no longer than the whole. -/
theorem length_le_of_mem_splitTopLevel (hsep : separates sep = true) {part : Text}
    (h : part ∈ splitTopLevel sep text) : part.length ≤ text.length := by
  refine splitTopLevel_induction hsep (motive := fun text parts => ∀ part ∈ parts,
    part.length ≤ text.length) ?_ ?_ text part h
  · intro text _ part hpart
    rw [List.mem_singleton.1 hpart]
  · intro front back _ _ ih
    rw [List.length_append, List.length_cons]
    refine List.forall_mem_cons.2 ⟨by omega, fun part hpart => ?_⟩
    have := ih part hpart
    omega

theorem splitTopLevel_ne_nil (sep : Char) (text : Text) : splitTopLevel sep text ≠ [] :=
  List.cons_ne_nil _ _

/-- The parts have the pieces of the text, less the separators between them. -/
theorem pieces_splitTopLevel (hsep : separates sep = true) (text : Text) :
    pieces text = [Piece.char sep].intercalate ((splitTopLevel sep text).map pieces) := by
  refine splitTopLevel_induction hsep (motive := fun text parts =>
    pieces text = [Piece.char sep].intercalate (parts.map pieces)) ?_ ?_ text
  · intro text _
    simp
  · intro front back _ hpieces ih
    have hne : (splitTopLevel sep back).map pieces ≠ [] :=
      fun hnil => splitTopLevel_ne_nil sep back (List.map_eq_nil_iff.1 hnil)
    rw [hpieces, List.map_cons, List.intercalate_cons_of_ne_nil hne, ← ih]
    simp

/-- **Splitting loses nothing and splits everything.**  The parts of a text with the separator
between them are the text, and none of them splits any further.  Scanned on their own, the parts
have the pieces that they had in the text, so every literal that is closed in the text is one in a
single part. -/
theorem splitTopLevel_joins (hsep : separates sep = true) (text : Text) :
    [sep].intercalate (splitTopLevel sep text) = text ∧
      (∀ part ∈ splitTopLevel sep text, splitTopLevel sep part = [part]) ∧
      pieces text = [Piece.char sep].intercalate ((splitTopLevel sep text).map pieces) := by
  refine ⟨?_, fun part => splitTopLevel_of_mem hsep, pieces_splitTopLevel hsep text⟩
  refine splitTopLevel_induction hsep (motive := fun text parts => [sep].intercalate parts =
    text) ?_ ?_ text
  · intro text _
    simp
  · intro front back _ _ ih
    rw [List.intercalate_cons_of_ne_nil (splitTopLevel_ne_nil sep back), ih]
    simp

/-- Commas and backslashes separate.  In front of the stray bracket the text has a closed literal
with an escaped quote and an apostrophe that belongs to a word, and behind it nothing is split. -/
theorem splitTopLevel_joins_strayBracket : separates '\\' = true ∧ separates ',' = true ∧
    splitTopLevel ',' "\"a,\\\",\",af',(b,c)),d".toList =
      ["\"a,\\\",\"".toList, "af'".toList, "(b,c)),d".toList] ∧
    [','].intercalate (splitTopLevel ',' "\"a,\\\",\",af',(b,c)),d".toList) =
      "\"a,\\\",\",af',(b,c)),d".toList ∧
    (∀ part ∈ splitTopLevel ',' "\"a,\\\",\",af',(b,c)),d".toList,
      splitTopLevel ',' part = [part]) ∧
    pieces "\"a,\\\",\",af',(b,c)),d".toList = [Piece.char ','].intercalate
      ((splitTopLevel ',' "\"a,\\\",\",af',(b,c)),d".toList).map pieces) :=
  ⟨by decide, by decide, by decide +kernel, splitTopLevel_joins (by decide) _⟩

end parts

/-! ## Brackets -/

theorem eq_append_of_closePieces {depth : Int} {inner after : Text}
    (h : closePieces depth ps = some (inner, after)) : ofPieces ps = inner ++ ')' :: after := by
  induction ps generalizing depth inner with
  | nil => cases h
  | cons p ps ih =>
    rw [closePieces] at h
    split at h
    next hp =>
      cases h
      rw [ofPieces_cons, hp.1]
      rfl
    · obtain ⟨⟨inner', after'⟩, hclose, heq⟩ := Option.map_eq_some_iff.1 h
      cases heq
      rw [ofPieces_cons, ih hclose, List.append_assoc]

theorem length_lt_of_bracketed {inner after : Text} (h : bracketed text = some (inner, after)) :
    inner.length < text.length := by
  have hdrop : (ofPieces ((pieces text).drop 1)).length ≤ (ofPieces (pieces text)).length := by
    conv_rhs => rw [← List.take_append_drop 1 (pieces text), ofPieces_append, List.length_append]
    omega
  rw [eq_append_of_closePieces h, pieces, ofPieces_piecesAfter, List.length_append,
    List.length_cons] at hdrop
  omega

theorem length_le_of_mem_listItems {inner item : Text} (h : item ∈ listItems inner) :
    item.length ≤ inner.length := by
  unfold listItems at h
  split at h
  · cases h
  · exact length_le_of_mem_splitTopLevel (by decide) h

end Text

/-! ## Tokens -/

namespace MacroToken

theorem textOf_cons (token : MacroToken) (tokens : List MacroToken) :
    textOf (token :: tokens) = token.text ++ textOf tokens :=
  List.flatMap_cons

theorem textOf_ofPieces (ps : List Piece) : textOf (ofPieces ps) = Text.ofPieces ps := by
  fun_induction ofPieces ps with
  | case1 => rfl
  | case2 quote body ps ih => rw [textOf_cons, ih, Text.ofPieces_cons, text]
  | case3 quote ps => simp [textOf, text, Piece.text]
  | case4 c ps hends ih => rw [textOf_cons, ih, Text.ofPieces_cons, text, Piece.text]
  | case5 c ps hends w tokens htokens ih =>
    rw [htokens, textOf_cons] at ih
    rw [textOf_cons, Text.ofPieces_cons, ← ih]
    rfl
  | case6 c ps hends hword ih => rw [textOf_cons, ih, Text.ofPieces_cons, text, Piece.text]

/-- The tokens of a text make up the text. -/
theorem textOf_ofText (text : Text) : textOf (ofText text) = text := by
  rw [ofText, textOf_ofPieces]
  exact Text.ofPieces_piecesAfter none text

theorem length_textOf_le {tokens behind : List MacroToken} (h : behind <:+ tokens) :
    (textOf behind).length ≤ (textOf tokens).length := by
  obtain ⟨front, rfl⟩ := h
  rw [textOf, textOf, List.flatMap_append, List.length_append]
  omega

end MacroToken

/-- **An argument is shorter than the text that its list stands in.** -/
theorem CallArguments.length_lt_of_read {text : Text} {args : List Text} {length : Nat}
    (h : read text = .list args length) : ∀ arg ∈ args, arg.length < text.length := by
  unfold read at h
  dsimp only at h
  split at h
  · split at h
    · cases h
    next inner after hbracketed =>
      cases h
      intro arg harg
      obtain ⟨item, hitem, rfl⟩ := List.mem_map.1 harg
      calc (Text.trim item).length
        _ ≤ item.length := Text.length_trim_le item
        _ ≤ inner.length := Text.length_le_of_mem_listItems hitem
        _ < (Text.trimStart text).length := Text.length_lt_of_bracketed hbracketed
        _ ≤ text.length := Text.length_dropWhile_le _ _
  · cases h

end MacroAssembler
