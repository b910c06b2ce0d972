import MacroAssembler.Text.Bracket
import Mathlib.Data.List.Basic

/-!
# The case of letters and the shape of a text

Mnemonics and operands are compared in upper case, ASCII letters only.  Writing a text in upper case
changes letters into letters, and no scanner of the assembler tells one ASCII letter from another:
blanks, brackets, quotes, backslashes and the characters that tie an apostrophe to a word are the
same places before and after.  So the pieces of a text in upper case are the pieces of the text in
upper case (`pieces_asciiUpper`), and with them everything that works on pieces follows: which
blanks are dropped, and whether the brackets and quotes are balanced.
-/

namespace MacroAssembler

namespace Text

variable {c : Char} {text : Text}

/-! ## Characters -/

theorem eq_letter {first : Nat} (h : first ≤ c.toNat ∧ c.toNat ≤ first + 25) :
    c = Char.ofNat (first + (c.toNat - first)) := by
  rw [Nat.add_sub_cancel' h.1, Char.ofNat_toNat]

/-- What holds of the small ASCII letters and of what upper case leaves alone holds of all
characters. -/
theorem forall_char_of_lower {P : Char → Prop} (hletters : ∀ n < 26, P (Char.ofNat (97 + n)))
    (hother : ∀ c, c.isLower = false → c.toUpper = c → P c) (c : Char) : P c := by
  by_cases hlower : c.isLower = true
  · obtain ⟨hlow, hhigh⟩ := Bool.and_eq_true_iff.1 hlower
    have hrange : 97 ≤ c.toNat ∧ c.toNat ≤ 97 + 25 :=
      ⟨of_decide_eq_true hlow, of_decide_eq_true hhigh⟩
    rw [eq_letter hrange]
    exact hletters _ (by omega)
  · refine hother c (eq_false_of_ne_true hlower) (dif_neg fun hrange => hlower ?_)
    exact Bool.and_eq_true_iff.2 ⟨decide_eq_true hrange.1, decide_eq_true hrange.2⟩

/-- What is the same for an ASCII letter in both cases is the same for any character in upper
case. -/
theorem of_toUpper {α : Type} {f : Char → α}
    (h : ∀ n < 26, f (Char.ofNat (97 + n)).toUpper = f (Char.ofNat (97 + n))) (c : Char) :
    f c.toUpper = f c :=
  forall_char_of_lower (P := fun c => f c.toUpper = f c) h (fun _ _ hsame => congrArg f hsame) c

theorem toUpper_eq_self (h : c.isLower = false) : c.toUpper = c := by
  have hlower : ∀ n < 26, (Char.ofNat (97 + n)).isLower = true := by decide
  refine forall_char_of_lower (P := fun c => c.isLower = false → c.toUpper = c) (fun n hn h => ?_)
    (fun _ _ hsame _ => hsame) c h
  rw [hlower n hn] at h
  cases h

theorem isLower_toUpper (c : Char) : c.toUpper.isLower = false :=
  forall_char_of_lower (P := fun c => c.toUpper.isLower = false) (by decide)
    (fun _ hlower hsame => hsame.symm ▸ hlower) c

theorem toUpper_toLower (c : Char) : c.toLower.toUpper = c.toUpper := by
  by_cases hupper : c.isUpper = true
  · have hrange : 65 ≤ c.toNat ∧ c.toNat ≤ 65 + 25 := of_decide_eq_true hupper
    have hletters : ∀ n < 26,
        (Char.ofNat (65 + n)).toLower.toUpper = (Char.ofNat (65 + n)).toUpper := by decide
    rw [eq_letter hrange]
    exact hletters _ (by omega)
  · exact congrArg Char.toUpper (dif_neg fun hrange => hupper (decide_eq_true hrange))

theorem toLower_toUpper (c : Char) : c.toUpper.toLower = c.toLower :=
  of_toUpper (by decide) c

/-- Only a letter comes out as a letter. -/
theorem toUpper_eq_iff {d : Char} (hd : d.isAlpha = false) : c.toUpper = d ↔ c = d := by
  have hlower : d.isLower = false := (Bool.or_eq_false_iff.1 hd).2
  constructor
  · rintro rfl
    rw [of_toUpper (f := Char.isAlpha) (by decide)] at hd
    exact (toUpper_eq_self (Bool.or_eq_false_iff.1 hd).2).symm
  · rintro rfl
    exact toUpper_eq_self hlower

theorem isBlank_toUpper (c : Char) : isBlank c.toUpper = isBlank c :=
  of_toUpper (by decide) c

theorem isWordChar_toUpper (c : Char) : isWordChar c.toUpper = isWordChar c :=
  of_toUpper (by decide) c

theorem isOpening_toUpper (c : Char) : isOpening c.toUpper = isOpening c :=
  of_toUpper (by decide) c

theorem isClosing_toUpper (c : Char) : isClosing c.toUpper = isClosing c :=
  of_toUpper (by decide) c

/-! ## Equality up to case -/

/-- A text without ASCII letters in lower case. -/
def isUpper (text : Text) : Bool :=
  text.all fun c => !c.isLower

theorem isUpper_cons_iff :
    isUpper (c :: text) = true ↔ c.isLower = false ∧ isUpper text = true := by
  rw [isUpper, List.all_cons, Bool.and_eq_true, Bool.not_eq_true', isUpper]

theorem isLower_of_isUpper (h : isUpper text = true) (hc : c ∈ text) :
    c.isLower = false :=
  Bool.not_eq_true' _ ▸ List.all_eq_true.1 h c hc

theorem asciiUpper_eq_self (h : isUpper text = true) : asciiUpper text = text :=
  (List.map_congr_left fun _ hc => toUpper_eq_self (isLower_of_isUpper h hc)).trans (List.map_id _)

theorem isUpper_asciiUpper (text : Text) : isUpper (asciiUpper text) = true := by
  rw [isUpper, asciiUpper, List.all_map, List.all_eq_true]
  intro c _
  rw [Function.comp_apply, isLower_toUpper]
  rfl

/-- Characters are the same up to case if they are the same in upper case. -/
theorem toLower_eq_toLower_iff {d : Char} : c.toLower = d.toLower ↔ c.toUpper = d.toUpper := by
  constructor
  · intro h
    rw [← toUpper_toLower c, h, toUpper_toLower]
  · intro h
    rw [← toLower_toUpper c, h, toLower_toUpper]

theorem sameIgnoringCase_iff {a b : Text} :
    sameIgnoringCase a b = true ↔ asciiUpper a = asciiUpper b := by
  rw [sameIgnoringCase, beq_iff_eq, asciiLower, asciiLower, asciiUpper, asciiUpper]
  induction a generalizing b with
  | nil => cases b <;> simp
  | cons c a ih =>
    cases b with
    | nil => simp
    | cons d b => simp only [List.map_cons, List.cons.injEq, toLower_eq_toLower_iff, ih]

/-- A text in upper case is the same as another one up to case if it is the other one in upper
case. -/
theorem sameIgnoringCase_iff_of_isUpper {a b : Text} (h : isUpper a = true) :
    sameIgnoringCase a b = true ↔ a = asciiUpper b := by
  rw [sameIgnoringCase_iff, asciiUpper_eq_self h]

/-! ## Pieces -/

/-- A piece in upper case. -/
def upperPiece : Piece → Piece
  | .literal quote body => .literal quote.toUpper (asciiUpper body)
  | .unclosed quote => .unclosed quote.toUpper
  | .char c => .char c.toUpper

theorem closeQuote_asciiUpper {quote : Char} (hquote : quote.isAlpha = false) (text : Text) :
    closeQuote quote (asciiUpper text) =
      (closeQuote quote text).map (Prod.map asciiUpper asciiUpper) := by
  have hslash (c : Char) : c.toUpper = '\\' ↔ c = '\\' := toUpper_eq_iff rfl
  have hclose (c : Char) : c.toUpper = quote ↔ c = quote := toUpper_eq_iff hquote
  unfold asciiUpper
  fun_induction closeQuote quote text with
  | case1 => rfl
  | case2 => rfl
  | case3 d rest ih =>
    rw [List.map_cons, List.map_cons, closeQuote, if_pos ((hslash _).2 rfl)]
    dsimp only
    rw [ih, Option.map_map, Option.map_map]
    rfl
  | case4 rest hq =>
    rw [List.map_cons, closeQuote.eq_def]
    dsimp only
    rw [if_neg (fun h => hq ((hslash _).1 h)), if_pos ((hclose _).2 rfl)]
    rfl
  | case5 c rest hc hq ih =>
    rw [List.map_cons, closeQuote.eq_def]
    dsimp only
    rw [if_neg (fun h => hc ((hslash _).1 h)), if_neg (fun h => hq ((hclose _).1 h)), ih,
      Option.map_map, Option.map_map]
    rfl

theorem opensLiteral_toUpper (before : Option Char) (c : Char) :
    opensLiteral (before.map Char.toUpper) c.toUpper = opensLiteral before c := by
  have hdouble : (c.toUpper == '"') = (c == '"') := of_toUpper (f := (· == '"')) (by decide) c
  have hsingle : (c.toUpper == '\'') = (c == '\'') := of_toUpper (f := (· == '\'')) (by decide) c
  rw [opensLiteral, opensLiteral, hdouble, hsingle]
  cases before with
  | none => rfl
  | some b => rw [Option.map_some, Option.any_some, Option.any_some, isWordChar_toUpper]

theorem isAlpha_of_opensLiteral {before : Option Char} (h : opensLiteral before c = true) :
    c.isAlpha = false := by
  rw [opensLiteral, Bool.or_eq_true, Bool.and_eq_true, beq_iff_eq, beq_iff_eq] at h
  rcases h with rfl | ⟨rfl, -⟩ <;> rfl

theorem text_upperPiece (p : Piece) : (upperPiece p).text = asciiUpper p.text := by
  cases p with
  | literal quote body => simp [upperPiece, Piece.text, asciiUpper]
  | unclosed quote => rfl
  | char c => rfl

theorem piecesAfter_asciiUpper (before : Option Char) (text : Text) :
    piecesAfter (before.map Char.toUpper) (asciiUpper text) =
      (piecesAfter before text).map upperPiece := by
  -- the quote that opens a literal is no letter, so the literal is closed at the same place
  have hclose {before : Option Char} {c : Char} (hc : opensLiteral before c = true) (rest : Text) :
      closeQuote c.toUpper (asciiUpper rest) =
        (closeQuote c rest).map (Prod.map asciiUpper asciiUpper) := by
    have hquote := isAlpha_of_opensLiteral hc
    rw [(toUpper_eq_iff hquote).2 rfl, closeQuote_asciiUpper hquote]
  fun_induction piecesAfter before text with
  | case1 => rw [asciiUpper, List.map_nil, piecesAfter, List.map_nil]
  | case2 before c rest hc body after hbody ih =>
    have hupper := hclose hc rest
    rw [hbody] at hupper
    rw [asciiUpper, List.map_cons, piecesAfter, opensLiteral_toUpper, if_pos hc]
    split
    · next body' after' hbody' =>
      obtain ⟨rfl, rfl⟩ := Prod.mk.inj (Option.some.inj (hbody'.symm.trans hupper))
      rw [List.map_cons, ← ih]
      rfl
    · next hnone => cases hnone.symm.trans hupper
  | case3 before c rest hc hnone ih =>
    have hupper := hclose hc rest
    rw [hnone] at hupper
    rw [asciiUpper, List.map_cons, piecesAfter, opensLiteral_toUpper, if_pos hc]
    split
    · next hbody => cases hbody.symm.trans hupper
    · rw [List.map_cons, ← ih]
      rfl
  | case4 before c rest hc ih =>
    rw [asciiUpper, List.map_cons, piecesAfter, opensLiteral_toUpper, if_neg hc, List.map_cons,
      ← ih]
    rfl

/-- **Upper case keeps the pieces of a text**: they are the same literals and characters, written in
upper case. -/
theorem pieces_asciiUpper (text : Text) :
    pieces (asciiUpper text) = (pieces text).map upperPiece :=
  piecesAfter_asciiUpper none text

/-! ## Scanners -/

theorem squeeze_asciiUpper (text : Text) :
    squeeze (asciiUpper text) = asciiUpper (squeeze text) := by
  rw [squeeze, pieces_asciiUpper, squeeze, asciiUpper, List.map_flatMap, List.flatMap_map]
  refine List.flatMap_congr fun p _ => ?_
  cases p with
  | literal quote body => exact text_upperPiece (.literal quote body)
  | unclosed quote => rfl
  | char c =>
    dsimp only [upperPiece]
    rw [isBlank_toUpper]
    split <;> rfl

theorem closesAll_map_upperPiece (depth : Nat) (ps : List Piece) :
    closesAll depth (ps.map upperPiece) = closesAll depth ps := by
  induction ps generalizing depth with
  | nil => rfl
  | cons p ps ih =>
    cases p with
    | literal quote body => exact ih depth
    | unclosed quote =>
      have hdouble : (quote.toUpper != '"') = (quote != '"') :=
        of_toUpper (f := (· != '"')) (by decide) quote
      rw [List.map_cons, upperPiece, closesAll, closesAll, hdouble, ih]
    | char c =>
      rw [List.map_cons, upperPiece, closesAll.eq_def, closesAll.eq_def depth (.char c :: ps)]
      dsimp only
      rw [isOpening_toUpper, isClosing_toUpper]
      cases depth <;> simp only [ih]

/-- Brackets and quotes are balanced in upper case if they are as written. -/
theorem balanced_asciiUpper (text : Text) : balanced (asciiUpper text) = balanced text := by
  rw [balanced, pieces_asciiUpper, closesAll_map_upperPiece, balanced]

end Text

end MacroAssembler
