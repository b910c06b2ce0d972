import MacroAssembler.Proofs.DecimalFloat
import MacroAssembler.Proofs.FormulaEvaluation
import MacroAssembler.Proofs.Follows

/-!
# The parts of an expression

Evaluation first replaces the references in braces of an expression by their values, then its
literals.  Each replacement is a scan of its own over the text of the one before, and what it pastes
in are signs and a word of at least one character.  An expression is cut here into *parts*:
references, literals, and the single characters between them.

The two scans have to agree on what the parts are.  They do, unless an apostrophe stands right
behind a reference: where a value has been pasted in front of it, it no longer starts a literal.
Where there is none, the parts are `Part.Unticked`.
-/

namespace MacroAssembler

/-! ## Written values -/

theorem exists_ne_zero_mem_toDigits {n : Nat} (hn : n ≠ 0) : ∃ c ∈ Nat.toDigits 10 n, c ≠ '0' := by
  induction n using Nat.strongRecOn with
  | ind n ih =>
    rw [Nat.toDigits_eq_if (by decide)]
    by_cases hlt : n < 10
    · have hall : ∀ n < 10, n ≠ 0 → Nat.digitChar n ≠ '0' := by decide
      rw [if_pos hlt]
      exact ⟨_, List.mem_singleton.2 rfl, hall n hlt hn⟩
    · obtain ⟨c, hc, hzero⟩ := ih (n / 10) (by omega) (by omega)
      rw [if_neg hlt]
      exact ⟨c, List.mem_append_left _ hc, hzero⟩

theorem Decimal.trimmedDigits_ne_nil {n : Nat} (hn : n ≠ 0) : (trimmedDigits n).1 ≠ [] := by
  obtain ⟨c, hc, hzero⟩ := exists_ne_zero_mem_toDigits hn
  intro hnil
  have hall := List.dropWhile_eq_nil_iff.1 (List.reverse_eq_nil_iff.1 hnil)
  exact hzero (by simpa using hall c (List.mem_reverse.2 hc))

theorem Decimal.positional_ne_nil {d : Decimal} (h : d.digits ≠ 0 ∨ d.exponent ≠ -1) :
    d.positional ≠ [] := by
  unfold positional
  dsimp only
  split
  next hexponent =>
    by_cases hzero : d.digits = 0
    · have htrimmed : trimmedDigits d.digits = ([], 1) := by
        rw [hzero]
        rfl
      have hne : d.exponent ≠ -1 := h.resolve_left (not_not_intro hzero)
      rw [htrimmed] at hexponent ⊢
      simp only [List.nil_append, ne_eq, List.replicate_eq_nil_iff]
      omega
    · exact List.append_ne_nil_of_left_ne_nil (trimmedDigits_ne_nil hzero) _
  · split <;> simp

theorem Binary.digits_or_exponent_of_shortest {b : Binary} (hb : 0 < b.significand) :
    b.shortest.digits ≠ 0 ∨ b.shortest.exponent ≠ -1 := by
  unfold shortest
  dsimp only
  cases hfound : (List.range 17).findSome? fun n : Nat => b.onGrid (b.toRatio.scale - (n + 1)) with
  | none => exact .inr (by simp)
  | some d =>
    obtain ⟨n, -, hgrid⟩ := List.exists_of_findSome?_eq_some hfound
    have hmove : -(b.toRatio.scale - ((n : Int) + 1)) = n + 1 - b.toRatio.scale := by omega
    have hbelow := Ratio.pow_le_floor_timesTenPow (num_toRatio_pos hb) b.den_toRatio_pos n
    have hpos : 0 < 10 ^ n := Nat.pow_pos (by decide)
    refine .inl ?_
    unfold onGrid at hgrid
    dsimp only at hgrid
    rw [hmove] at hgrid
    rw [Option.getD_some]
    split at hgrid
    · cases hgrid
      dsimp only
      split <;> omega
    · cases hgrid
      dsimp only
      omega
    · cases hgrid
      dsimp only
      omega
    · cases hgrid

/-- A value is written by signs and one word of at least one character. -/
theorem Numeral.write_eq_append (x : Float) : ∃ signs word, write x = signs ++ word ∧
    (∀ c ∈ signs, c = negativeMark ∨ c = '-') ∧ word ≠ [] ∧ ∀ c ∈ word, isNameChar c = true := by
  have htext : ∀ x : Float, ∃ signs word, Value.toText x = signs ++ word ∧
      (∀ c ∈ signs, c = negativeMark ∨ c = '-') ∧ word ≠ [] ∧ ∀ c ∈ word, isNameChar c = true := by
    intro x
    unfold Value.toText
    split
    · exact ⟨[], _, rfl, by simp, by decide, forall_mem_of_all (by decide +kernel)⟩
    · refine ⟨_, _, rfl, ?_, ?_⟩
      · split <;> simp
      · split
        · exact ⟨by decide, forall_mem_of_all (by decide +kernel)⟩
        · split
          · exact ⟨by decide, forall_mem_of_all (by decide +kernel)⟩
          next hzero =>
            have hpos : 0 < (Value.magnitude x).significand :=
              Nat.pos_of_ne_zero (by simpa using hzero)
            exact ⟨Decimal.positional_ne_nil
              (Binary.digits_or_exponent_of_shortest hpos), fun c hc =>
              isNameChar_of_isDecimalChar (Decimal.isDecimalChar_of_mem_positional hc)⟩
  unfold write
  split
  · obtain ⟨signs, word, heq, hsigns, hword⟩ := htext (-x)
    exact ⟨negativeMark :: signs, word, by rw [heq]; rfl,
      List.forall_mem_cons.2 ⟨.inl rfl, hsigns⟩, hword⟩
  · exact htext x

theorem Numeral.of_mem_write {x : Float} {c : Char} (h : c ∈ write x) :
    isNameChar c = true ∨ c = negativeMark ∨ c = '-' := by
  obtain ⟨signs, word, heq, hsigns, -, hword⟩ := write_eq_append x
  rw [heq] at h
  rcases List.mem_append.1 h with h | h
  · exact .inr (hsigns c h)
  · exact .inl (hword c h)

theorem Numeral.write_ne_nil (x : Float) : write x ≠ [] := by
  obtain ⟨signs, word, heq, -, hne, -⟩ := write_eq_append x
  rw [heq]
  exact List.append_ne_nil_of_right_ne_nil signs hne

/-! ## Parts of an expression -/

/-- A stretch of an expression: what its evaluation replaces by a value before it looks at brackets,
or a single character. -/
inductive Part where
  | reference (inner : Text)
  | literal (quote : Char) (body : Text)
  /-- A brace or a quote with no partner behind it. -/
  | unclosed (mark : Char)
  | char (c : Char)
  deriving DecidableEq

namespace Part

/-- The part as it is written. -/
def text : Part → Text
  | .reference inner => '\x7b' :: inner ++ ['\x7d']
  | .literal quote body => quote :: body ++ [quote]
  | .unclosed mark => [mark]
  | .char c => [c]

/-- The text of a list of parts. -/
def join (ps : List Part) : Text :=
  ps.flatMap text

@[simp] theorem join_cons (p : Part) (ps : List Part) : join (p :: ps) = p.text ++ join ps := rfl

/-- An apostrophe comes first. -/
def Ticked (ps : List Part) : Prop :=
  (join ps).head? = some '\''

/-- No reference has an apostrophe right behind it. -/
def Unticked : List Part → Prop
  | [] => True
  | .reference _ :: ps => ¬ Ticked ps ∧ Unticked ps
  | _ :: ps => Unticked ps

end Part

namespace Text

theorem eq_append_of_splitAtFirst {c : Char} {text front back : Text}
    (h : splitAtFirst c text = some (front, back)) : text = front ++ c :: back ∧ c ∉ front := by
  fun_induction splitAtFirst c text generalizing front back with
  | case1 => cases h
  | case2 rest =>
    cases h
    simp
  | case3 d rest hd ih =>
    obtain ⟨⟨front', back'⟩, hsplit, heq⟩ := Option.map_eq_some_iff.1 h
    cases heq
    obtain ⟨htext, hmem⟩ := ih hsplit
    exact ⟨by simp [htext], by simp [Ne.symm hd, hmem]⟩

/-- The parts of a text that follows the character `before`. -/
def partsAfter (before : Option Char) (text : Text) : List Part :=
  match text with
  | [] => []
  | c :: rest =>
    if c = '\x7b' then
      match _h : splitAtFirst '\x7d' rest with
      | some (inner, after) => .reference inner :: partsAfter none after
      | none => .unclosed c :: partsAfter (some c) rest
    else if opensLiteral before c then
      match _h : closeQuote c rest with
      | some (body, after) => .literal c body :: partsAfter (some c) after
      | none => .unclosed c :: partsAfter (some c) rest
    else .char c :: partsAfter (some c) rest
termination_by text.length
decreasing_by
  · exact Nat.lt_succ_of_lt (length_lt_of_splitAtFirst _h)
  · simp
  · exact Nat.lt_succ_of_lt (length_lt_of_closeQuote _h)
  · simp
  · simp

/-- The parts of an expression. -/
def parts (text : Text) : List Part :=
  partsAfter none text

theorem join_partsAfter (before : Option Char) (text : Text) :
    Part.join (partsAfter before text) = text := by
  fun_induction partsAfter before text with
  | case1 => rfl
  | case2 before rest inner after h ih =>
    rw [Part.join_cons, ih, (eq_append_of_splitAtFirst h).1]
    simp [Part.text]
  | case3 before rest h ih =>
    rw [Part.join_cons, ih]
    rfl
  | case4 before c rest hbrace hopens body after h ih =>
    rw [Part.join_cons, ih, (eq_append_of_closeQuote h).1]
    simp [Part.text]
  | case5 before c rest hbrace hopens h ih =>
    rw [Part.join_cons, ih]
    rfl
  | case6 before c rest hbrace hopens ih =>
    rw [Part.join_cons, ih]
    rfl

end Text

/-! ## The two scans -/

section scans

variable {before : Option Char} {c : Char} {rest body after inner : Text}

theorem braceChunks_reference (h : Text.splitAtFirst '\x7d' rest = some (inner, after)) :
    braceChunks before ('\x7b' :: rest) = .reference inner :: braceChunks none after := by
  rw [braceChunks, if_pos rfl]
  split
  next hsome =>
    cases h.symm.trans hsome
    rfl
  next hnone => cases h.symm.trans hnone

theorem braceChunks_unclosed (h : Text.splitAtFirst '\x7d' rest = none) :
    braceChunks before ('\x7b' :: rest) = [.unclosed] := by
  rw [braceChunks, if_pos rfl]
  split
  next hsome => cases h.symm.trans hsome
  · rfl

theorem braceChunks_literal (hbrace : c ≠ '\x7b') (hopens : Text.opensLiteral before c = true)
    (h : Text.closeQuote c rest = some (body, after)) :
    braceChunks before (c :: rest) = .plain (c :: body ++ [c]) :: braceChunks (some c) after := by
  rw [braceChunks, if_neg hbrace, if_pos hopens]
  split
  next hsome =>
    cases h.symm.trans hsome
    rfl
  next hnone => cases h.symm.trans hnone

theorem braceChunks_open (hbrace : c ≠ '\x7b') (hopens : Text.opensLiteral before c = true)
    (h : Text.closeQuote c rest = none) :
    braceChunks before (c :: rest) = .plain [c] :: braceChunks (some c) rest := by
  rw [braceChunks, if_neg hbrace, if_pos hopens]
  split
  next hsome => cases h.symm.trans hsome
  · rfl

theorem braceChunks_char (hbrace : c ≠ '\x7b') (hopens : Text.opensLiteral before c = false) :
    braceChunks before (c :: rest) = .plain [c] :: braceChunks (some c) rest := by
  rw [braceChunks, if_neg hbrace, if_neg (by simp [hopens])]

theorem piecesAfter_literal (hopens : Text.opensLiteral before c = true)
    (h : Text.closeQuote c rest = some (body, after)) :
    Text.piecesAfter before (c :: rest) = .literal c body :: Text.piecesAfter (some c) after := by
  rw [Text.piecesAfter, if_pos hopens]
  split
  next hsome =>
    cases h.symm.trans hsome
    rfl
  next hnone => cases h.symm.trans hnone

theorem piecesAfter_open (hopens : Text.opensLiteral before c = true)
    (h : Text.closeQuote c rest = none) :
    Text.piecesAfter before (c :: rest) = .unclosed c :: Text.piecesAfter (some c) rest := by
  rw [Text.piecesAfter, if_pos hopens]
  split
  next hsome => cases h.symm.trans hsome
  · rfl

theorem piecesAfter_char (hopens : Text.opensLiteral before c = false) :
    Text.piecesAfter before (c :: rest) = .char c :: Text.piecesAfter (some c) rest := by
  rw [Text.piecesAfter, if_neg (by simp [hopens])]

end scans

namespace Part

variable {c : Char}

theorem isQuote_of_opensLiteral {before : Option Char} (h : Text.opensLiteral before c = true) :
    Text.isQuote c = true := by
  simp only [Text.opensLiteral, Bool.or_eq_true, Bool.and_eq_true, beq_iff_eq] at h
  simpa [Text.isQuote] using h.imp_right And.left

theorem eq_of_isQuote (h : Text.isQuote c = true) : c = '"' ∨ c = '\'' := by
  simpa [Text.isQuote] using h

/-- The character in front of what follows a text. -/
def lastOr (before : Option Char) (text : Text) : Option Char :=
  text.getLast?.or before

theorem lastOr_cons (before : Option Char) (c : Char) (text : Text) :
    lastOr before (c :: text) = lastOr (some c) text := by
  cases text with
  | nil => rfl
  | cons d text => simp [lastOr, List.getLast?_cons]

theorem isOrdinary_of_mem_write {x : Float} (h : c ∈ Numeral.write x) : isOrdinary c = true := by
  rcases Numeral.of_mem_write h with h | rfl | rfl
  · exact Formula.isOrdinary_of_isNameChar h
  · rfl
  · rfl

end Part

end MacroAssembler
