import MacroAssembler.Proofs.Bypass
import MacroAssembler.Proofs.TextPieces

/-!
# Expressions with their values pasted in

The stages of evaluation that replace references and literals.  The scan for literals works on a
text in which the references have become values.  It finds the same literals as the scan for
references: a quote that is never closed is still not closed when references behind it have been
replaced (`staysOpen_of_mapM`).
-/

namespace MacroAssembler

open Text

/-! ## The stages -/

section stages

variable {σ : Type} {env : Environment σ} {s s' : σ}
variable {text t u : Text} {before : Option Char} {ts : List Text}

/-- What a stretch is replaced by, in the scan of `text` for references. -/
def BraceChunk.replace (env : Environment σ) (text : Text) : BraceChunk → EvalM σ Text
  | .plain part => pure part
  | .reference inner =>
    match ReusableRef.read inner with
    | some target => return Numeral.write (← env.reusable target)
    | none => throw (.badReusable inner)
  | .unclosed => throw (.malformed text)

/-- A reference that is replaced can be read. -/
theorem exists_write_of_replace {text inner : Text}
    (h : BraceChunk.replace env text (.reference inner) s = .ok t s') :
    (ReusableRef.read inner).isSome = true ∧ ∃ x, t = Numeral.write x := by
  cases href : ReusableRef.read inner with
  | none =>
    simp only [BraceChunk.replace, href] at h
    cases h
  | some target =>
    simp only [BraceChunk.replace, href] at h
    obtain ⟨x, s₁, -, hx⟩ := bind_eq_ok h
    cases hx
    exact ⟨rfl, x, rfl⟩

theorem mapM_cons_eq_ok {α β : Type} {f : α → EvalM σ β} {a : α} {l : List α} {bs : List β}
    (h : (a :: l).mapM f s = .ok bs s') :
    ∃ b bs' s₁, f a s = .ok b s₁ ∧ l.mapM f s₁ = .ok bs' s' ∧ bs = b :: bs' := by
  rw [List.mapM_cons] at h
  obtain ⟨b, s₁, hb, h⟩ := bind_eq_ok h
  obtain ⟨bs', s₂, hbs, h⟩ := bind_eq_ok h
  cases h
  exact ⟨b, bs', s₁, hb, hbs, rfl⟩

/-- What a piece is replaced by, in the scan of `text` for literals. -/
def Piece.replace (charByte : Char → UInt8) (text : Text) : Piece → EvalM σ Text
  | .literal _ body =>
    pure (Numeral.write (Float.ofNat (packedValue charByte (Text.unescape body))))
  | .unclosed _ => throw (.unterminated text)
  | .char c => pure [c]

theorem replaceLiterals_apply (env : Environment σ) (text : Text) (s : σ) :
    replaceLiterals env text s = (do
    let parts ← (Text.pieces text).mapM (Piece.replace (env.charByte s) text)
    return parts.flatten : EvalM σ Text) s :=
  rfl

/-! ## Literals that are never closed -/

namespace Text

variable {quote c : Char} {t : Text}

theorem closeQuote_escape_eq_none_iff : closeQuote quote ('\\' :: c :: t) = none ↔
    closeQuote quote t = none := by
  rw [closeQuote_escape, Option.map_eq_none_iff]

theorem closeQuote_cons_eq_none_iff (hquote : quote ≠ '\\') (hslash : c ≠ '\\') :
    closeQuote quote (c :: t) = none ↔ c ≠ quote ∧ closeQuote quote t = none := by
  by_cases hc : c = quote
  · subst hc
    simp [closeQuote_quote hquote]
  · simp [closeQuote_of_ne hslash hc, hc]

/-- Behind a brace that is in no literal's way, the literal is still open. -/
theorem closeQuote_eq_none_of_append (hslash : quote ≠ '\\') (inner : Text)
    (h : closeQuote quote (inner ++ '\x7d' :: t) = none) : closeQuote quote t = none := by
  have hboth : (closeQuote quote (inner ++ '\x7d' :: t) = none → closeQuote quote t = none) ∧
      (closeQuote quote ('\\' :: (inner ++ '\x7d' :: t)) = none → closeQuote quote t = none) := by
    -- a backslash takes the character after it along, so both states of the scan are followed
    clear h
    induction inner with
    | nil =>
      exact ⟨fun h => ((closeQuote_cons_eq_none_iff hslash (by decide)).1 h).2,
        closeQuote_escape_eq_none_iff.1⟩
    | cons c inner ih =>
      refine ⟨fun h => ?_, fun h => ih.1 (closeQuote_escape_eq_none_iff.1 h)⟩
      by_cases hc : c = '\\'
      · subst hc
        exact ih.2 h
      · exact ih.1 ((closeQuote_cons_eq_none_iff hslash hc).1 h).2
  exact hboth.1 h

/-- A literal that is not closed in one text is not closed in the other.  A backslash takes the
character after it along, so this is asked for behind a backslash too. -/
structure StaysOpen (quote : Char) (t u : Text) : Prop where
  plain : closeQuote quote t = none → closeQuote quote u = none
  escaped : closeQuote quote ('\\' :: t) = none → closeQuote quote ('\\' :: u) = none

theorem StaysOpen.cons (hquote : quote ≠ '\\') {t u : Text} (h : StaysOpen quote t u) (c : Char) :
    StaysOpen quote (c :: t) (c :: u) where
  plain hopen := by
    by_cases hc : c = '\\'
    · subst hc
      exact h.escaped hopen
    · obtain ⟨hne, hopen⟩ := (closeQuote_cons_eq_none_iff hquote hc).1 hopen
      exact (closeQuote_cons_eq_none_iff hquote hc).2 ⟨hne, h.plain hopen⟩
  escaped hopen := closeQuote_escape_eq_none_iff.2 (h.plain (closeQuote_escape_eq_none_iff.1 hopen))

theorem StaysOpen.append (hquote : quote ≠ '\\') {t u : Text} (h : StaysOpen quote t u)
    (front : Text) : StaysOpen quote (front ++ t) (front ++ u) := by
  induction front with
  | nil => exact h
  | cons c front ih => exact ih.cons hquote c

theorem closeQuote_append_eq_none (hslash : quote ≠ '\\') {word : Text}
    (hword : ∀ c ∈ word, c ≠ '\\' ∧ c ≠ quote) (h : closeQuote quote t = none) :
    closeQuote quote (word ++ t) = none := by
  induction word with
  | nil => exact h
  | cons c word ih =>
    obtain ⟨⟨hc, hquote⟩, hword⟩ := List.forall_mem_cons.1 hword
    exact (closeQuote_cons_eq_none_iff hslash hc).2 ⟨hquote, ih hword⟩

end Text

/-- A literal that is open stays open when references in it are replaced by values. -/
theorem staysOpen_of_mapM {quote : Char} (hquote : Text.isQuote quote = true) {whole : Text}
    (h : (braceChunks before text).mapM (BraceChunk.replace env whole) s = .ok ts s') :
    Text.StaysOpen quote text ts.flatten := by
  have hslash : quote ≠ '\\' := by
    rintro rfl
    cases hquote
  have hword : ∀ x : Float, ∀ c ∈ Numeral.write x, c ≠ '\\' ∧ c ≠ quote := by
    intro x c hc
    refine ⟨?_, ?_⟩
    · rintro rfl
      have hname : isNameChar '\\' = false := by decide +kernel
      simpa [hname, Numeral.negativeMark] using Numeral.of_mem_write hc
    · rintro rfl
      have hordinary := Part.isOrdinary_of_mem_write hc
      rcases Part.eq_of_isQuote hquote with rfl | rfl <;> cases hordinary
  fun_induction braceChunks before text generalizing s ts with
  | case1 =>
    cases h
    exact ⟨id, id⟩
  | case2 before rest inner after hsplit ih =>
    obtain ⟨t, ts', s₁, ht, hts, rfl⟩ := mapM_cons_eq_ok h
    obtain ⟨-, x, rfl⟩ := exists_write_of_replace ht
    rw [(eq_append_of_splitAtFirst hsplit).1, List.flatten_cons]
    have hrest : Text.closeQuote quote (inner ++ '\x7d' :: after) = none →
        Text.closeQuote quote ts'.flatten = none :=
      fun h => (ih hts).plain (closeQuote_eq_none_of_append hslash inner h)
    refine ⟨fun h => ?_, fun h => ?_⟩
    · have := ((closeQuote_cons_eq_none_iff hslash (by decide)).1 h).2
      exact closeQuote_append_eq_none hslash (hword x) (hrest this)
    · have hopen := hrest (closeQuote_escape_eq_none_iff.1 h)
      cases htext : Numeral.write x with
      | nil => exact absurd htext (Numeral.write_ne_nil x)
      | cons c word =>
        have hword' := htext ▸ hword x
        refine closeQuote_escape_eq_none_iff.2 ?_
        exact closeQuote_append_eq_none hslash (List.forall_mem_cons.1 hword').2 hopen
  | case3 before rest hsplit =>
    obtain ⟨t, ts', s₁, ht, -⟩ := mapM_cons_eq_ok h
    cases ht
  | case4 before c rest hbrace hopens body after hclose ih =>
    obtain ⟨t, ts', s₁, ht, hts, rfl⟩ := mapM_cons_eq_ok h
    cases ht
    have happend := (ih hts).append hslash (c :: body ++ [c])
    rw [(eq_append_of_closeQuote hclose).1, List.flatten_cons]
    simpa using happend
  | case5 before c rest hbrace hopens hclose ih | case6 before c rest hbrace hopens ih =>
    obtain ⟨t, ts', s₁, ht, hts, rfl⟩ := mapM_cons_eq_ok h
    cases ht
    exact (ih hts).cons hslash c

/-! ## Characters outside of literals -/

theorem piecesAfter_append_of_isOrdinary (h : ∀ c ∈ text, isOrdinary c = true)
    (before : Option Char) (rest : Text) : Text.piecesAfter before (text ++ rest) =
      text.map .char ++ Text.piecesAfter (Part.lastOr before text) rest := by
  have hpieces := pieces_of_isOrdinary before h
  rw [piecesAfter_append, hpieces]
  simp [hpieces]

theorem Text.ne_of_isBlank {c d : Char} (hc : isBlank c = true)
    (hd : isBlank d = false) : c ≠ d := by
  rintro rfl
  cases hd.symm.trans hc

theorem isOrdinary_of_isBlank {c : Char} (h : isBlank c = true) : isOrdinary c = true := by
  simp only [isOrdinary, Bool.and_eq_true, bne_iff_ne]
  exact ⟨⟨ne_of_isBlank h rfl, ne_of_isBlank h rfl⟩, ne_of_isBlank h rfl⟩

/-- Blanks in front of a text are cut off it. -/
theorem Text.pieces_blanks_append {blanks : Text}
    (h : ∀ c ∈ blanks, isBlank c = true) (text : Text) :
    pieces (blanks ++ text) = blanks.map .char ++ pieces text := by
  have hlast : (Part.lastOr none blanks).any isWordChar = false := by
    cases hlast : blanks.getLast? with
    | none => simp [Part.lastOr, hlast]
    | some c =>
      have hname := isNameChar_of_isBlank (h c (List.mem_of_getLast? hlast))
      rw [isNameChar, Bool.or_eq_false_iff] at hname
      simp [Part.lastOr, hlast, hname.1]
  rw [pieces, piecesAfter_append_of_isOrdinary fun c hc => isOrdinary_of_isBlank (h c hc),
    piecesAfter_eq_pieces hlast]

/-- What stands in front matters to apostrophes only. -/
theorem opensLiteral_of_not_ticked (h : ¬ Part.Ticked (Text.partsAfter before text)) {c : Char}
    (hc : c ∈ text.head?) (b b' : Option Char) :
    Text.opensLiteral b c = Text.opensLiteral b' c := by
  have htick : (c == '\'') = false := by
    rw [beq_eq_false_iff_ne]
    rintro rfl
    refine h ?_
    rw [Part.Ticked, join_partsAfter]
    exact hc
  simp [Text.opensLiteral, htick]

/-! ## Blanks around a text -/

theorem Text.starts_dropWhile (h : text.dropWhile isBlank ≠ []) :
    Starts (isBlank · = false) (text.dropWhile isBlank) :=
  ⟨_, List.head?_eq_some_head h, List.head_dropWhile_not isBlank h⟩

theorem Text.ends_trimEnd (h : trimEnd text ≠ []) : Ends (isBlank · = false) (trimEnd text) := by
  have hne : text.reverse.dropWhile isBlank ≠ [] := fun hnil => h (by rw [trimEnd, hnil]; rfl)
  obtain ⟨c, hc, hblank⟩ := starts_dropWhile hne
  exact ⟨c, by rw [trimEnd, List.getLast?_reverse]; exact hc, hblank⟩

theorem Text.solid_trim (h : trim text ≠ []) : Solid (trim text) := by
  have hprefix : trim text <+: trimStart text := by
    rw [← List.reverse_suffix, trim, trimEnd, List.reverse_reverse]
    exact List.dropWhile_suffix isBlank
  obtain ⟨rest, hrest⟩ := hprefix
  have hne : trimStart text ≠ [] := by
    rw [← hrest]
    exact List.append_ne_nil_of_left_ne_nil h rest
  obtain ⟨c, hc, hblank⟩ := starts_dropWhile hne
  rw [← trimStart, ← hrest, List.head?_append_of_ne_nil _ h] at hc
  exact ⟨⟨c, hc, hblank⟩, ends_trimEnd h⟩

theorem Text.trim_eq_nil_of_isBlank (h : ∀ c ∈ text, isBlank c = true) : trim text = [] := by
  have hstart : trimStart text = [] := List.dropWhile_eq_nil_iff.2 h
  rw [trim, hstart]
  rfl

/-- A text is what remains without its blanks, and the blanks. -/
theorem Text.exists_trim (text : Text) : ∃ blanks blanks', text = blanks ++ trim text ++ blanks' ∧
    (∀ c ∈ blanks, isBlank c = true) ∧ ∀ c ∈ blanks', isBlank c = true := by
  obtain ⟨blanks', hend, hblanks'⟩ := exists_trimEnd_append (trimStart text)
  refine ⟨text.takeWhile isBlank, blanks', ?_, fun c hc => List.mem_takeWhile_imp hc, hblanks'⟩
  rw [trim, List.append_assoc, ← hend]
  exact List.takeWhile_append_dropWhile.symm

theorem Text.isBlank_of_trim_eq_nil (h : trim text = []) : ∀ c ∈ text, isBlank c = true := by
  obtain ⟨blanks, blanks', htext, hblanks, hblanks'⟩ := exists_trim text
  rw [h, List.append_nil] at htext
  rw [htext]
  exact List.forall_mem_append.2 ⟨hblanks, hblanks'⟩

/-- More blanks around a text are no part of it either. -/
theorem Text.trim_append_blanks {text blanks blanks' : Text}
    (hblanks : ∀ c ∈ blanks, isBlank c = true)
    (hblanks' : ∀ c ∈ blanks', isBlank c = true) :
    trim (blanks ++ text ++ blanks') = trim text := by
  obtain ⟨front, back, htext, hfront, hback⟩ := exists_trim text
  by_cases hnil : trim text = []
  · rw [hnil]
    refine trim_eq_nil_of_isBlank
      (List.forall_mem_append.2 ⟨List.forall_mem_append.2 ⟨hblanks, ?_⟩, hblanks'⟩)
    exact isBlank_of_trim_eq_nil hnil
  · have hsplit : blanks ++ text ++ blanks' = (blanks ++ front) ++ trim text ++
      (back ++ blanks') := by
      conv_lhs => rw [htext]
      simp
    rw [hsplit]
    exact (solid_trim hnil).trim_append (List.forall_mem_append.2 ⟨hblanks, hfront⟩)
      (List.forall_mem_append.2 ⟨hback, hblanks'⟩)

/-! ## One level of an evaluation -/

/-- The text is not blank, and with its references and literals replaced it is `u`. -/
structure Prepares (env : Environment σ) (text : Text) (s : σ) (u : Text) (s' : σ) : Prop where
  ne_nil : Text.trim text ≠ []
  run : (replaceBraces env (Text.trim text) >>= replaceLiterals env) s = .ok u s'

theorem evalNested_of_prepares {s₁ : σ} (h : Prepares env text s u s₁) (n : Nat) :
    evalNested env (n + 1) text s =
      (replaceGroups (callGroup env (evalNested env n)) [] u >>= Formula.evalSplit env n) s₁ := by
  obtain ⟨u₁, s₂, hbraces, hliterals⟩ := bind_eq_ok h.run
  rw [evalNested, if_neg (by simpa using h.ne_nil), bind_of_ok hbraces, bind_of_ok hliterals]
  rfl

theorem evalNested_of_groups {n : Nat} {s₁ s₂ : σ} (h : Prepares env text s u s₁)
    (hgroups : replaceGroups (callGroup env (evalNested env n)) [] u s₁ = .ok t s₂) :
    evalNested env (n + 1) text s = Formula.evalSplit env n t s₂ := by
  rw [evalNested_of_prepares h, bind_of_ok hgroups]

theorem evalSplit_of_some {cond yes no : Text} {n : Nat}
    (h : splitTernary t = some (cond, yes, no)) :
    Formula.evalSplit env n t =
      evalNested env n cond >>= fun value => evalNested env n (if value != 0 then yes else no) := by
  rw [Formula.evalSplit, h]

end stages

end MacroAssembler
