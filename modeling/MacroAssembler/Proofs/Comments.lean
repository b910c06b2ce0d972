import MacroAssembler.Proofs.PreparedText
import MacroAssembler.Proofs.QualifiedNames
import MacroAssembler.Proofs.TextPieces

/-!
# Comments

What is left of a line when its comments are gone has no comments.  Two things could go wrong.  A
quote that was never closed could find its end once a comment behind it is missing, and then what
follows it would be read in another way.  It does not: a comment ends in a slash, which no backslash
in the comment takes along, so behind the comment the scan for the end of the literal stands where
it would stand behind a blank (`Strips.staysOpen`).  And a slash could come to stand in front of a
star; but a comment in the middle of a line leaves a blank behind.
-/

namespace MacroAssembler

open Source Text

namespace Source

open Text (opensLiteral closeQuote StaysOpen closeQuote_cons_eq_none_iff
  closeQuote_escape_eq_none_iff)

variable {before : Option Char} {c quote : Char} {text rest body after : Text}
variable {inComment : Bool} {result : Text × Bool} {ls : List Text}

/-! ## One character at a time -/

theorem stripLine_nil (inComment : Bool) (before : Option Char) :
    stripLine inComment before [] = ([], inComment) := by
  rw [stripLine]

theorem stripLine_inside (before : Option Char) (c : Char) (rest : Text) :
    stripLine true before (c :: rest) = if c = '*' ∧ rest.head? = some '/' then
      (' ' :: (stripLine false (some '/') (rest.drop 1)).1,
        (stripLine false (some '/') (rest.drop 1)).2)
    else stripLine true (some c) rest := by
  rw [stripLine, if_pos rfl]

theorem stripLine_literal (hopens : opensLiteral before c = true)
    (hclose : closeQuote c rest = some (body, after)) : stripLine false before (c :: rest) =
      (c :: body ++ c :: (stripLine false (some c) after).1,
        (stripLine false (some c) after).2) := by
  rw [stripLine, if_neg Bool.false_ne_true]
  dsimp only
  split
  next hsome =>
    rw [if_pos hopens] at hsome
    cases hclose.symm.trans hsome
    rfl
  next hnone =>
    rw [if_pos hopens] at hnone
    cases hclose.symm.trans hnone

theorem stripLine_outside (hopen : opensLiteral before c = true → closeQuote c rest = none) :
    stripLine false before (c :: rest) = if c = ';' then ([], false)
      else if c = '/' ∧ rest.head? = some '*' then stripLine true (some '*') (rest.drop 1)
      else (c :: (stripLine false (some c) rest).1, (stripLine false (some c) rest).2) := by
  have hliteral : (if opensLiteral before c then closeQuote c rest else none) = none := by
    split
    next hopens => exact hopen hopens
    · rfl
  rw [stripLine, if_neg Bool.false_ne_true]
  dsimp only
  split
  next hsome => cases hliteral.symm.trans hsome
  · rfl

/-- What is left of a line, by what can stand in front: in a comment, the end of it or another
character, and outside, a literal, a semicolon, the start of a comment or another character. -/
inductive Strips : Bool → Option Char → Text → Text × Bool → Prop
  | nil (inComment : Bool) (before : Option Char) : Strips inComment before [] ([], inComment)
  | leave {before : Option Char} {rest kept : Text} {ends : Bool} :
    Strips false (some '/') rest (kept, ends) →
      Strips true before ('*' :: '/' :: rest) (' ' :: kept, ends)
  | inside {before : Option Char} {c : Char} {rest kept : Text} {ends : Bool}
      (hend : ¬(c = '*' ∧ rest.head? = some '/')) : Strips true (some c) rest (kept, ends) →
      Strips true before (c :: rest) (kept, ends)
  | literal {before : Option Char} {c : Char} {rest body after kept : Text} {ends : Bool}
      (hopens : opensLiteral before c = true) (hclose : closeQuote c rest = some (body, after)) :
      Strips false (some c) after (kept, ends) → Strips false before (c :: rest)
        (c :: body ++ c :: kept, ends)
  | semicolon (before : Option Char) (rest : Text) : Strips false before (';' :: rest) ([], false)
  | enter {before : Option Char} {rest kept : Text} {ends : Bool} :
    Strips true (some '*') rest (kept, ends) →
      Strips false before ('/' :: '*' :: rest) (kept, ends)
  | outside {before : Option Char} {c : Char} {rest kept : Text} {ends : Bool}
      (hopen : opensLiteral before c = true → closeQuote c rest = none) (hsemicolon : c ≠ ';')
      (hstart : ¬(c = '/' ∧ rest.head? = some '*')) : Strips false (some c) rest (kept, ends) →
      Strips false before (c :: rest) (c :: kept, ends)

theorem stripLine_strips (inComment : Bool) (before : Option Char) (text : Text) :
    Strips inComment before text (stripLine inComment before text) := by
  have hpair : ∀ {rest : Text} {d : Char}, rest.head? = some d → rest = d :: rest.drop 1 := by
    intro rest d h
    obtain ⟨tail, rfl⟩ := List.head?_eq_some_iff.1 h
    rfl
  induction hlength : text.length using Nat.strongRecOn generalizing inComment before text with
  | ind length ih =>
    subst hlength
    cases text with
    | nil =>
      rw [stripLine_nil]
      exact .nil _ _
    | cons c rest =>
      have hdrop : (rest.drop 1).length < (c :: rest).length := by
        rw [List.length_drop, List.length_cons]
        omega
      have hrest : rest.length < (c :: rest).length := Nat.lt_succ_self _
      cases inComment with
      | true =>
        rw [stripLine_inside]
        split
        next hend =>
          obtain ⟨rfl, hslash⟩ := hend
          rw [hpair hslash]
          exact .leave (ih _ hdrop _ _ _ rfl)
        next hend => exact .inside hend (ih _ hrest _ _ _ rfl)
      | false =>
        by_cases hopen : opensLiteral before c = true → closeQuote c rest = none
        · rw [stripLine_outside hopen]
          split
          next hsemicolon => exact hsemicolon ▸ .semicolon _ _
          next hsemicolon =>
            split
            next hstart =>
              obtain ⟨rfl, hstar⟩ := hstart
              rw [hpair hstar]
              exact .enter (ih _ hdrop _ _ _ rfl)
            next hstart => exact .outside hopen hsemicolon hstart (ih _ hrest _ _ _ rfl)
        · obtain ⟨hopens, hclose⟩ := Classical.not_imp.1 hopen
          obtain ⟨⟨body, after⟩, hclose⟩ := Option.ne_none_iff_exists'.1 hclose
          have hafter := length_lt_of_closeQuote hclose
          rw [stripLine_literal hopens hclose]
          exact .literal hopens hclose (ih _ (hafter.trans hrest) _ _ _ rfl)

theorem Strips.mem (h : Strips inComment before text result) :
    ∀ d ∈ result.1, d = ' ' ∨ d ∈ text := by
  have hcons : ∀ {kept rest : Text} (c : Char), (∀ d ∈ kept, d = ' ' ∨ d ∈ rest) →
      ∀ d ∈ kept, d = ' ' ∨ d ∈ c :: rest :=
    fun c h d hd => (h d hd).imp_right (List.mem_cons_of_mem c)
  induction h with
  | nil | semicolon => exact List.forall_mem_nil _
  | leave _ ih => exact List.forall_mem_cons.2 ⟨.inl rfl, hcons '*' (hcons '/' ih)⟩
  | inside _ _ ih => exact hcons _ ih
  | literal hopens hclose _ ih =>
    rw [(eq_append_of_closeQuote hclose).1]
    intro d hd
    have := ih d
    grind
  | enter _ ih => exact hcons '/' (hcons '*' ih)
  | outside _ _ _ _ ih => exact List.forall_mem_cons.2 ⟨.inr List.mem_cons_self, hcons _ ih⟩

/-! ## Quotes that are never closed -/

/-- Behind a comment there is a blank, or nothing. -/
theorem Strips.head?_true (h : Strips inComment before text result) (hinside : inComment = true) :
    ∀ d ∈ result.1.head?, d = ' ' := by
  induction h with
  | nil => rintro d ⟨⟩
  | leave =>
    rintro d ⟨⟩
    rfl
  | inside _ _ ih => exact ih rfl
  | literal | semicolon | enter | outside => cases hinside

/-- A star comes first only if it did before. -/
theorem Strips.head? (h : Strips inComment before text result) (houtside : inComment = false)
    (hstar : result.1.head? = some '*') : text.head? = some '*' := by
  cases h with
  | leave | inside => cases houtside
  | nil | semicolon => cases hstar
  | enter hrest => cases hrest.head?_true rfl _ hstar
  | literal | outside => exact hstar

/-- **A quote that is never closed stays so** when comments behind it go.  A line that starts inside
of a comment may have been reached behind a backslash or not. -/
theorem Strips.staysOpen (hquote : Text.isQuote quote = true)
    (h : Strips inComment before text result) :
    (inComment = false → StaysOpen quote text result.1) ∧
      (inComment = true → closeQuote quote text = none ∨ closeQuote quote ('\\' :: text) = none →
        closeQuote quote result.1 = none ∧ closeQuote quote ('\\' :: result.1) = none) := by
  have hslash : quote ≠ '\\' := by
    rintro rfl
    cases hquote
  have hne : ∀ {d : Char}, Text.isQuote d = false → d ≠ quote := by
    rintro d hd rfl
    cases hd.symm.trans hquote
  -- a character that is neither a backslash nor the quote leaves the scan where it is
  have hpass : ∀ {d : Char} {t : Text}, Text.isQuote d = false → d ≠ '\\' →
      closeQuote quote (d :: t) = none → closeQuote quote t = none :=
    fun _ hd h => ((closeQuote_cons_eq_none_iff hslash hd).1 h).2
  have hnil : closeQuote quote [] = none ∧ closeQuote quote ['\\'] = none :=
    ⟨rfl, by rw [closeQuote, if_pos rfl]⟩
  induction h with
  | nil => exact ⟨fun _ => ⟨id, id⟩, fun _ _ => hnil⟩
  | @leave before rest kept ends _ ih =>
    refine ⟨fun h => (Bool.false_ne_true h.symm).elim, fun _ hopen => ?_⟩
    have hrest : closeQuote quote rest = none := by
      rcases hopen with hopen | hopen
      · exact hpass rfl (by decide) (hpass rfl (by decide) hopen)
      · exact hpass rfl (by decide) (closeQuote_escape_eq_none_iff.1 hopen)
    have hkept := (ih.1 rfl).plain hrest
    exact ⟨(closeQuote_cons_eq_none_iff hslash (by decide)).2 ⟨hne rfl, hkept⟩,
      closeQuote_escape_eq_none_iff.2 hkept⟩
  | @inside before c rest kept ends hend _ ih =>
    refine ⟨fun h => (Bool.false_ne_true h.symm).elim, fun _ hopen => ih.2 rfl ?_⟩
    rcases hopen with hopen | hopen
    · by_cases hc : c = '\\'
      · exact .inr (hc ▸ hopen)
      · exact .inl ((closeQuote_cons_eq_none_iff hslash hc).1 hopen).2
    · exact .inl (closeQuote_escape_eq_none_iff.1 hopen)
  | literal hopens hclose _ ih =>
    rw [(eq_append_of_closeQuote hclose).1]
    refine ⟨fun _ => ?_, fun h => (Bool.false_ne_true h).elim⟩
    exact (((ih.1 rfl).cons hslash _).append hslash _).cons hslash _
  | semicolon =>
    exact ⟨fun _ => ⟨fun _ => hnil.1, fun _ => hnil.2⟩, fun h => (Bool.false_ne_true h).elim⟩
  | enter _ ih =>
    refine ⟨fun _ => ⟨fun hopen => ?_, fun hopen => ?_⟩, fun h => (Bool.false_ne_true h).elim⟩
    · exact (ih.2 rfl (.inl (hpass rfl (by decide) (hpass rfl (by decide) hopen)))).1
    · exact (ih.2 rfl (.inl (hpass rfl (by decide) (closeQuote_escape_eq_none_iff.1 hopen)))).2
  | outside _ _ _ _ ih =>
    exact ⟨fun _ => (ih.1 rfl).cons hslash _, fun h => (Bool.false_ne_true h).elim⟩

/-! ## Lines without comments -/

/-- **A line that has been stripped is not stripped any further**, wherever it starts: in a comment
it goes on with a blank, and otherwise it matters only whether an apostrophe would belong to a
word. -/
theorem Strips.stripLine_eq (h : Strips inComment before text result) {b : Option Char}
    (hbefore : inComment = false → b.any isWordChar = before.any isWordChar) :
    stripLine false b result.1 = (result.1, false) := by
  have hopens : ∀ {b b' : Option Char}, b'.any isWordChar = b.any isWordChar →
      opensLiteral b' = opensLiteral b := by
    intro b b' h
    funext d
    rw [opensLiteral, opensLiteral, h]
  induction h generalizing b with
  | nil | semicolon => exact stripLine_nil _ _
  | leave _ ih =>
    have hkept := ih (b := some ' ') fun _ => by decide
    rw [stripLine_outside (by simp [opensLiteral]), if_neg (by decide), if_neg (by simp), hkept]
  | inside _ _ ih | enter _ ih => exact ih fun h => (Bool.false_ne_true h.symm).elim
  | @literal before c rest body after kept ends hopens' hclose _ ih =>
    have hkept := ih (b := some c) fun _ => rfl
    have hclose' : closeQuote c (body ++ c :: kept) = some (body, kept) := by
      simpa using closeQuote_append (eq_append_of_closeQuote hclose).2 kept
    rw [List.cons_append,
      stripLine_literal ((congrFun (hopens (hbefore rfl)) c).trans hopens') hclose', hkept]
    rfl
  | @outside before c rest kept ends hopen hsemicolon hstart hrest ih =>
    have hkept := ih (b := some c) fun _ => rfl
    have hopen' : opensLiteral b c = true → closeQuote c kept = none := by
      intro hc
      rw [hopens (hbefore rfl)] at hc
      exact ((hrest.staysOpen (Part.isQuote_of_opensLiteral hc)).1 rfl).plain (hopen hc)
    have hstart' : ¬(c = '/' ∧ kept.head? = some '*') := by
      rintro ⟨rfl, hstar⟩
      exact hstart ⟨rfl, hrest.head? rfl hstar⟩
    rw [stripLine_outside hopen', if_neg hsemicolon, if_neg hstart', hkept]

/-- Neither a semicolon nor the start of a comment is outside of the closed literals. -/
def Uncommented (ps : List Piece) : Prop :=
  .char ';' ∉ ps ∧ ¬ [.char '/', .char '*'] <:+: ps

instance (ps : List Piece) : Decidable (Uncommented ps) :=
  inferInstanceAs (Decidable (_ ∧ ¬ _))

theorem uncommented_cons {p : Piece} {ps : List Piece} (hp : p ≠ .char ';')
    (hstart : ¬(p = .char '/' ∧ ps.head? = some (.char '*'))) :
    Uncommented (p :: ps) ↔ Uncommented ps := by
  have hprefix : ¬ [Piece.char '/', .char '*'] <+: p :: ps := by
    rintro ⟨more, hmore⟩
    obtain ⟨rfl, rfl⟩ := List.cons_eq_cons.1 hmore
    exact hstart ⟨rfl, rfl⟩
  simp [Uncommented, List.infix_cons_iff, hprefix, hp.symm]

theorem head?_piecesAfter_star (before : Option Char) (rest : Text) :
    (Text.piecesAfter before rest).head? = some (.char '*') ↔ rest.head? = some '*' := by
  fun_cases Text.piecesAfter before rest with
  | case1 => simp
  | case2 c rest hopens body after hclose | case3 c rest hopens hclose =>
    have hne : c ≠ '*' := by
      rintro rfl
      cases Part.isQuote_of_opensLiteral hopens
    simp [hne]
  | case4 c rest hopens => simp

/-- **A line stays as it is exactly if no comment starts in it.** -/
theorem stripLine_eq_self_iff (before : Option Char) (text : Text) :
    stripLine false before text = (text, false) ↔ Uncommented (Text.piecesAfter before text) := by
  have hplain : ∀ {before : Option Char} {c : Char} {rest : Text} {p : Piece},
      (opensLiteral before c = true → closeQuote c rest = none) → (∀ d, p = .char d ↔ c = d) ∨
        (Text.isQuote c = true ∧ p = .unclosed c) →
      (stripLine false (some c) rest = (rest, false) ↔
        Uncommented (Text.piecesAfter (some c) rest)) →
      (stripLine false before (c :: rest) = (c :: rest, false) ↔
        Uncommented (p :: Text.piecesAfter (some c) rest)) := by
    intro before c rest p hopen hp ih
    rw [stripLine_outside hopen]
    have hchar : ∀ d, Text.isQuote d = false → (p = .char d ↔ c = d) := by
      rintro d hd
      rcases hp with hp | ⟨hquote, rfl⟩
      · exact hp d
      · refine ⟨fun h => (by cases h), ?_⟩
        rintro rfl
        cases hd.symm.trans hquote
    by_cases hsemicolon : c = ';'
    · rw [if_pos hsemicolon, (hchar ';' rfl).2 hsemicolon]
      simp [Uncommented]
    · rw [if_neg hsemicolon]
      by_cases hstart : c = '/' ∧ rest.head? = some '*'
      · obtain ⟨rfl, hstar⟩ := hstart
        obtain ⟨more, hmore⟩ :=
          List.head?_eq_some_iff.1 ((head?_piecesAfter_star (some '/') rest).2 hstar)
        rw [if_pos ⟨rfl, hstar⟩, (hchar '/' rfl).2 rfl, hmore]
        constructor
        · intro h
          have hblank :=
            (stripLine_strips true (some '*') (rest.drop 1)).head?_true rfl '/' (by rw [h]; rfl)
          cases hblank
        · exact fun h => absurd ⟨[], more, rfl⟩ h.2
      · rw [if_neg hstart, uncommented_cons (fun h => hsemicolon ((hchar ';' rfl).1 h)), ← ih]
        · simp [Prod.ext_iff]
        · rintro ⟨h, hstar⟩
          exact hstart ⟨(hchar '/' rfl).1 h, (head?_piecesAfter_star _ _).1 hstar⟩
  fun_induction Text.piecesAfter before text with
  | case1 => simp [stripLine_nil, Uncommented]
  | case2 before c rest hopens body after hclose ih =>
    rw [stripLine_literal hopens hclose, uncommented_cons (by simp) (by simp),
      (eq_append_of_closeQuote hclose).1]
    refine Iff.trans ?_ ih
    simp [Prod.ext_iff]
  | case3 before c rest hopens hclose ih =>
    exact hplain (fun _ => hclose) (.inr ⟨Part.isQuote_of_opensLiteral hopens, rfl⟩) ih
  | case4 before c rest hopens ih =>
    exact hplain (fun h => absurd h hopens) (.inl fun d => by simp) ih

/-! ## Texts -/

theorem stripLines_stripLines (inComment : Bool) (ls : List Text) :
    stripLines false (stripLines inComment ls) = stripLines inComment ls := by
  induction ls generalizing inComment with
  | nil => rfl
  | cons line ls ih =>
    simp only [stripLines]
    rw [(stripLine_strips inComment none line).stripLine_eq fun _ => rfl, ih]

theorem length_stripLines (inComment : Bool) (ls : List Text) :
    (stripLines inComment ls).length = ls.length := by
  induction ls generalizing inComment with
  | nil => rfl
  | cons line ls ih => simp [stripLines, ih]

theorem notMem_of_mem_stripLines {d : Char} (hd : d ≠ ' ') (inComment : Bool)
    (h : ∀ line ∈ ls, d ∉ line) : ∀ line ∈ stripLines inComment ls, d ∉ line := by
  induction ls generalizing inComment with
  | nil => exact h
  | cons line ls ih =>
    obtain ⟨hline, h⟩ := List.forall_mem_cons.1 h
    refine List.forall_mem_cons.2 ⟨fun hmem => ?_, ih _ h⟩
    exact ((stripLine_strips inComment none line).mem d hmem).elim hd hline

theorem uncommented_of_mem_stripLines (inComment : Bool) (ls : List Text) :
    ∀ line ∈ stripLines inComment ls, Uncommented (Text.pieces line) := by
  induction ls generalizing inComment with
  | nil => exact List.forall_mem_nil _
  | cons line ls ih =>
    refine List.forall_mem_cons.2 ⟨?_, ih _⟩
    exact (stripLine_eq_self_iff none _).1
      ((stripLine_strips inComment none line).stripLine_eq fun _ => rfl)

theorem stripLines_eq_self (h : ∀ line ∈ ls, Uncommented (Text.pieces line)) :
    stripLines false ls = ls := by
  induction ls with
  | nil => rfl
  | cons line ls ih =>
    obtain ⟨hline, h⟩ := List.forall_mem_cons.1 h
    simp only [stripLines]
    rw [(stripLine_eq_self_iff none line).2 hline, ih h]

/-- The text that has some lines. -/
def joinLines (ls : List Text) : Text :=
  ls.flatMap (· ++ ['\n'])

theorem dropFinal_of_notMem {d : Char} {line : Text} (h : d ∉ line) :
    Text.dropFinal d line = line := by
  rw [Text.dropFinal, Text.beforeLast?, if_neg fun hlast => h (List.mem_of_getLast? hlast)]
  rfl

theorem lines_joinLines (hfeed : ∀ line ∈ ls, '\n' ∉ line) (hreturn : ∀ line ∈ ls, '\r' ∉ line) :
    lines (joinLines ls) = ls := by
  have hsplit : Text.splitOn '\n' (joinLines ls) = ls ++ [[]] := by
    clear hreturn
    induction ls with
    | nil => rfl
    | cons line ls ih =>
      obtain ⟨hline, hfeed⟩ := List.forall_mem_cons.1 hfeed
      rw [joinLines, List.flatMap_cons, List.append_assoc, List.singleton_append, splitOn_eq,
        List.splitOn_append_cons_self_of_not_mem hline, ← splitOn_eq, ← joinLines, ih hfeed]
      rfl
  have hmap : ls.map (Text.dropFinal '\r') = ls :=
    (List.map_congr_left fun line hline => dropFinal_of_notMem (hreturn line hline)).trans
      (List.map_id' ls)
  rw [lines, hsplit]
  simp [hmap]

theorem notMem_of_mem_lines {text : Text} (h : '\r' ∉ text) :
    ∀ line ∈ lines text, '\n' ∉ line ∧ '\r' ∉ line := by
  have hpart : ∀ part ∈ Text.splitOn '\n' text, '\n' ∉ part ∧ '\r' ∉ part := fun part hpart =>
    ⟨fun hmem => (mem_of_mem_splitOn hpart hmem).2 rfl,
      fun hmem => h (mem_of_mem_splitOn hpart hmem).1⟩
  intro line hline
  rcases List.mem_append.1 hline with hline | hline
  · obtain ⟨part, hmem, rfl⟩ := List.mem_map.1 hline
    have hown := hpart part (List.dropLast_subset _ hmem)
    rwa [dropFinal_of_notMem hown.2]
  · exact hpart line (List.mem_of_getLast? (Option.mem_toList.1 (List.mem_filter.1 hline).1))

end Source

/-- **Stripping removes all comments and nothing else.**  The stripped lines of a text, each with a
line feed behind it, make up a text that has the same stripped lines and so the same statements.
There are as many of them as the text has lines, and no comment starts in any of them.  If no
comment starts in any line of the text itself, then its lines are what is left. -/
theorem SourceFile.ofText_stripped (path : Text) {text : Text} (h : '\r' ∉ text) :
    Source.stripComments (Source.joinLines (Source.stripComments text)) =
      Source.stripComments text ∧
      SourceFile.ofText path (Source.joinLines (Source.stripComments text)) =
        SourceFile.ofText path text ∧
      (Source.stripComments text).length = (Source.lines text).length ∧
      (∀ line ∈ Source.stripComments text, Source.Uncommented line.pieces) ∧
      ((∀ line ∈ Source.lines text, Source.Uncommented line.pieces) →
        Source.stripComments text = Source.lines text) := by
  have hlines := notMem_of_mem_lines h
  have hfeed :=
    notMem_of_mem_stripLines (by decide) false fun line hline => (hlines line hline).1
  have hreturn :=
    notMem_of_mem_stripLines (by decide) false fun line hline => (hlines line hline).2
  have hsame : Source.stripComments (Source.joinLines (Source.stripComments text)) =
      Source.stripComments text := by
    rw [Source.stripComments, Source.stripComments, lines_joinLines hfeed hreturn]
    exact stripLines_stripLines false _
  refine ⟨hsame, ?_, length_stripLines _ _, ?_, stripLines_eq_self⟩
  · rw [SourceFile.ofText, SourceFile.ofText, hsame]
  · exact uncommented_of_mem_stripLines false _

/-- A comment over two lines with quotes in it, and a semicolon in a literal. -/
def commented : Text :=
  "a /* \"\n' */ b ; c\n';' /".toList

/-- What would be comments, in literals. -/
def uncommented : Text :=
  "a '/*' b\n\";\" /".toList

theorem SourceFile.ofText_stripped_comments :
    Source.stripComments commented = ["a ".toList, "  b ".toList, "';' /".toList] ∧
    Source.stripComments (Source.joinLines (Source.stripComments commented)) =
      Source.stripComments commented ∧
    SourceFile.ofText [] (Source.joinLines (Source.stripComments commented)) =
      SourceFile.ofText [] commented ∧
    (∀ line ∈ Source.stripComments commented, Source.Uncommented line.pieces) ∧
    (∀ line ∈ Source.lines uncommented, Source.Uncommented line.pieces) ∧
    Source.stripComments uncommented = Source.lines uncommented := by
  obtain ⟨hlines, hfile, -, hnone, -⟩ := ofText_stripped [] (show '\r' ∉ commented by decide)
  have hsame := (ofText_stripped [] (show '\r' ∉ uncommented by decide)).2.2.2.2
  have huncommented : ∀ line ∈ Source.lines uncommented, Source.Uncommented line.pieces := by
    decide +kernel
  exact ⟨by decide +kernel, hlines, hfile, hnone, huncommented, hsame huncommented⟩

end MacroAssembler
