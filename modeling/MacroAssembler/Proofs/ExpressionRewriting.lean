import MacroAssembler.Proofs.FormulaChain

/-!
# The stages of evaluation on ordinary texts

What the rewriting stages of the evaluator do to texts without references and literals: the first
two leave them as they are, a bracketed group is replaced once its closing bracket is met, and the
search for the colon of a conditional passes over everything that closes its own conditionals.
-/

namespace MacroAssembler

/-! ## Blanks around a text -/

namespace Text

/-- The first character of the text has a property. -/
def Starts (p : Char → Prop) (text : Text) : Prop :=
  ∃ c ∈ text.head?, p c

/-- The last character of the text has a property. -/
def Ends (p : Char → Prop) (text : Text) : Prop :=
  ∃ c ∈ text.getLast?, p c

variable {p q : Char → Prop} {text : Text}

theorem starts_cons {c : Char} (h : p c) (text : Text) : Starts p (c :: text) :=
  ⟨c, rfl, h⟩

theorem Starts.append (h : Starts p text) (rest : Text) : Starts p (text ++ rest) := by
  obtain ⟨c, hhead, hc⟩ := h
  obtain ⟨tail, rfl⟩ := List.head?_eq_some_iff.1 hhead
  exact starts_cons hc _

theorem ends_concat {c : Char} (h : p c) (text : Text) : Ends p (text ++ [c]) :=
  ⟨c, by simp, h⟩

theorem Ends.append (h : Ends p text) (front : Text) : Ends p (front ++ text) := by
  obtain ⟨c, hlast, hc⟩ := h
  obtain ⟨body, rfl⟩ := List.getLast?_eq_some_iff.1 hlast
  rw [← List.append_assoc]
  exact ends_concat hc _

theorem Ends.cons (h : Ends p text) (c : Char) : Ends p (c :: text) :=
  h.append [c]

theorem Ends.imp (h : Ends p text) (hpq : ∀ c, p c → q c) : Ends q text := by
  obtain ⟨c, hlast, hc⟩ := h
  exact ⟨c, hlast, hpq c hc⟩

theorem starts_of_forall (hne : text ≠ []) (h : ∀ c ∈ text, p c) : Starts p text := by
  cases text with
  | nil => exact absurd rfl hne
  | cons c text => exact starts_cons (h c List.mem_cons_self) text

theorem ends_of_forall (hne : text ≠ []) (h : ∀ c ∈ text, p c) : Ends p text :=
  ⟨text.getLast hne, List.getLast?_eq_some_getLast hne, h _ (List.getLast_mem hne)⟩

/-- The text neither starts nor ends with a blank, and there is something in it. -/
def Solid (text : Text) : Prop :=
  Starts (isBlank · = false) text ∧ Ends (isBlank · = false) text

theorem Solid.ne_nil (h : Solid text) : text ≠ [] := by
  rintro rfl
  obtain ⟨⟨c, hc, -⟩, -⟩ := h
  cases hc

theorem trimStart_append {blanks : Text} (hblanks : ∀ c ∈ blanks, isBlank c = true)
    (h : Starts (isBlank · = false) text) : trimStart (blanks ++ text) = text := by
  obtain ⟨c, hhead, hc⟩ := h
  obtain ⟨rest, rfl⟩ := List.head?_eq_some_iff.1 hhead
  rw [trimStart, List.dropWhile_append_of_pos hblanks]
  exact List.dropWhile_cons_of_neg (by simp [hc])

theorem Solid.trim_append {before after : Text} (h : Solid text)
    (hbefore : ∀ c ∈ before, isBlank c = true) (hafter : ∀ c ∈ after, isBlank c = true) :
    trim (before ++ text ++ after) = text := by
  have hend : trimStart (after.reverse ++ text.reverse) = text.reverse :=
    trimStart_append (by simpa using hafter) (by simpa [Starts, Ends] using h.2)
  rw [trim, List.append_assoc, trimStart_append hbefore (h.1.append after), trimEnd,
    List.reverse_append]
  rw [trimStart] at hend
  rw [hend, List.reverse_reverse]

theorem Solid.trim_eq (h : Solid text) : trim text = text := by
  have hnone : ∀ c ∈ ([] : Text), isBlank c = true := by simp
  simpa using h.trim_append hnone hnone

end Text

/-! ## References and literals -/

namespace Text

theorem closeQuote_escape (quote c : Char) (text : Text) : closeQuote quote ('\\' :: c :: text) =
    (closeQuote quote text).map fun p => ('\\' :: c :: p.1, p.2) := by
  rw [closeQuote, if_pos rfl]

theorem closeQuote_quote {quote : Char} (h : quote ≠ '\\') (text : Text) :
    closeQuote quote (quote :: text) = some ([], text) := by
  rw [closeQuote.eq_def]
  simp [h]

theorem closeQuote_of_ne {quote c : Char} (hslash : c ≠ '\\') (hquote : c ≠ quote) (text : Text) :
    closeQuote quote (c :: text) = (closeQuote quote text).map fun p => (c :: p.1, p.2) := by
  rw [closeQuote.eq_def]
  simp [hslash, hquote]

/-- What is behind a closed literal does not matter to it. -/
theorem closeQuote_append {quote : Char} {text body after : Text}
    (h : closeQuote quote text = some (body, after)) (rest : Text) :
    closeQuote quote (text ++ rest) = some (body, after ++ rest) := by
  fun_induction closeQuote quote text generalizing body after with
  | case1 => cases h
  | case2 => cases h
  | case3 d text ih =>
    obtain ⟨⟨body', after'⟩, hclose, heq⟩ := Option.map_eq_some_iff.1 h
    cases heq
    rw [List.cons_append, List.cons_append, closeQuote_escape, ih hclose]
    rfl
  | case4 text hslash =>
    cases h
    exact closeQuote_quote hslash _
  | case5 c text hslash hquote ih =>
    obtain ⟨⟨body', after'⟩, hclose, heq⟩ := Option.map_eq_some_iff.1 h
    cases heq
    rw [List.cons_append, closeQuote_of_ne hslash hquote, ih hclose]
    rfl

/-- A literal and what is behind it make up the text, and the literal is closed on its own. -/
theorem eq_append_of_closeQuote {quote : Char} {text body after : Text}
    (h : closeQuote quote text = some (body, after)) :
    text = body ++ quote :: after ∧ closeQuote quote (body ++ [quote]) = some (body, []) := by
  fun_induction closeQuote quote text generalizing body after with
  | case1 => cases h
  | case2 => cases h
  | case3 d text ih =>
    obtain ⟨⟨body', after'⟩, hclose, heq⟩ := Option.map_eq_some_iff.1 h
    cases heq
    obtain ⟨htext, hbody⟩ := ih hclose
    refine ⟨by simp [← htext], ?_⟩
    rw [List.cons_append, List.cons_append, closeQuote_escape, hbody]
    rfl
  | case4 text hslash =>
    cases h
    exact ⟨rfl, closeQuote_quote hslash []⟩
  | case5 c text hslash hquote ih =>
    obtain ⟨⟨body', after'⟩, hclose, heq⟩ := Option.map_eq_some_iff.1 h
    cases heq
    obtain ⟨htext, hbody⟩ := ih hclose
    refine ⟨by simp [← htext], ?_⟩
    rw [List.cons_append, closeQuote_of_ne hslash hquote, hbody]
    rfl

end Text

section rewriting

variable {σ : Type} {holds : σ → Prop} {env : Environment σ} {text : Text}

/-- Neither a brace nor a quote. -/
def isOrdinary (c : Char) : Bool :=
  c != '\x7b' && c != '"' && c != '\''

theorem opensLiteral_of_isOrdinary {c : Char} (before : Option Char) (h : isOrdinary c = true) :
    Text.opensLiteral before c = false := by
  simp only [isOrdinary, Bool.and_eq_true, bne_iff_ne] at h
  simp [Text.opensLiteral, h.1.2, h.2]

theorem pieces_of_isOrdinary (before : Option Char) (h : ∀ c ∈ text, isOrdinary c = true) :
    Text.piecesAfter before text = text.map .char := by
  induction text generalizing before with
  | nil => rw [Text.piecesAfter, List.map_nil]
  | cons c text ih =>
    obtain ⟨hc, htext⟩ := List.forall_mem_cons.1 h
    rw [Text.piecesAfter, if_neg (by simp [opensLiteral_of_isOrdinary before hc]), ih _ htext]
    rfl

/-- A text without braces has no references. -/
theorem replaceBraces_of_notMem (h : '\x7b' ∉ text) (env : Environment σ) :
    replaceBraces env text = pure text := by
  have hplain : ∀ before, ∃ ts : List Text, braceChunks before text = ts.map .plain ∧
      ts.flatten = text := by
    intro before
    fun_induction braceChunks before text with
    | case1 => exact ⟨[], rfl, rfl⟩
    | case2 before rest => exact absurd List.mem_cons_self h
    | case3 before rest => exact absurd List.mem_cons_self h
    | case4 before c rest hbrace hopens body after hclose ih =>
      obtain ⟨htext, -⟩ := Text.eq_append_of_closeQuote hclose
      obtain ⟨ts, hts, hflat⟩ := ih (by grind)
      exact ⟨(c :: body ++ [c]) :: ts, by rw [hts]; rfl, by simp [hflat, htext]⟩
    | case5 before c rest hbrace hopens hclose ih | case6 before c rest hbrace hopens ih =>
      obtain ⟨ts, hts, hflat⟩ := ih (fun hmem => h (List.mem_cons_of_mem _ hmem))
      exact ⟨[c] :: ts, by rw [hts]; rfl, by simp [hflat]⟩
  obtain ⟨ts, hts, hflat⟩ := hplain none
  unfold replaceBraces
  simp only [hts, List.mapM_map, Function.comp_def]
  rw [List.mapM_pure, pure_bind, List.map_id', hflat]

theorem replaceLiterals_of_pieces (h : Text.pieces text = text.map .char) (env : Environment σ) :
    replaceLiterals env text = pure text := by
  have hflat : (text.map fun c => [c]).flatten = text := by
    rw [← List.flatMap_def]
    exact List.flatMap_singleton' text
  unfold replaceLiterals
  funext s
  simp only [h, List.mapM_map, Function.comp_def]
  rw [List.mapM_pure]
  change EStateM.Result.ok _ s = _
  rw [hflat]
  rfl

/-! ## Groups -/

variable {call : Text → Text → EvalM σ Float}

theorem replaceGroups_append {done : Text} (h : ')' ∉ text) (rest : Text) :
    replaceGroups call done (text ++ rest) = replaceGroups call (text.reverse ++ done) rest := by
  induction text generalizing done with
  | nil => rfl
  | cons c text ih =>
    rw [List.mem_cons, not_or] at h
    rw [List.cons_append, replaceGroups, if_neg (Ne.symm h.1), ih h.2]
    simp

theorem replaceGroups_nil (h : '(' ∉ text) :
    Gives holds (replaceGroups call text.reverse []) text := by
  rw [replaceGroups, if_neg (by simpa using h), List.reverse_reverse]
  exact gives_pure _

/-- No name ends at the end of the text that has been consumed. -/
def Unnamed (done : Text) : Prop :=
  ∀ c ∈ done.head?, isNameChar c = false

theorem Unnamed.takeWhile {done : Text} (h : Unnamed done) : done.takeWhile isNameChar = [] := by
  cases done with
  | nil => rfl
  | cons c done => simp [h c rfl]

theorem Unnamed.dropWhile {done : Text} (h : Unnamed done) : done.dropWhile isNameChar = done := by
  cases done with
  | nil => rfl
  | cons c done => simp [h c rfl]

theorem replaceGroups_close {inner done rest result : Text} {value : Float} (hinner : '(' ∉ inner)
    (hdone : Unnamed done) (hcall : Gives holds (call [] inner) value)
    (hrest : Gives holds (replaceGroups call ((Numeral.write value).reverse ++ done) rest) result) :
    Gives holds (replaceGroups call (inner.reverse ++ '(' :: done) (')' :: rest)) result := by
  rw [replaceGroups, if_pos rfl, Text.splitAtFirst_append (by simpa using hinner)]
  simp only [hdone.takeWhile, hdone.dropWhile, List.reverse_reverse, List.reverse_nil]
  exact hcall.bind hrest

end rewriting

/-! ## Conditionals -/

/-- The last character of a text that is no blank, or `before` if there is none. -/
def lastSolid (before : Char) (text : Text) : Char :=
  text.foldl (fun last c => if isBlank c then last else c) before

theorem lastSolid_append (before : Char) (a b : Text) :
    lastSolid before (a ++ b) = lastSolid (lastSolid before a) b :=
  List.foldl_append

theorem lastSolid_of_ends {p : Char → Prop} {text : Text} (h : Text.Ends p text)
    (hp : ∀ c, p c → isBlank c = false) (before : Char) : p (lastSolid before text) := by
  obtain ⟨c, hlast, hc⟩ := h
  obtain ⟨front, rfl⟩ := List.getLast?_eq_some_iff.1 hlast
  rw [lastSolid_append]
  simpa [lastSolid, hp c hc] using hc

section branches

variable {before : Char} {pending : Nat} {rest : Text}

theorem splitBranches_of_ne {c : Char} (hmark : c ≠ '?') (hcolon : c ≠ ':') :
    splitBranches before pending (c :: rest) =
      (splitBranches (if isBlank c then before else c) pending rest).map fun p =>
      (c :: p.1, p.2) := by
  rw [splitBranches.eq_def]
  simp [hmark, hcolon]

theorem splitBranches_space : splitBranches before pending (' ' :: rest) =
    (splitBranches before pending rest).map fun p => (' ' :: p.1, p.2) :=
  splitBranches_of_ne (by decide) (by decide)

theorem splitBranches_mark : splitBranches before pending ('?' :: rest) =
    (splitBranches '?' (pending + 1) rest).map fun p => ('?' :: p.1, p.2) := by
  rw [splitBranches.eq_def]
  rfl

theorem splitBranches_colon_succ (h : asksForPage before = false) :
    splitBranches before (pending + 1) (':' :: rest) =
      (splitBranches ':' pending rest).map fun p => (':' :: p.1, p.2) := by
  rw [splitBranches.eq_def]
  simp [h, show isBlank ':' = false from rfl]

theorem splitBranches_colon_zero (h : asksForPage before = false) :
    splitBranches before 0 (':' :: rest) = some ([], rest) := by
  rw [splitBranches.eq_def]
  simp [h]

end branches

/-- The search for the colon of a conditional passes over the text and ends no branch in it. -/
def ClosesConditionals (text : Text) : Prop :=
  ∀ before pending tail, splitBranches before pending (text ++ tail) =
    (splitBranches (lastSolid before text) pending tail).map fun p => (text ++ p.1, p.2)

theorem closesConditionals_of_notMem {text : Text} (hmark : '?' ∉ text) (hcolon : ':' ∉ text) :
    ClosesConditionals text := by
  induction text with
  | nil =>
    intro before pending tail
    simp [lastSolid]
  | cons c text ih =>
    rw [List.mem_cons, not_or] at hmark hcolon
    intro before pending tail
    rw [List.cons_append, splitBranches_of_ne (Ne.symm hmark.1) (Ne.symm hcolon.1),
      ih hmark.2 hcolon.2, Option.map_map]
    rfl

/-- A conditional is passed over with its colon, if an operand ends in front of the colon. -/
theorem closesConditionals_conditional {c y n : Text} (hc : ClosesConditionals c)
    (hy : ClosesConditionals y) (hn : ClosesConditionals n)
    (hlast : asksForPage (lastSolid '?' y) = false) :
    ClosesConditionals (c ++ ' ' :: '?' :: ' ' :: y ++ ' ' :: ':' :: ' ' :: n) := by
  intro before pending tail
  have hsolid : lastSolid before (c ++ ' ' :: '?' :: ' ' :: y ++ ' ' :: ':' :: ' ' :: n) =
      lastSolid ':' n := by
    rw [lastSolid_append]
    rfl
  simp only [List.append_assoc, List.cons_append]
  rw [hc, splitBranches_space, splitBranches_mark, splitBranches_space, hy, splitBranches_space,
    splitBranches_colon_succ hlast, splitBranches_space, hn]
  simp only [List.append_assoc, List.cons_append] at hsolid
  simp only [Option.map_map, hsolid]
  rfl

theorem splitTernary_eq_none {text : Text} (h : '?' ∉ text) : splitTernary text = none := by
  simp [splitTernary, Text.splitAtFirst_eq_none h]

theorem splitTernary_conditional {c y n : Text} (hc : '?' ∉ c) (hy : ClosesConditionals y)
    (hlast : asksForPage (lastSolid '?' y) = false) :
    splitTernary (c ++ ' ' :: '?' :: ' ' :: y ++ ' ' :: ':' :: ' ' :: n) =
      some (c ++ [' '], ' ' :: y ++ [' '], ' ' :: n) := by
  have hcut : Text.splitAtFirst '?' (c ++ [' '] ++ '?' :: (' ' :: y ++ ' ' :: ':' :: ' ' :: n)) =
      some (c ++ [' '], ' ' :: y ++ ' ' :: ':' :: ' ' :: n) :=
    Text.splitAtFirst_append (by simpa using hc) _
  have hbranches : splitBranches '?' 0 (' ' :: y ++ ' ' :: ':' :: ' ' :: n) =
      some (' ' :: y ++ [' '], ' ' :: n) := by
    rw [List.cons_append, splitBranches_space, hy, splitBranches_space,
      splitBranches_colon_zero hlast]
    rfl
  have hassoc : c ++ ' ' :: '?' :: ' ' :: y ++ ' ' :: ':' :: ' ' :: n =
      c ++ [' '] ++ '?' :: (' ' :: y ++ ' ' :: ':' :: ' ' :: n) := by
    simp
  rw [hassoc, splitTernary, hcut]
  simp only [Option.bind_eq_bind, Option.bind_some, hbranches]
  rfl

end MacroAssembler
