import MacroAssembler.Proofs.MacroRefinement
import MacroAssembler.Proofs.MacroTokens
import MacroAssembler.Proofs.Nesting
import MacroAssembler.Proofs.PreparedText

/-!
# Long macros

The statements of a long macro are joined into one template when it is defined.  When the macro is
used, the template takes the place of a statement and is split again.

A statement is a part of a line, so it does not split any further.  If its quotes are closed and its
brackets are balanced, then neither what is in front of it nor what is behind it changes how it is
cut (`Text.Whole`), and a template of such statements splits into just these statements.
-/

namespace MacroAssembler

open Text MacroTable

variable {text : Text} {r : Replacement} {name : Text}

namespace Text

variable {sep : Char} {text blanks blanks' : Text}

/-! ## Texts that stay whole -/

/-- A text that is one part wherever it stands: its quotes are closed, behind it no bracket is open,
and it is not split. -/
structure Whole (sep : Char) (text : Text) : Prop where
  closed : ∀ quote, .unclosed quote ∉ pieces text
  level : (pieces text).foldl depthAfter 0 = 0
  undivided : splitTopLevel sep text = [text]

theorem depth_of_closesAll {depth : Nat} {ps : List Piece} (h : closesAll depth ps = true) :
    ps.foldl depthAfter depth = 0 := by
  fun_induction closesAll depth ps with
  | case1 depth => exact congrArg Nat.cast (beq_iff_eq.1 h)
  | case2 depth quote body ps ih => exact ih h
  | case3 depth quote ps ih => exact ih (Bool.and_eq_true_iff.1 h).2
  | case4 depth c ps hopening ih =>
    rw [List.foldl_cons, depthAfter, if_pos hopening]
    exact ih h
  | case5 c ps hopening hclosing => cases h
  | case6 c ps hopening hclosing depth ih =>
    rw [List.foldl_cons, depthAfter, if_neg hopening, if_pos hclosing, Nat.cast_succ,
      Int.add_sub_cancel]
    exact ih h
  | case7 depth c ps hopening hclosing ih =>
    rw [List.foldl_cons, depthAfter, if_neg hopening, if_neg hclosing]
    exact ih h

theorem piecesAfter_of_isBlank (h : ∀ c ∈ blanks, isBlank c = true) (before : Option Char) :
    piecesAfter before blanks = blanks.map .char :=
  pieces_of_isOrdinary before fun c hc => isOrdinary_of_isBlank (h c hc)

/-- Blanks neither open a bracket nor split anything. -/
theorem split_blanks (hsep : separates sep = true)
    (h : ∀ c ∈ blanks, isBlank c = true) (depth : Int) :
    (blanks.map Piece.char).foldl depthAfter depth = depth ∧
      (splitPieces sep depth (blanks.map .char)).2 = [] := by
  induction blanks with
  | nil => exact ⟨rfl, rfl⟩
  | cons c blanks ih =>
    obtain ⟨hc, h⟩ := List.forall_mem_cons.1 h
    have hdepth : depthAfter depth (.char c) = depth := by
      have hopening : isOpening c = false := by
        simp [isOpening, ne_of_isBlank hc (d := '(') rfl, ne_of_isBlank hc (d := '[') rfl]
      have hclosing : isClosing c = false := by
        simp [isClosing, ne_of_isBlank hc (d := ')') rfl, ne_of_isBlank hc (d := ']') rfl]
      simp [depthAfter, hopening, hclosing]
    have hne : ¬(Piece.char c = .char sep ∧ depth = 0) := by
      rintro ⟨heq, -⟩
      cases heq
      simp [separates, hc] at hsep
    rw [List.map_cons, List.foldl_cons, splitPieces, hdepth]
    dsimp only
    rw [if_neg hne]
    exact ih h

theorem undivided_left {depth : Int} {ps qs : List Piece}
    (h : (splitPieces sep depth (ps ++ qs)).2 = []) : (splitPieces sep depth ps).2 = [] := by
  induction ps generalizing depth with
  | nil => rfl
  | cons p ps ih =>
    rw [List.cons_append, splitPieces] at h
    rw [splitPieces]
    dsimp only at h ⊢
    split at h
    · cases h
    next hp =>
      rw [if_neg hp]
      exact ih h

theorem unclosed_notMem_map_char (quote : Char) (text : Text) :
    .unclosed quote ∉ text.map Piece.char := by
  simp

/-- Blanks around a text are cut off it. -/
theorem pieces_blanks (hclosed : ∀ quote, .unclosed quote ∉ pieces text)
    (hblanks : ∀ c ∈ blanks, isBlank c = true) (hblanks' : ∀ c ∈ blanks', isBlank c = true) :
    pieces (blanks ++ text ++ blanks') = blanks.map .char ++ pieces text ++ blanks'.map .char := by
  have hfront := pieces_blanks_append hblanks text
  rw [pieces, piecesAfter_append, piecesAfter_of_isBlank hblanks', ← pieces, hfront]
  rw [← pieces, hfront]
  exact fun quote => List.not_mem_append (unclosed_notMem_map_char quote blanks) (hclosed quote)

/-- Blanks around a text make no difference to whether it is split. -/
theorem splitTopLevel_blanks_iff (hsep : separates sep = true)
    (hclosed : ∀ quote, .unclosed quote ∉ pieces text) (hblanks : ∀ c ∈ blanks, isBlank c = true)
    (hblanks' : ∀ c ∈ blanks', isBlank c = true) :
    splitTopLevel sep (blanks ++ text ++ blanks') = [blanks ++ text ++ blanks'] ↔
      splitTopLevel sep text = [text] := by
  obtain ⟨hdepth, hsplit⟩ := split_blanks hsep hblanks 0
  rw [splitTopLevel_eq_self_iff, splitTopLevel_eq_self_iff, pieces_blanks hclosed hblanks hblanks',
    List.append_assoc, splitPieces_append hsplit, hdepth]
  constructor
  · exact undivided_left
  · intro h
    rw [splitPieces_append h]
    exact (split_blanks hsep hblanks' _).2

namespace Whole

theorem spaced (h : Whole sep text) (hsep : separates sep = true)
    (hblanks : ∀ c ∈ blanks, isBlank c = true) (hblanks' : ∀ c ∈ blanks', isBlank c = true) :
    Whole sep (blanks ++ text ++ blanks') where
  closed := by
    intro quote
    rw [pieces_blanks h.closed hblanks hblanks']
    exact List.not_mem_append (List.not_mem_append (unclosed_notMem_map_char quote _)
      (h.closed quote))
      (unclosed_notMem_map_char quote _)
  level := by
    rw [pieces_blanks h.closed hblanks hblanks', List.foldl_append, List.foldl_append,
      (split_blanks hsep hblanks 0).1, h.level, (split_blanks hsep hblanks' 0).1]
  undivided := (splitTopLevel_blanks_iff hsep h.closed hblanks hblanks').2 h.undivided

/-- A whole text in front of a separator is a part. -/
theorem splitTopLevel_append (h : Whole sep text) (hsep : separates sep = true) (rest : Text) :
    splitTopLevel sep (text ++ sep :: rest) = text :: splitTopLevel sep rest := by
  have hpieces : pieces (text ++ sep :: rest) = pieces text ++ .char sep :: pieces rest := by
    rw [pieces, piecesAfter_append h.closed, piecesAfter_cons_separator hsep]
    rfl
  have htext : ofPieces (pieces text) = text := ofPieces_piecesAfter none text
  rw [splitTopLevel_of_pieces hsep hpieces (splitTopLevel_eq_self_iff.1 h.undivided) h.level, htext]

end Whole

/-- Statements joined by the mark between them. -/
def join (first : Text) (others : List Text) : Text :=
  first ++ others.flatMap (" \\ ".toList ++ ·)

/-- Whole texts that are joined are taken apart again. -/
theorem splitTopLevel_join {first : Text} {others : List Text}
    (h : ∀ text ∈ first :: others, Whole '\\' text) (hblanks : ∀ c ∈ blanks, isBlank c = true)
    (hblanks' : ∀ c ∈ blanks', isBlank c = true) :
    (splitTopLevel '\\' (blanks ++ join first others ++ blanks')).map trim =
      (first :: others).map trim := by
  have hsep : separates '\\' = true := by decide
  have hblank : ∀ c ∈ [' '], isBlank c = true := List.forall_mem_singleton.2 rfl
  induction others generalizing first blanks with
  | nil =>
    have hwhole := (h first List.mem_cons_self).spaced hsep hblanks hblanks'
    rw [join, List.flatMap_nil, List.append_nil, hwhole.undivided, List.map_singleton,
      trim_append_blanks hblanks hblanks']
    rfl
  | cons second others ih =>
    obtain ⟨hfirst, hothers⟩ := List.forall_mem_cons.1 h
    have hwhole := hfirst.spaced hsep hblanks hblank
    have htext : blanks ++ join first (second :: others) ++ blanks' =
        (blanks ++ first ++ [' ']) ++ '\\' :: ([' '] ++ join second others ++ blanks') := by
      simp [join]
    rw [htext, hwhole.splitTopLevel_append hsep, List.map_cons, ih hothers hblank,
      trim_append_blanks hblanks hblank]
    rfl

end Text

/-! ## Words of a text -/

namespace MacroToken

/-- A character that ends words cuts the tokens in two, if the quotes in front of it are closed. -/
theorem ofPieces_append_break {ps : List Piece} (hclosed : ∀ quote, .unclosed quote ∉ ps) {c : Char}
    (hc : endsWord c = true) (qs : List Piece) :
    ofPieces (ps ++ .char c :: qs) = ofPieces ps ++ .other [c] :: ofPieces qs := by
  induction ps with
  | nil => simp [ofPieces, hc]
  | cons p ps ih =>
    have ih := ih fun quote hmem => hclosed quote (List.mem_cons_of_mem _ hmem)
    cases p with
    | literal quote body =>
      rw [List.cons_append, ofPieces, ih]
      rfl
    | unclosed quote => exact absurd List.mem_cons_self (hclosed quote)
    | char d =>
      by_cases hd : endsWord d = true
      · rw [List.cons_append, ofPieces, if_pos hd, ih, ofPieces, if_pos hd]
        rfl
      · rw [List.cons_append, ofPieces, if_neg hd, ih, ofPieces, if_neg hd]
        cases ofPieces ps with
        | nil => rfl
        | cons token tokens => cases token <;> rfl

/-- Whether a character ends a word and is no quote. -/
def isBreak (c : Char) : Bool :=
  endsWord c && !Text.isQuote c && !isWordChar c

theorem isBreak_of_isBlank {c : Char} (h : isBlank c = true) : isBreak c = true := by
  have hquote : Text.isQuote c = false := by
    simp [Text.isQuote, ne_of_isBlank h (d := '"') rfl, ne_of_isBlank h (d := '\'') rfl]
  have hchar := isNameChar_of_isBlank h
  rw [isNameChar, Bool.or_eq_false_iff] at hchar
  simp [isBreak, endsWord, h, hquote, hchar.1]

/-- **A break cuts the tokens of a text in two**, if the quotes in front of it are closed. -/
theorem ofText_append_break {x : Text}
    (hclosed : ∀ quote, .unclosed quote ∉ Text.pieces x) {c : Char}
    (hc : isBreak c = true) (y : Text) :
    ofText (x ++ c :: y) = ofText x ++ .other [c] :: ofText y := by
  simp only [isBreak, Bool.and_eq_true, Bool.not_eq_true'] at hc
  rw [ofText, Text.pieces, piecesAfter_append hclosed, piecesAfter_cons_break hc.1.2 hc.2]
  exact ofPieces_append_break hclosed hc.1.1 _

theorem ofText_nil : ofText [] = [] := by
  rw [ofText, Text.pieces, piecesAfter_nil, ofPieces]

theorem ofText_cons_break {c : Char} (hc : isBreak c = true) (y : Text) :
    ofText (c :: y) = .other [c] :: ofText y := by
  have hclosed : ∀ quote, .unclosed quote ∉ Text.pieces [] := by
    simp [Text.pieces, piecesAfter_nil]
  simpa [ofText_nil] using ofText_append_break hclosed hc y

theorem word_notMem_of_isBlank {blanks : Text} (h : ∀ c ∈ blanks, isBlank c = true) (word : Text) :
    .word word ∉ ofText blanks := by
  induction blanks with
  | nil => simp [ofText_nil]
  | cons c blanks ih =>
    obtain ⟨hc, h⟩ := List.forall_mem_cons.1 h
    rw [ofText_cons_break (isBreak_of_isBlank hc)]
    simpa using ih h

theorem pieces_of_word {name : Text} (hname : ∀ c ∈ name, endsWord c = false) :
    Text.pieces name = name.map .char := by
  refine pieces_of_isOrdinary none fun c hc => ?_
  have hends := hname c hc
  simp only [isOrdinary, Bool.and_eq_true, bne_iff_ne]
  refine ⟨⟨?_, ?_⟩, ?_⟩ <;> rintro rfl <;> exact absurd hends (by decide)

/-- A text without anything that ends a word is one word. -/
theorem ofText_of_word {name : Text} (hne : name ≠ []) (hname : ∀ c ∈ name, endsWord c = false) :
    ofText name = [.word name] := by
  rw [ofText, pieces_of_word hname]
  induction name with
  | nil => exact absurd rfl hne
  | cons c name ih =>
    obtain ⟨hc, hname⟩ := List.forall_mem_cons.1 hname
    rw [List.map_cons, ofPieces, if_neg (by simp [hc])]
    cases name with
    | nil => rfl
    | cons d name => rw [ih (List.cons_ne_nil d name) hname]

end MacroToken

namespace MacroTable

variable {σ : Type} {table : MacroTable} {eval : Text → StateM σ (Option Float)}
variable {expandArg : Text → ExpandM σ Text} {expandBody : (word body : Text) → ExpandM σ Text}
variable {r : Replacement} {name : Text}

theorem ignores_of_all {text : Text} (h : ((MacroToken.ofText text).all fun
      | .word word => !table.contains word
      | .other _ => true) = true) : table.Ignores text := by
  intro word hword
  simpa using List.all_eq_true.1 h _ hword

/-- What a name without arguments is replaced by. -/
def plain? (table : MacroTable) (name : Text) : Option Replacement :=
  (table.macros.lookup (table.key name)).bind (·.find? (·.slots.isNone))

theorem slots_of_plain? (h : table.plain? name = some r) :
    r.slots = none := by
  obtain ⟨list, -, hfind⟩ := Option.bind_eq_some_iff.1 h
  simpa using List.find?_some hfind

theorem expandTokens_name (h : table.plain? name = some r)
    (hbody : expandBody name r.template = pure r.template) {tokens : List MacroToken}
    (htokens : CallArguments.read (MacroToken.textOf tokens) = .none)
    (hignored : ∀ word, .word word ∈ tokens → table.contains word = false) (whole : Text) :
    expandTokens table eval expandArg expandBody whole 0 (.word name :: tokens) =
      pure (r.template ++ MacroToken.textOf tokens) := by
  obtain ⟨list, hlookup, hfind⟩ := Option.bind_eq_some_iff.1 h
  have hselect : select eval expandArg list none = pure (some (r, false)) := by
    rw [select, pure_bind, hfind]
    rfl
  have hsubstitute : r.substitute (none.getD []) table.caseSensitive = r.template := by
    rw [Replacement.substitute, slots_of_plain? h]
  rw [expandTokens, hlookup]
  dsimp only
  rw [htokens]
  dsimp only
  rw [pure_bind]
  dsimp only
  rw [hselect, pure_bind]
  dsimp only
  rw [hsubstitute, hbody, if_neg Bool.false_ne_true, expandTokens_of_ignored hignored, pure_bind,
    pure_bind]

/-- **A name that stands alone is replaced by its template**, blanks around it aside. -/
theorem expand_name {blanks blanks' : Text} (hne : name ≠ [])
    (hname : ∀ c ∈ name, endsWord c = false) (hblanks : ∀ c ∈ blanks, isBlank c = true)
    (hblanks' : ∀ c ∈ blanks', isBlank c = true) (hplain : table.plain? name = some r)
    (hignores : table.Ignores r.template) :
    table.expand eval (blanks ++ name ++ blanks') = pure (blanks ++ r.template ++ blanks') := by
  have hempty : ¬table.isEmpty = true := by
    intro hempty
    rw [isEmpty, List.isEmpty_iff] at hempty
    rw [plain?, hempty] at hplain
    cases hplain
  -- what stands behind the name is no argument list
  have hbehind : MacroToken.ofText (name ++ blanks') = .word name :: MacroToken.ofText blanks' := by
    cases blanks' with
    | nil => rw [List.append_nil, MacroToken.ofText_nil, MacroToken.ofText_of_word hne hname]
    | cons c blanks' =>
      have hc := MacroToken.isBreak_of_isBlank (hblanks' c List.mem_cons_self)
      rw [MacroToken.ofText_append_break ?_ hc, MacroToken.ofText_of_word hne hname,
        MacroToken.ofText_cons_break hc, List.singleton_append]
      rw [MacroToken.pieces_of_word hname]
      exact fun quote => unclosed_notMem_map_char quote name
  have hread : CallArguments.read (MacroToken.textOf (MacroToken.ofText blanks')) = .none := by
    have htrim : Text.trimStart blanks' = [] := List.dropWhile_eq_nil_iff.2 hblanks'
    rw [MacroToken.textOf_ofText, CallArguments.read, htrim]
    rfl
  have htokens : ∀ whole, expandTokens table eval (expandAt table eval 63)
      (fun _ body => expandAt table eval 63 body) whole 0
        (MacroToken.ofText (blanks ++ (name ++ blanks'))) =
          pure (blanks ++ (r.template ++ blanks')) := by
    intro whole
    induction blanks with
    | nil =>
      rw [List.nil_append, hbehind,
        expandTokens_name hplain (expandAt_succ_of_ignores hignores 62) hread,
        MacroToken.textOf_ofText, List.nil_append]
      exact fun word hword => absurd hword (MacroToken.word_notMem_of_isBlank hblanks' word)
    | cons c blanks ih =>
      obtain ⟨hc, hblanks⟩ := List.forall_mem_cons.1 hblanks
      rw [List.cons_append, MacroToken.ofText_cons_break
        (MacroToken.isBreak_of_isBlank hc), expandTokens, ih hblanks]
      rfl
  rw [expand, if_neg hempty, List.append_assoc, List.append_assoc]
  exact htokens _

/-- Statements that name no macro do not name one when they are joined. -/
theorem ignores_join {first : Text} {others : List Text}
    (hclosed : ∀ text ∈ first :: others, ∀ quote, .unclosed quote ∉ Text.pieces text)
    (h : ∀ text ∈ first :: others, table.Ignores text) :
    table.Ignores (Text.join first others) := by
  induction others generalizing first with
  | nil =>
    rw [Text.join, List.flatMap_nil, List.append_nil]
    exact h first List.mem_cons_self
  | cons second others ih =>
    obtain ⟨hfirst, hothers⟩ := List.forall_mem_cons.1 h
    obtain ⟨hclosed, hclosed'⟩ := List.forall_mem_cons.1 hclosed
    have htext : Text.join first (second :: others) =
        first ++ ' ' :: '\\' :: ' ' :: Text.join second others := by simp [Text.join]
    intro word hword
    rw [htext, MacroToken.ofText_append_break hclosed (by decide),
      MacroToken.ofText_cons_break (by decide), MacroToken.ofText_cons_break (by decide)] at hword
    simp only [List.mem_append, List.mem_cons, reduceCtorEq, false_or] at hword
    rcases hword with hword | hword
    · exact hfirst word hword
    · exact ih hclosed' hothers word hword

/-! ## Defining a long macro -/

theorem find?_updateFirst (hr : r.slots = none) (list : List Replacement) :
    ((updateFirst r (fun _ => r) list).getD (list ++ [r])).find? (·.slots.isNone) = some r := by
  induction list with
  | nil => simp [updateFirst, hr]
  | cons s rest ih =>
    have hsame : s.sameSignature r = s.slots.isNone := by
      rw [Replacement.sameSignature, hr]
      cases s.slots <;> rfl
    rw [updateFirst, hsame]
    cases hs : s.slots.isNone with
    | true => simp [hr]
    | false =>
      cases hupdate : updateFirst r (fun _ => r) rest with
      | none => simpa [hs, hupdate] using ih
      | some list => simpa [hs, hupdate] using ih

/-- What is defined without slots is what the name alone is replaced by. -/
theorem plain?_define (table : MacroTable) (name : Text) (hr : r.slots = none) :
    (table.define name r).plain? name = some r := by
  -- those without slots have the lowest rank, and sorting keeps their order
  have hfilter : ∀ list : List Replacement, list.find? (·.slots.isNone) =
      (list.filter (·.rank = 0)).find? (·.slots.isNone) := by
    intro list
    rw [List.find?_filter]
    congr 1
    funext s
    cases hs : s.slots with
    | none => simp [Replacement.rank, hs]
    | some slots => simp
  have hkey : (table.define name r).key name = table.key name := rfl
  rw [plain?, hkey, define]
  dsimp only
  rw [Index.lookup_put, if_pos rfl, Option.bind_some, addReplacement, hfilter,
    filter_mergeSort_rank, ← hfilter]
  exact find?_updateFirst hr _

end MacroTable

theorem Replacement.foldl_collect (hr : r.template ≠ []) (body : List Text) :
    body.foldl Replacement.collect r =
      { r with template := r.template ++ body.flatMap (" \\ ".toList ++ ·) } := by
  induction body generalizing r with
  | nil => simp
  | cons statement body ih =>
    have hcollect : r.collect statement =
        { r with template := r.template ++ " \\ ".toList ++ statement } := by
      rw [collect, if_neg (by simpa using hr)]
    have hne : (r.collect statement).template ≠ [] := by simp [hcollect]
    rw [List.foldl_cons, ih hne, hcollect]
    simp

/-- The statements of a body are collected until the end mark, which defines the macro. -/
theorem State.foldl_collect {st : State} {body : List Text} {mark : Text}
    (hst : st.longMacro = some (name, r))
    (hbody : ∀ s ∈ body, Directive.ofWord (Text.splitWord s).1 ≠ some (.macroText .endLong))
    (hmark : Directive.ofWord (Text.splitWord mark).1 = some (.macroText .endLong)) :
    (body ++ [mark]).foldl State.collect st = { st with
      longMacro := none, macros := st.macros.define name (body.foldl Replacement.collect r) } := by
  induction body generalizing st r with
  | nil =>
    rw [List.nil_append, List.foldl_cons, List.foldl_nil, State.collect, hst]
    exact if_pos hmark
  | cons s body ih =>
    obtain ⟨hs, hbody⟩ := List.forall_mem_cons.1 hbody
    have hcollect : st.collect s = { st with longMacro := some (name, r.collect s) } := by
      rw [State.collect, hst]
      exact if_neg hs
    rw [List.cons_append, List.foldl_cons, hcollect, ih rfl hbody]
    rfl

/-- A name that can be defined is one word. -/
theorem Replacement.word_of_ofDefinition (h : ofDefinition text = .ok (name, r)) :
    name ≠ [] ∧ ∀ c ∈ name, endsWord c = false := by
  unfold ofDefinition at h
  dsimp only at h
  split at h
  · cases h
  next hvalid =>
    have hname : name = (Text.trim text).takeWhile fun c => !isBlank c && c != '(' := by
      split at h
      · split at h
        · cases h
        · cases h
          rfl
      · cases h
        rfl
    rw [← hname] at hvalid
    simp only [Bool.not_eq_true', Bool.not_eq_false, Bool.and_eq_true, List.any_eq_false] at hvalid
    obtain ⟨hhead, hseparators⟩ := hvalid
    refine ⟨?_, fun c hc => ?_⟩
    · rintro rfl
      cases hhead
    · have hblank : (!isBlank c && c != '(') = true := by
        rw [hname] at hc
        exact List.mem_takeWhile_imp (p := fun c => !isBlank c && c != '(') hc
      rw [endsWord, Bool.or_eq_false_iff]
      exact ⟨by simpa using (Bool.and_eq_true_iff.1 hblank).1, by simpa using hseparators c hc⟩

theorem Text.splitWord_of_word (hname : ∀ c ∈ name, endsWord c = false) :
    (Text.splitWord name).1 = name := by
  have hblank : ∀ c ∈ name, isBlank c = false := fun c hc => (Bool.or_eq_false_iff.1 (hname c hc)).1
  have hstart : Text.trimStart name = name := by
    cases name with
    | nil => rfl
    | cons c name => exact List.dropWhile_cons_of_neg (by simp [hblank c List.mem_cons_self])
  rw [Text.splitWord, hstart]
  exact List.takeWhile_eq_self_iff.2 fun c hc => by simp [hblank c hc]

/-- A statement that can be collected for a long macro: a part of a line without the blanks around
it, not the end mark, with its quotes closed and its brackets balanced. -/
structure IsCollected (text : Text) : Prop where
  part : ∃ line, ∃ part ∈ Text.splitTopLevel '\\' line, Text.trim part = text
  ne_nil : text ≠ []
  goesOn : Directive.ofWord (Text.splitWord text).1 ≠ some (.macroText .endLong)
  balanced : Text.balanced text = true
  closed : ∀ quote, .unclosed quote ∉ Text.pieces text

theorem IsCollected.whole (h : IsCollected text) : Text.Whole '\\' text where
  closed := h.closed
  level := depth_of_closesAll h.balanced
  undivided := by
    obtain ⟨line, part, hpart, rfl⟩ := h.part
    obtain ⟨blanks, blanks', htext, hblanks, hblanks'⟩ := exists_trim part
    have hundivided := splitTopLevel_of_mem (by decide) hpart
    rw [htext] at hundivided
    exact (splitTopLevel_blanks_iff (by decide) h.closed hblanks hblanks').1 hundivided

theorem IsCollected.trim_eq (h : IsCollected text) : Text.trim text = text := by
  obtain ⟨line, part, -, rfl⟩ := h.part
  exact (solid_trim h.ne_nil).trim_eq

/-- Whether a text can be collected as it stands. -/
def canCollect (text : Text) : Bool :=
  Text.splitTopLevel '\\' text = [text] && Text.trim text = text && !text.isEmpty &&
    Text.balanced text &&
    Directive.ofWord (Text.splitWord text).1 ≠ some (.macroText .endLong) &&
    (Text.pieces text).all (!· matches .unclosed _)

theorem isCollected_of_canCollect (h : canCollect text = true) : IsCollected text := by
  simp only [canCollect, Bool.and_eq_true, decide_eq_true_eq, Bool.not_eq_true',
    List.isEmpty_eq_false_iff, List.all_eq_true] at h
  obtain ⟨⟨⟨⟨⟨hsplit, htrim⟩, hne⟩, hbalanced⟩, hgoesOn⟩, hclosed⟩ := h
  refine ⟨⟨text, text, by rw [hsplit]; exact List.mem_singleton_self _, htrim⟩, hne,
    hgoesOn, hbalanced, ?_⟩
  intro quote hmem
  cases hclosed _ hmem

/-- A macro of which some statements have been collected. -/
theorem foldl_collect_eq_join {first : Text} (hne : first ≠ []) (others : List Text) :
    (first :: others).foldl Replacement.collect ⟨none, []⟩ = ⟨none, Text.join first others⟩ := by
  have hfirst : Replacement.collect ⟨none, []⟩ first = ⟨none, first⟩ := rfl
  rw [List.foldl_cons, hfirst, Replacement.foldl_collect hne]
  rfl

/-! ## Using a long macro -/

/-- The texts of the statements that an expanded text stands for. -/
theorem Source.map_trim_expandedStatements (column0 : Bool) (text : Text) :
    (expandedStatements column0 text).map (fun s => Text.trim s.text) =
      (Text.splitTopLevel '\\' text).map Text.trim := by
  have htrim : ∀ part, Text.trim (Text.trimEnd part) = Text.trim part := by
    intro part
    obtain ⟨blanks, hpart, hblanks⟩ := exists_trimEnd_append part
    have h : Text.trim ([] ++ Text.trimEnd part ++ blanks) = Text.trim (Text.trimEnd part) :=
      trim_append_blanks (List.forall_mem_nil _) hblanks
    rw [List.nil_append, ← hpart] at h
    exact h.symm
  calc (expandedStatements column0 text).map (fun s => Text.trim s.text)
    _ = (Text.splitTopLevel '\\' text).zipIdx.map (fun part => Text.trim (Text.trimEnd part.1)) :=
      List.map_map
    _ = ((Text.splitTopLevel '\\' text).zipIdx.map Prod.fst).map Text.trim := by
      rw [List.map_map]
      exact List.map_congr_left fun part _ => htrim part.1
    _ = (Text.splitTopLevel '\\' text).map Text.trim := by rw [List.zipIdx_map_fst]

namespace PassM

theorem expandMacros_of_expand {stage : Stage} {st : State} {text expanded : Text}
    (h : st.macros.expand stage.slotValue text = pure expanded) :
    expandMacros text stage st = .ok expanded st := by
  rw [expandMacros_apply, h]
  split
  next hempty =>
    rw [MacroTable.expand, if_pos hempty] at h
    cases congrFun h st
    rfl
  · rfl

theorem expandStatement_splices {stage : Stage} {st : State} {file : Nat}
    {pos : Position} {s : Statement} {text : Text} (hs : unexpanded st file pos = some s)
    (hunnamed : Command.namesMacros s.text s.column0 = false)
    (hexpand : expandMacros s.text stage st = .ok text st) (hother : text ≠ s.text) :
    ∃ st', expandStatement file pos stage st = .ok () st' ∧
      st'.store = st.store.modifyFile file (·.splice pos text) := by
  refine ⟨{ st with store := st.store.modifyFile file (·.splice pos text) }.record
    (.spliced file pos (Source.expandedStatements s.column0 text).length), ?_, rfl⟩
  rw [expandStatement_apply, hs]
  dsimp only
  rw [if_neg (by simp [hunnamed]), PassM.bind_of_ok hexpand, replaceStatement, if_neg hother]
  rfl

/-- **A long macro comes back as it was written**, unless its name is that of a directive with the
names of macros behind it.  A statement that is just the name is replaced by the statements of the
body, and the rest of the line stays as it is. -/
theorem expandStatement_longMacro {stage : Stage} {header name mark : Text} {body : List Text}
    {st later : State} {file : Nat} {pos : Position} {s : Statement}
    (hheader : Replacement.ofDefinition header = .ok (name, ⟨none, []⟩))
    (hname : (Directive.ofWord name).any Directive.namesMacros = false)
    (hst : st.longMacro = some (name, ⟨none, []⟩)) (hne : body ≠ [])
    (hbody : ∀ text ∈ body, IsCollected text)
    (hmark : Directive.ofWord (Text.splitWord mark).1 = some (.macroText .endLong))
    (hlater : later.macros.plain? name =
      ((body ++ [mark]).foldl State.collect st).macros.plain? name)
    (hignores : ∀ text ∈ body, later.macros.Ignores text)
    (hs : unexpanded later file pos = some s) (hcolumn : s.column0 = false)
    (htext : Text.trim s.text = name) :
    ∃ later' news, expandStatement file pos stage later = .ok () later' ∧
      news.length = body.length ∧ news.map (fun s => Text.trim s.text) = body ∧
      (later'.store.file file).lines = (later.store.file file).lines.modify pos.line fun old =>
        old.take pos.statement ++ news ++ old.drop (pos.statement + 1) := by
  obtain ⟨hnonempty, hword⟩ := Replacement.word_of_ofDefinition hheader
  obtain ⟨blanks, blanks', hsplit, hblanks, hblanks'⟩ := exists_trim s.text
  rw [htext] at hsplit
  obtain ⟨first, others, rfl⟩ := List.exists_cons_of_ne_nil hne
  -- the name alone means the joined statements
  have hplain : later.macros.plain? name = some ⟨none, Text.join first others⟩ := by
    rw [hlater, State.foldl_collect hst (fun text htext => (hbody text htext).goesOn) hmark,
      foldl_collect_eq_join (hbody first List.mem_cons_self).ne_nil]
    exact MacroTable.plain?_define _ _ rfl
  have hjoin : later.macros.Ignores (Text.join first others) :=
    ignores_join (fun text htext => (hbody text htext).closed) hignores
  have hexpand : expandMacros s.text stage later =
      .ok (blanks ++ Text.join first others ++ blanks') later := by
    refine expandMacros_of_expand ?_
    rw [hsplit]
    exact expand_name hnonempty hword hblanks hblanks' hplain hjoin
  have hunnamed : Command.namesMacros s.text s.column0 = false := by
    have hfirst : (Text.splitWord s.text).1 = name := by
      rw [← splitWord_trim_fst, htext, splitWord_of_word hword]
    have hcolon : name.getLast? ≠ some ':' := by
      intro hlast
      exact absurd (hword ':' (List.mem_of_getLast? hlast)) (by decide)
    simp [Command.namesMacros, hfirst, hcolumn, hcolon, hname]
  have hother : blanks ++ Text.join first others ++ blanks' ≠ s.text := by
    intro heq
    rw [hsplit] at heq
    have hsame : Text.join first others = name :=
      List.append_cancel_left (List.append_cancel_right heq)
    rw [hsame] at hjoin
    have hunknown := hjoin name (by simp [MacroToken.ofText_of_word hnonempty hword])
    obtain ⟨list, hlookup, -⟩ := Option.bind_eq_some_iff.1 hplain
    rw [MacroTable.contains, hlookup] at hunknown
    cases hunknown
  obtain ⟨hstatement, -⟩ := statementAt_of_unexpanded hs
  have hmap :=
    Source.map_trim_expandedStatements s.column0 (blanks ++ Text.join first others ++ blanks')
  rw [splitTopLevel_join (fun text htext => (hbody text htext).whole) hblanks hblanks',
    List.map_congr_left fun text htext => (hbody text htext).trim_eq, List.map_id'] at hmap
  obtain ⟨later', hrun, hstore⟩ := expandStatement_splices hs hunnamed hexpand hother
  refine ⟨later', _, hrun, ?_, hmap, ?_⟩
  · rw [← hmap, List.length_map]
  · rw [hstore]
    exact (SourceStore.lines_splice _ hstatement _ _).trans (if_pos rfl)

/-- The state after the statements of a body were collected, with a line of source: a statement that
is just the name of the macro, and another one behind it. -/
def collected (name : Text) (body : List Text) : State :=
  (body ++ [".enddeflong".toList]).foldl State.collect
    { State.initial {} { files := #[⟨"main".toList, #[[⟨' ' :: name, false, false, none⟩,
        ⟨" nop".toList, false, false, none⟩]]⟩] } {} with
      longMacro := some (name, ⟨none, []⟩) }

/-- A body with an apostrophe that is no quote, and with a bracket and a backslash in a literal. -/
def quotedBody : List Text :=
  ["ex af,af'".toList, ".db (2), \") \\\\\"".toList]

theorem expandStatement_longMacro_quoted :
    ∃ later' news, expandStatement 0 ⟨0, 0⟩ draftStage
      (collected "m".toList quotedBody) = .ok () later' ∧
      news.length = 2 ∧ news.map (fun s => Text.trim s.text) = quotedBody ∧
      (later'.store.file 0).lines = ((collected "m".toList quotedBody).store.file 0).lines.modify 0
        fun old => old.take 0 ++ news ++ old.drop (0 + 1) := by
  have hheader : Replacement.ofDefinition "m".toList =
      .ok ("m".toList, ⟨none, []⟩) := by decide +kernel
  have hall : quotedBody.all canCollect = true := by decide +kernel
  have hbody : ∀ text ∈ quotedBody, IsCollected text := fun text htext =>
    isCollected_of_canCollect (List.all_eq_true.1 hall text htext)
  have hignores : ∀ text ∈ quotedBody, (collected "m".toList quotedBody).macros.Ignores text :=
    List.forall_mem_cons.2 ⟨ignores_of_all (by decide +kernel),
      List.forall_mem_singleton.2 (ignores_of_all (by decide +kernel))⟩
  exact expandStatement_longMacro hheader (by decide +kernel) rfl (by decide) hbody
    (by decide +kernel) rfl
    hignores rfl rfl (by decide +kernel)

/-- The name of a macro that is also a directive with the names of macros behind it is not
expanded. -/
theorem longMacro_left_ifdef :
    Replacement.ofDefinition ".ifdef".toList = .ok (".ifdef".toList, ⟨none, []⟩) ∧
    IsCollected ".db 1".toList ∧
    (collected ".ifdef".toList [".db 1".toList]).macros.Ignores ".db 1".toList ∧
    unexpanded (collected ".ifdef".toList [".db 1".toList]) 0 ⟨0, 0⟩ =
      some ⟨" .ifdef".toList, false, false, none⟩ ∧
    ∃ later', expandStatement 0 ⟨0, 0⟩ draftStage (collected ".ifdef".toList [".db 1".toList]) =
        .ok () later' ∧
      (later'.store.file 0).lines =
        #[[⟨" .ifdef".toList, false, true, none⟩, ⟨" nop".toList, false, false, none⟩]] := by
  have hs : unexpanded (collected ".ifdef".toList [".db 1".toList]) 0 ⟨0, 0⟩ =
      some ⟨" .ifdef".toList, false, false, none⟩ := rfl
  have hnames : Command.namesMacros " .ifdef".toList false = true := by decide +kernel
  refine ⟨by decide +kernel, isCollected_of_canCollect (by decide +kernel),
    ignores_of_all (by decide +kernel), hs, ?_⟩
  rw [expandStatement_apply, hs]
  dsimp only
  rw [if_pos hnames]
  exact ⟨_, rfl, rfl⟩

end PassM

end MacroAssembler
