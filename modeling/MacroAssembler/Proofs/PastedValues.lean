import MacroAssembler.Proofs.ExpressionDepth

/-!
# Values next to words

Groups, references and literals become values in the text of an expression, and the text is read
again with the values in it.  So a value joins the word it is pasted next to: `(1)2` is the number
12.  Only a blank keeps the two apart, and then there is no operator between them and the expression
is refused.
-/

namespace MacroAssembler

open Text Formula

variable {σ : Type} {env : Environment σ} {front back : Text}

/-! ## Insets -/

/-- What evaluation replaces by a value. -/
inductive Inset where
  /-- A group, with the name of a function in front of it. -/
  | group (name inner : Text)
  | reference (inner : Text)
  | literal (quote : Char) (body : Text)

namespace Inset

/-- The inset as it is written. -/
def text : Inset → Text
  | group name inner => name ++ '(' :: inner ++ [')']
  | reference inner => '\x7b' :: inner ++ ['\x7d']
  | literal quote body => quote :: body ++ [quote]

/-- The value that takes its place, if conditionals in a group may nest `nesting` deep. -/
def value (env : Environment σ) (nesting : Nat) : Inset → EvalM σ Float
  | group name inner => callGroup env (evalNested env nesting) name inner
  | reference inner =>
    match ReusableRef.read inner with
    | some target => env.reusable target
    | none => throw (.badReusable inner)
  | literal _ body => return Float.ofNat (packedValue (env.charByte (← get)) (Text.unescape body))

/-- Behind `front`, the inset is replaced as it stands: it is the first group that is closed, or a
reference or literal that ends where it is taken to end. -/
def Fits (front : Text) : Inset → Prop
  | group name inner => (∀ c ∈ name, isNameChar c = true) ∧ Unnamed front.reverse ∧ ')' ∉ front ∧
      ∀ c ∈ inner, isOrdinary c = true ∧ c ≠ '(' ∧ c ≠ ')'
  | reference inner => '\x7d' ∉ inner
  | literal quote body => Text.opensLiteral front.getLast? quote = true ∧
      Text.closeQuote quote (body ++ [quote]) = some (body, [])

end Inset

/-- The two sides of an inset: no quotes and no braces, and no blanks around the whole. -/
structure Surrounding (front back : Text) : Prop where
  front_ordinary : ∀ c ∈ front, isOrdinary c = true
  back_ordinary : ∀ c ∈ back, isOrdinary c = true
  trimStart_front : Text.trimStart front = front
  trimEnd_back : Text.trimEnd back = back

namespace Surrounding

theorem solid (h : Surrounding front back) {text : Text} (htext : text.Solid) :
    (front ++ text ++ back).Solid := by
  constructor
  · by_cases hnil : front = []
    · rw [hnil]
      exact htext.1.append back
    · have hstart := h.trimStart_front
      rw [Text.trimStart] at hstart
      exact ((hstart ▸ starts_dropWhile (hstart.symm ▸ hnil)).append text).append back
  · by_cases hnil : back = []
    · rw [hnil, List.append_nil]
      exact htext.2.append front
    · exact (h.trimEnd_back ▸ ends_trimEnd (h.trimEnd_back.symm ▸ hnil)).append _

theorem isOrdinary_write (h : Surrounding front back) (x : Float) :
    ∀ c ∈ front ++ Numeral.write x ++ back, isOrdinary c = true :=
  List.forall_mem_append.2
    ⟨List.forall_mem_append.2 ⟨h.front_ordinary, fun _ => Part.isOrdinary_of_mem_write⟩,
    h.back_ordinary⟩

end Surrounding

theorem solid_write (x : Float) : (Numeral.write x).Solid := by
  have hblank : ∀ c ∈ Numeral.write x, isBlank c = false := by
    intro c hc
    rcases Numeral.of_mem_write hc with hname | rfl | rfl
    · exact isBlank_of_isNameChar hname
    · rfl
    · rfl
  exact ⟨starts_of_forall (Numeral.write_ne_nil x) hblank,
    ends_of_forall (Numeral.write_ne_nil x) hblank⟩

/-! ## The scans -/

theorem braceChunks_append_of_isOrdinary {text : Text} (h : ∀ c ∈ text, isOrdinary c = true)
    (before : Option Char) (rest : Text) : braceChunks before (text ++ rest) =
      text.map (fun c => .plain [c]) ++ braceChunks (Part.lastOr before text) rest := by
  induction text generalizing before with
  | nil => rfl
  | cons c text ih =>
    obtain ⟨hc, htext⟩ := List.forall_mem_cons.1 h
    have hbrace : c ≠ '\x7b' := by
      rintro rfl
      cases hc
    rw [List.cons_append, braceChunks_char hbrace (opensLiteral_of_isOrdinary _ hc), ih htext,
      Part.lastOr_cons]
    rfl

theorem braceChunks_of_isOrdinary {text : Text} (h : ∀ c ∈ text, isOrdinary c = true)
    (before : Option Char) : braceChunks before text = text.map fun c => .plain [c] := by
  have happend := braceChunks_append_of_isOrdinary h before []
  rwa [List.append_nil, braceChunks, List.append_nil] at happend

/-- A scan that finds single characters around one stretch changes nothing but the stretch. -/
theorem mapM_between {α : Type} {f : α → EvalM σ Text} {char : Char → α}
    (hchar : ∀ c, f (char c) = pure [c]) (a : α) (front back : Text) :
    ((front.map char ++ a :: back.map char).mapM f >>= fun parts => pure parts.flatten) =
      f a >>= fun t => pure (front ++ t ++ back) := by
  have hplain : ∀ text : Text, (text.map char).mapM f = pure (text.map fun c => [c]) := by
    intro text
    simp only [List.mapM_map, Function.comp_def, hchar, List.mapM_pure]
  have hflat : ∀ text : Text, (text.map fun c => [c]).flatten = text := by
    intro text
    rw [← List.flatMap_def]
    exact List.flatMap_singleton' text
  simp only [List.mapM_append, List.mapM_cons, hplain, pure_bind, bind_assoc, List.flatten_append,
    List.flatten_cons, hflat, List.append_assoc]

theorem replaceBraces_of_chunks {text : Text} {chunk : BraceChunk} (h : braceChunks none text =
    front.map (fun c => .plain [c]) ++ chunk :: back.map fun c => .plain [c]) (env :
    Environment σ) :
    replaceBraces env text = BraceChunk.replace env text chunk >>= fun t => pure
      (front ++ t ++ back) := by
  have hchar : ∀ c, BraceChunk.replace env text (.plain [c]) = pure [c] := fun _ => rfl
  have hscan := mapM_between hchar chunk front back
  rw [← h] at hscan
  exact hscan

theorem replaceBraces_reference (h : Surrounding front back) {inner : Text}
    (hinner : '\x7d' ∉ inner)
    (env : Environment σ) (nesting : Nat) :
    replaceBraces env (front ++ (Inset.reference inner).text ++ back) =
      (Inset.reference inner).value env nesting >>= fun x => pure
      (front ++ Numeral.write x ++ back) := by
  have hchunks : braceChunks none (front ++ (Inset.reference inner).text ++ back) =
      front.map (fun c => .plain [c]) ++ .reference inner :: back.map fun c => .plain [c] := by
    have hassoc : front ++ (Inset.reference inner).text ++ back = front ++ '\x7b' ::
        (inner ++ '\x7d' :: back) := by
      simp [Inset.text]
    rw [hassoc, braceChunks_append_of_isOrdinary h.front_ordinary,
      braceChunks_reference (splitAtFirst_append hinner back),
        braceChunks_of_isOrdinary h.back_ordinary]
  rw [replaceBraces_of_chunks hchunks, BraceChunk.replace, Inset.value]
  cases ReusableRef.read inner with
  | none => rfl
  | some target => simp only [bind_assoc, pure_bind]

theorem replaceLiterals_literal (h : Surrounding front back) {quote : Char} {body : Text}
    (hfits : (Inset.literal quote body).Fits front) (env : Environment σ) (nesting : Nat) :
    (replaceBraces env (front ++ (Inset.literal quote body).text ++ back) >>= replaceLiterals env) =
      (Inset.literal quote body).value env nesting >>= fun x => pure
      (front ++ Numeral.write x ++ back) := by
  obtain ⟨hopens, hclose⟩ := hfits
  have hassoc : front ++ (Inset.literal quote body).text ++ back = front ++ quote ::
      (body ++ [quote] ++ back) := by
    simp [Inset.text]
  have hbrace : quote ≠ '\x7b' := by
    rintro rfl
    simp [Text.opensLiteral] at hopens
  have hlast : Part.lastOr none front = front.getLast? := Option.or_none
  rw [← hlast] at hopens
  have hclosed := closeQuote_append hclose back
  have hchunks :=
    braceChunks_append_of_isOrdinary h.front_ordinary none (quote :: (body ++ [quote] ++ back))
  have hpieces :=
    piecesAfter_append_of_isOrdinary h.front_ordinary none (quote :: (body ++ [quote] ++ back))
  rw [braceChunks_literal hbrace hopens hclosed, List.nil_append,
    braceChunks_of_isOrdinary h.back_ordinary] at hchunks
  rw [piecesAfter_literal hopens hclosed, List.nil_append,
    pieces_of_isOrdinary _ h.back_ordinary] at hpieces
  rw [hassoc, replaceBraces_of_chunks hchunks, BraceChunk.replace, pure_bind, pure_bind]
  have htext : front ++ (quote :: body ++ [quote]) ++ back = front ++ quote ::
      (body ++ [quote] ++ back) := by simp
  funext s
  have hchar : ∀ c, Piece.replace (σ := σ) (env.charByte s)
      (front ++ quote :: (body ++ [quote] ++ back)) (.char c) = pure [c] := fun _ => rfl
  rw [htext, replaceLiterals_apply, Text.pieces, hpieces, mapM_between hchar]
  rfl

/-! ## Groups -/

theorem replaceGroups_inset {name inner : Text} (hfits : (Inset.group name inner).Fits front)
    (call : Text → Text → EvalM σ Float) (back : Text) :
    replaceGroups call [] (front ++ (Inset.group name inner).text ++ back) =
      call name inner >>= fun x => replaceGroups call [] (front ++ Numeral.write x ++ back) := by
  obtain ⟨hname, hunnamed, hfront, hinner⟩ := hfits
  have hassoc : front ++ (Inset.group name inner).text ++ back = (front ++ name ++ '(' :: inner) ++
      ')' :: back := by
    simp [Inset.text]
  have hclosing : ')' ∉ front ++ name ++ '(' :: inner := by
    have hname' := closing_notMem_of_isNameChar hname
    have hinner' : ')' ∉ inner := fun hmem => (hinner _ hmem).2.2 rfl
    simp [hfront, hname', hinner']
  have hreverse : (front ++ name ++ '(' :: inner).reverse =
      inner.reverse ++ '(' :: (name.reverse ++ front.reverse) := by
    simp
  have hopening : '(' ∉ inner.reverse := fun hmem => (hinner _ (List.mem_reverse.1 hmem)).2.1 rfl
  have hnames : ∀ c ∈ name.reverse, isNameChar c = true :=
    fun c hc => hname c (List.mem_reverse.1 hc)
  rw [hassoc, replaceGroups_eq_loop, splitAtFirst_append hclosing]
  simp only [hreverse, splitAtFirst_append hopening, List.takeWhile_append_of_pos hnames,
    List.dropWhile_append_of_pos hnames, hunnamed.takeWhile, hunnamed.dropWhile, List.append_nil,
    List.reverse_reverse]

theorem Inset.solid_text (p : Inset) (hfits : p.Fits front) : p.text.Solid := by
  cases p with
  | group name inner =>
    refine ⟨?_, ends_concat (p := (isBlank · = false)) rfl _⟩
    cases name with
    | nil => exact starts_cons (p := (isBlank · = false)) rfl _
    | cons c name => exact starts_cons (isBlank_of_isNameChar (hfits.1 c List.mem_cons_self)) _
  | reference inner =>
    exact ⟨starts_cons (p := (isBlank · = false)) rfl _,
      ends_concat (p := (isBlank · = false)) rfl _⟩
  | literal quote body =>
    have hquote : isBlank quote = false := by
      rcases Part.eq_of_isQuote (Part.isQuote_of_opensLiteral hfits.1) with rfl | rfl <;> rfl
    exact ⟨starts_cons hquote _, ends_concat hquote _⟩

/-- **An inset is as good as its value**, pasted into the text. -/
theorem evalNested_inset (h : Surrounding front back) {p : Inset} (hfits : p.Fits front)
    (nesting : Nat) : evalNested env (nesting + 1) (front ++ p.text ++ back) =
      p.value env nesting >>= fun x => evalNested env (nesting + 1)
        (front ++ Numeral.write x ++ back) := by
  have hsolid := h.solid (p.solid_text hfits)
  have hpasted : ∀ x, evalNested env (nesting + 1) (front ++ Numeral.write x ++ back) =
      replaceGroups (callGroup env (evalNested env nesting)) []
        (front ++ Numeral.write x ++ back) >>=
        Formula.evalSplit env nesting := fun x =>
    evalNested_of_isOrdinary (h.solid (solid_write x)).trim_eq
      (h.solid (solid_write x)).ne_nil (h.isOrdinary_write x)
  have hstages : ∀ prepare : EvalM σ Text,
      (replaceBraces env (front ++ p.text ++ back) >>= replaceLiterals env) = prepare →
      evalNested env (nesting + 1) (front ++ p.text ++ back) = prepare >>= fun text =>
        replaceGroups (callGroup env (evalNested env nesting)) [] text >>= Formula.evalSplit
          env nesting := by
    rintro _ rfl
    rw [evalNested, hsolid.trim_eq, if_neg (by simpa using hsolid.ne_nil), bind_assoc]
    rfl
  simp only [hpasted]
  cases p with
  | group name inner =>
    have hordinary : ∀ c ∈ front ++ (Inset.group name inner).text ++ back, isOrdinary c = true := by
      simp only [Inset.text, List.forall_mem_append, List.forall_mem_cons]
      exact ⟨⟨h.front_ordinary, ⟨fun c hc => isOrdinary_of_isNameChar (hfits.1 c hc), rfl,
        fun c hc => (hfits.2.2.2 c hc).1⟩, rfl, List.forall_mem_nil _⟩, h.back_ordinary⟩
    rw [evalNested_of_isOrdinary hsolid.trim_eq hsolid.ne_nil hordinary,
      replaceGroups_inset hfits, bind_assoc]
    rfl
  | reference inner =>
    rw [hstages _ (by rw [replaceBraces_reference h hfits env nesting, bind_assoc]), bind_assoc]
    refine bind_congr fun x => ?_
    rw [pure_bind, replaceLiterals_of_pieces (pieces_of_isOrdinary none (h.isOrdinary_write x)),
      pure_bind]
  | literal quote body =>
    rw [hstages _ (replaceLiterals_literal h hfits env nesting), bind_assoc]
    exact bind_congr fun x => pure_bind _ _

/-! ## Words -/

/-- Some name characters, and nothing else. -/
structure Text.IsWord (text : Text) : Prop where
  ne_nil : text ≠ []
  chars : ∀ c ∈ text, isNameChar c = true

theorem Text.IsWord.solid {word : Text} (h : word.IsWord) : word.Solid :=
  (framed_of_isNameChar h.ne_nil h.chars).solid

/-- A word is read as one operand. -/
theorem Text.IsWord.exists_read {word tail : Text} (h : word.IsWord) (htail : Unnamed tail) :
    ∃ operand, Operand.read (word ++ tail) = some (operand, tail) := by
  obtain ⟨hne, hword⟩ := h
  cases word with
  | nil => exact absurd rfl hne
  | cons c rest =>
    obtain ⟨hc, hrest⟩ := List.forall_mem_cons.1 hword
    have hmark : ∀ m ∈ marks, (c == m) = false := fun m hm => by simpa using ne_of_isNameChar hc hm
    have htake : (rest ++ tail).takeWhile isNameChar = rest := by
      rw [List.takeWhile_append_of_pos hrest, htail.takeWhile, List.append_nil]
    have hdrop : (rest ++ tail).dropWhile isNameChar = tail := by
      rw [List.dropWhile_append_of_pos hrest, htail.dropWhile]
    rw [List.cons_append, Operand.read]
    simp only [hmark '$' (by decide), hmark ':' (by decide), hmark '%' (by decide),
      hmark '@' (by decide), hc, htake,
      hdrop, Bool.false_and, Bool.or_false, Bool.false_eq_true, if_false, if_true]
    split
    · exact ⟨_, rfl⟩
    · split
      · split <;> exact ⟨_, rfl⟩
      · exact ⟨_, rfl⟩

/-- No operator is a word. -/
theorem Text.IsWord.read_operator {word : Text} (h : word.IsWord) : Operator.read word = none := by
  have hspellings : ∀ p ∈ Operator.spellings, p.1.head?.any (marks.contains ·) = true := by decide
  refine List.findSome?_eq_none_iff.2 fun p hp => Option.map_eq_none_iff.2 ?_
  obtain ⟨mark, hmark, hmem⟩ := (Option.any_eq_true ..).1 (hspellings p hp)
  obtain ⟨rest, hspelling⟩ := List.head?_eq_some_iff.1 hmark
  obtain ⟨hne, hword⟩ := h
  cases word with
  | nil => exact absurd rfl hne
  | cons c word =>
    have hne : c ≠ mark := ne_of_isNameChar (hword c List.mem_cons_self) (by simpa using hmem)
    rw [hspelling, Text.after?, if_neg (Ne.symm hne)]

theorem Text.IsWord.readChain_eq {word blanks : Text} (h : word.IsWord)
    (hblanks : ∀ c ∈ blanks, isBlank c = true) : readChain (blanks ++ word) = ([], false) := by
  have htrim : Text.trimStart (blanks ++ word) = word := trimStart_append hblanks h.solid.1
  rw [readChain]
  split
  next hnil => exact absurd (htrim.symm.trans hnil) h.ne_nil
  next hcons =>
    split
    · rfl
    next hsome =>
      rw [← hcons, htrim, h.read_operator] at hsome
      cases hsome

theorem evalNested_of_plain {text : Text} (hsolid : text.Solid)
    (h : ∀ c ∈ text, isNameChar c = true ∨ isBlank c = true)
    (nesting : Nat) : evalNested env (nesting + 1) text = evalChain env text := by
  have hne : ∀ c ∈ text, ∀ m ∈ marks, isBlank m = false → c ≠ m := by
    rintro c hc m hm hblank rfl
    rcases h c hc with hname | hblank'
    · exact ne_of_isNameChar hname hm rfl
    · cases hblank.symm.trans hblank'
  have hordinary : ∀ c ∈ text, isOrdinary c = true := by
    intro c hc
    simp only [isOrdinary, Bool.and_eq_true, bne_iff_ne]
    exact ⟨⟨hne c hc _ (by decide) rfl, hne c hc _ (by decide) rfl⟩, hne c hc _ (by decide) rfl⟩
  rw [evalNested_of_isOrdinary hsolid.trim_eq hsolid.ne_nil hordinary,
    replaceGroups_of_notMem (fun hmem => hne _ hmem _ (by decide) rfl rfl) fun hmem => hne _ hmem _
      (by decide) rfl rfl, pure_bind,
    Formula.evalSplit, splitTernary_eq_none fun hmem => hne _ hmem _ (by decide) rfl rfl]

theorem Text.IsWord.evaluate_eq {word : Text} (h : word.IsWord) (env : Environment σ) :
    ∃ operand, Operand.read word = some (operand, []) ∧
      evaluate env word = evalOperand env operand := by
  have hend : Unnamed [] := fun _ hc => by cases hc
  obtain ⟨operand, hread⟩ := h.exists_read hend
  have hterm := Term.read_of_isNameChar h.ne_nil h.chars hread
  rw [List.append_nil] at hread hterm
  refine ⟨operand, hread, ?_⟩
  rw [evaluate, maxNesting, evalNested_of_plain h.solid fun c hc => .inl (h.chars c hc),
    evalChain, hterm]
  simp [evalTerm, readChain_nil, reduce_nil]

theorem Text.IsWord.evaluate_two {word blanks word' : Text} (h : word.IsWord) (h' : word'.IsWord)
    (hne : blanks ≠ []) (hblanks : ∀ c ∈ blanks, isBlank c = true) (env : Environment σ) (s : σ) :
    ∃ e s', evaluate env (word ++ (blanks ++ word')) s = .error e s' := by
  have htail : Unnamed (blanks ++ word') := by
    intro c hc
    rw [List.head?_append_of_ne_nil _ hne] at hc
    exact isNameChar_of_isBlank (hblanks c (List.mem_of_mem_head? hc))
  obtain ⟨operand, hread⟩ := h.exists_read htail
  have hsolid : (word ++ (blanks ++ word')).Solid :=
    ⟨h.solid.1.append _, (h'.solid.2.append _).append _⟩
  have hplain : ∀ c ∈ word ++ (blanks ++ word'), isNameChar c = true ∨ isBlank c = true := by
    simp only [List.forall_mem_append]
    exact ⟨fun c hc => .inl (h.chars c hc), fun c hc => .inr (hblanks c hc),
      fun c hc => .inl (h'.chars c hc)⟩
  rw [evaluate, maxNesting, evalNested_of_plain hsolid hplain, evalChain,
    Term.read_of_isNameChar h.ne_nil h.chars hread]
  dsimp only
  rw [h'.readChain_eq hblanks]
  cases hfirst : evalTerm env ⟨[], operand⟩ s with
  | error e s' => exact ⟨e, s', bind_of_error hfirst⟩
  | ok first s' => exact ⟨_, s', bind_of_ok hfirst⟩

/-- **A value joins the words next to it.**  A group, a reference or a literal is evaluated as if
its value stood in its place.  If that makes one word, it is read as one operand; if it leaves two
words with blanks between them, the expression is refused. -/
theorem evaluate_inset (env : Environment σ) (h : Surrounding front back) {p : Inset}
    (hfits : p.Fits front) : evaluate env (front ++ p.text ++ back) =
        (p.value env 255 >>= fun x => evaluate env (front ++ Numeral.write x ++ back)) ∧
      ∀ s x s', p.value env 255 s = .ok x s' →
        ((front ++ Numeral.write x ++ back).IsWord → ∃ operand,
          Operand.read (front ++ Numeral.write x ++ back) = some (operand, []) ∧
            evaluate env (front ++ p.text ++ back) s = evalOperand env operand s') ∧
        ∀ word blanks word' : Text, front ++ Numeral.write x ++ back =
          word ++ (blanks ++ word') → word.IsWord →
          word'.IsWord → blanks ≠ [] → (∀ c ∈ blanks, isBlank c = true) →
            ∃ e s'', evaluate env (front ++ p.text ++ back) s = .error e s'' := by
  have hinset : evaluate env (front ++ p.text ++ back) =
      (p.value env 255 >>= fun x => evaluate env (front ++ Numeral.write x ++ back)) :=
        evalNested_inset h hfits 255
  refine ⟨hinset, fun s x s' hvalue => ?_⟩
  have hpasted := congrFun hinset s
  rw [bind_of_ok hvalue] at hpasted
  rw [hpasted]
  refine ⟨fun hword => ?_, fun word blanks word' htext hword hword' hne hblanks => ?_⟩
  · obtain ⟨operand, hread, heval⟩ := hword.evaluate_eq env
    exact ⟨operand, hread, congrFun heval s'⟩
  · rw [htext]
    exact hword.evaluate_two hword' hne hblanks env s'

/-- A group, and the digit behind it. -/
theorem evaluate_inset_digit :
    (∃ operand, Operand.read ['1', '2'] = some (operand, []) ∧
        evaluate unlabelled "(1)2".toList () = evalOperand unlabelled operand ()) ∧
      ∃ e, evaluate unlabelled "(1) 2".toList () = .error e () := by
  have hstart : Unnamed [] := fun _ hc => by cases hc
  have hfits : (Inset.group [] ['1']).Fits [] :=
    ⟨List.forall_mem_nil _, hstart, List.not_mem_nil, List.forall_mem_singleton.2
      ⟨rfl, by decide, by decide⟩⟩
  have hdigit : Surrounding [] ['2'] :=
    ⟨List.forall_mem_nil _, List.forall_mem_singleton.2 rfl, rfl, rfl⟩
  have hapart : Surrounding [] [' ', '2'] :=
    ⟨List.forall_mem_nil _, forall_mem_of_all (by decide), rfl, rfl⟩
  have hone : Text.IsWord ['1'] := ⟨by decide, forall_mem_of_all (by decide)⟩
  have htwo : Text.IsWord ['2'] := ⟨by decide, forall_mem_of_all (by decide)⟩
  have hboth : Text.IsWord ['1', '2'] := ⟨by decide, forall_mem_of_all (by decide)⟩
  obtain ⟨⟨⟩, hvalue⟩ := exists_ok_of_resultValue? (a := 1)
    (r := (Inset.group [] ['1']).value unlabelled 255 ()) (by decide +kernel)
  have hwrite : Numeral.write 1 = ['1'] := by decide +kernel
  have hjoined := ((evaluate_inset unlabelled hdigit hfits).2 _ _ _ hvalue).1
  have hrefused := ((evaluate_inset unlabelled hapart hfits).2 _ _ _ hvalue).2 ['1'] [' '] ['2']
  rw [hwrite] at hjoined hrefused
  obtain ⟨e, ⟨⟩, hrun⟩ := hrefused rfl hone htwo (by decide) (List.forall_mem_singleton.2 rfl)
  exact ⟨hjoined hboth, e, hrun⟩

/-- **A group with a digit behind it is not refused**, but with a blank between them it is. -/
theorem evaluate_touching_not_refused :
    (∃ s, evaluate unlabelled "(1)2".toList () = .ok 12 s) ∧
      resultValue? (evaluate unlabelled "(1) 2".toList ()) = none :=
  ⟨exists_ok_of_resultValue? (by decide +kernel), by decide +kernel⟩

end MacroAssembler
