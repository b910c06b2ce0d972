import MacroAssembler.Proofs.Precedence
import MacroAssembler.Proofs.PreparedText

/-!
# How deep an expression is evaluated

Evaluation has a limit on how deep expressions may nest, and only conditionals come near it.  A
group is worked out when its closing bracket is met, and then its text has no brackets left: one
more level is enough for it, however deep it stood.  So an expression without a question mark needs
two levels, one for itself and one for its groups (`evalNested_of_unconditional`).

A question mark in a literal does not count, since the literal is a number before the conditionals
are looked for.  But an apostrophe right behind a reference stands behind a number by then and opens
no literal any more.
-/

namespace MacroAssembler

open Text

variable {σ α β : Type} {env : Environment σ}
variable {text u : Text} {c d : Char} {s s' : σ}

/-! ## Computations that do not fail by depth -/

/-- The computation does not find an expression nested too deeply. -/
def Shallow (m : EvalM σ α) : Prop :=
  ∀ s s', m s ≠ .error .tooDeep s'

namespace Shallow

theorem pure (a : α) : Shallow (Pure.pure a : EvalM σ α) :=
  fun _ _ h => by cases h

theorem throw {e : ExprError} (he : e ≠ .tooDeep) : Shallow (MonadExcept.throw e : EvalM σ α) := by
  intro s s' h
  cases h
  exact he rfl

theorem get_bind {f : σ → EvalM σ α} (h : ∀ s, Shallow (f s)) : Shallow (get >>= f) :=
  fun s => h s s

theorem bind {m : EvalM σ α} {f : α → EvalM σ β} (hm : Shallow m) (hf : ∀ a, Shallow (f a)) :
    Shallow (m >>= f) := by
  intro s s' h
  cases hrun : m s with
  | ok a s₁ =>
    rw [bind_of_ok hrun] at h
    exact hf a s₁ s' h
  | error e s₁ =>
    rw [bind_of_error hrun] at h
    cases h
    exact hm s s' hrun

theorem mapM {f : α → EvalM σ β} {l : List α} (h : ∀ a ∈ l, Shallow (f a)) :
    Shallow (l.mapM f) := by
  induction l with
  | nil => exact pure []
  | cons a l ih =>
    obtain ⟨ha, h⟩ := List.forall_mem_cons.1 h
    rw [List.mapM_cons]
    exact bind ha fun b => bind (ih h) fun bs => pure (b :: bs)

end Shallow

/-- What an expression asks for is never refused for being nested too deeply. -/
structure Environment.IsShallow (env : Environment σ) : Prop where
  label : ∀ name, Shallow (env.label name)
  page : ∀ name, Shallow (env.page name)
  reusable : ∀ target, Shallow (env.reusable target)
  sizeOf : ∀ name, Shallow (env.sizeOf name)

theorem shallow_replaceBraces (henv : env.IsShallow) (text : Text) :
    Shallow (replaceBraces env text) := by
  refine Shallow.bind (Shallow.mapM fun chunk _ => ?_) fun _ => .pure _
  cases chunk with
  | plain part => exact .pure _
  | unclosed => exact .throw (by simp)
  | reference inner =>
    dsimp only
    split
    · exact .bind (henv.reusable _) fun _ => .pure _
    · exact .throw (by simp)

theorem shallow_replaceLiterals (text : Text) : Shallow (replaceLiterals env text) := by
  refine Shallow.get_bind fun s => Shallow.bind (Shallow.mapM fun piece _ => ?_) fun _ => .pure _
  cases piece with
  | literal quote body => exact .pure _
  | unclosed quote => exact .throw (by simp)
  | char c => exact .pure _

theorem shallow_evalTerm (henv : env.IsShallow) (term : Term) : Shallow (evalTerm env term) := by
  refine Shallow.bind ?_ fun _ => .pure _
  cases term.operand with
  | number value => exact .pure _
  | address => exact .get_bind fun _ => .pure _
  | page name => exact henv.page name
  | label name => exact henv.label name
  | badNumeral text => exact .throw (by simp)

theorem shallow_evalChain (henv : env.IsShallow) (text : Text) : Shallow (evalChain env text) := by
  rw [evalChain]
  split
  · exact .throw (by simp)
  · refine .bind (shallow_evalTerm henv _) fun first => ?_
    refine .bind (.mapM fun link _ => .bind (shallow_evalTerm henv _) fun _ => .pure
      _) fun chain => ?_
    have hreduce : ∀ e, reduce first chain = .error e → e ≠ .tooDeep := by
      intro e h
      rw [(reduce_eq_value first chain).2.2, Bracketing.value_eq_error_iff] at h
      rw [h.1]
      simp
    cases hvalue : reduce first chain with
    | ok value =>
      refine iteInduction (fun _ => ?_) fun _ => .pure value
      exact .bind (.throw (by simp)) fun _ => .pure value
    | error e =>
      refine iteInduction (fun _ => ?_) fun _ => .throw (hreduce e hvalue)
      exact .bind (.throw (by simp)) fun _ => .throw (hreduce e hvalue)

theorem shallow_callGroup (henv : env.IsShallow) {eval : Text → EvalM σ Float} {inner : Text}
    (heval : Shallow (eval inner)) (name : Text) : Shallow (callGroup env eval name inner) := by
  rw [callGroup]
  refine iteInduction (fun _ => heval) fun _ => ?_
  refine iteInduction (fun _ => henv.sizeOf _) fun _ => ?_
  refine iteInduction (fun _ => .get_bind fun _ => .pure _) fun _ => ?_
  split
  · exact .bind heval fun _ => .pure _
  · exact .bind heval fun _ => .pure _
  · exact .throw (by simp)

/-! ## Texts without conditionals -/

/-- The text has no question marks and no braces. -/
def Unconditional (text : Text) : Prop :=
  ∀ c ∈ text, c ≠ '?' ∧ c ≠ '\x7b'

/-- The text has no brackets either. -/
structure Flat (text : Text) : Prop where
  unconditional : Unconditional text
  unbracketed : ∀ c ∈ text, c ≠ '(' ∧ c ≠ ')'

theorem ne_of_mem_write {x : Float} (h : c ∈ Numeral.write x)
    (hd : (isNameChar d || d == Numeral.negativeMark || d == '-') = false) : c ≠ d := by
  rintro rfl
  rw [Bool.or_eq_false_iff, Bool.or_eq_false_iff, beq_eq_false_iff_ne, beq_eq_false_iff_ne] at hd
  rcases Numeral.of_mem_write h with h | h | h
  · cases h.symm.trans hd.1.1
  · exact hd.1.2 h
  · exact hd.2 h

theorem flat_write (x : Float) : Flat (Numeral.write x) where
  unconditional _ hc := ⟨ne_of_mem_write hc (by decide +kernel),
    ne_of_mem_write hc (by decide +kernel)⟩
  unbracketed _ hc := ⟨ne_of_mem_write hc (by decide +kernel),
    ne_of_mem_write hc (by decide +kernel)⟩

/-- Literals are replaced by digits, and the rest stays. -/
theorem mem_of_replaceLiterals {K : Char → Prop} (hwrite : ∀ x, ∀ c ∈ Numeral.write x, K c)
    (htext : ∀ c, .char c ∈ text.pieces → K c) (h : replaceLiterals env text s = .ok u s') :
    ∀ c ∈ u, K c := by
  rw [replaceLiterals_apply] at h
  obtain ⟨ts, s₁, hts, hu⟩ := bind_eq_ok h
  clear h
  cases hu
  generalize env.charByte s = charByte at hts
  generalize text.pieces = ps at htext hts
  induction ps generalizing s ts with
  | nil =>
    cases hts
    exact List.forall_mem_nil _
  | cons p ps ih =>
    obtain ⟨t, ts', s₂, ht, hts', rfl⟩ := mapM_cons_eq_ok hts
    rw [List.flatten_cons]
    refine List.forall_mem_append.2
      ⟨?_, ih ts' (fun c hc => htext c (List.mem_cons_of_mem _ hc)) hts'⟩
    cases p with
    | literal quote body =>
      cases ht
      exact hwrite _
    | unclosed quote => cases ht
    | char c =>
      cases ht
      exact List.forall_mem_singleton.2 (htext c List.mem_cons_self)

theorem Text.mem_of_char_mem_pieces (h : .char c ∈ text.pieces) : c ∈ text := by
  rw [← ofPieces_piecesAfter none text]
  exact List.mem_flatMap.2 ⟨_, h, List.mem_singleton.2 rfl⟩

/-- **One scan is a loop**: the first closed group is replaced by its value, and the text is looked
at again from its start, until no closing bracket is left. -/
theorem replaceGroups_eq_loop (call : (name inner : Text) → EvalM σ Float) (text : Text) :
    replaceGroups call [] text = match splitAtFirst ')' text with
      | none => if text.contains '(' then throw (.unbalanced text) else pure text
      | some (front, back) => match splitAtFirst '(' front.reverse with
        | none => throw (.unbalanced text)
        | some (inner, outer) =>
          call (outer.takeWhile isNameChar).reverse inner.reverse >>= fun value =>
            replaceGroups call []
              ((outer.dropWhile isNameChar).reverse ++ Numeral.write value ++ back) := by
  by_cases hclose : ')' ∈ text
  · obtain ⟨front, back, rfl, hfront⟩ := List.eq_append_cons_of_mem hclose
    rw [splitAtFirst_append hfront, replaceGroups_append hfront, replaceGroups, if_pos rfl,
      List.append_nil]
    dsimp only
    cases hopen : splitAtFirst '(' front.reverse with
    | none => rw [List.reverse_reverse]
    | some group =>
      refine bind_congr fun value => ?_
      -- the value brings no bracket, so the scan comes to where it was
      obtain ⟨hgroup, -⟩ := eq_append_of_splitAtFirst hopen
      have hdone : ')' ∉ (group.2.dropWhile isNameChar).reverse ++ Numeral.write value := by
        refine List.not_mem_append (fun hmem => hfront ?_)
          fun hmem => ((flat_write value).unbracketed _ hmem).2 rfl
        have houter := (List.dropWhile_suffix _).mem (List.mem_reverse.1 hmem)
        rw [← List.mem_reverse, hgroup]
        exact List.mem_append_right _ (List.mem_cons_of_mem _ houter)
      rw [replaceGroups_append hdone]
      simp
  · have hrun : replaceGroups call [] (text ++ []) = _ := replaceGroups_append hclose []
    rw [List.append_nil] at hrun
    rw [hrun, splitAtFirst_eq_none hclose, replaceGroups]
    simp

theorem replaceGroups_of_notMem {call : Text → Text → EvalM σ Float}
    (hopen : '(' ∉ text) (hclose : ')' ∉ text) : replaceGroups call [] text = pure text := by
  rw [replaceGroups_eq_loop, splitAtFirst_eq_none hclose]
  exact if_neg (by simpa using hopen)

theorem mem_of_mem_trim (h : c ∈ Text.trim text) : c ∈ text := by
  obtain ⟨blanks, blanks', htext, -⟩ := exists_trim text
  rw [htext]
  exact List.mem_append_left _ (List.mem_append_right _ h)

/-- The value of an expression that is a chain once its literals are replaced. -/
def evalFlat (env : Environment σ) (text : Text) : EvalM σ Float :=
  if (Text.trim text).isEmpty then throw .empty else replaceLiterals env
    (Text.trim text) >>= evalChain env

/-- **A flat text needs one level**: nothing in it is an expression of its own. -/
theorem evalNested_of_flat (h : Flat text) (nesting : Nat) :
    evalNested env (nesting + 1) text = evalFlat env text := by
  rw [evalFlat, evalNested]
  split
  · rfl
  · have hbrace : '\x7b' ∉ Text.trim text :=
      fun hmem => (h.unconditional _ (mem_of_mem_trim hmem)).2 rfl
    rw [replaceBraces_of_notMem hbrace, pure_bind]
    funext s
    cases hrun : replaceLiterals env (Text.trim text) s with
    | error e s' => rw [bind_of_error hrun, bind_of_error hrun]
    | ok u s' =>
      have hu : ∀ c ∈ u, (c ≠ '(' ∧ c ≠ ')') ∧ c ≠ '?' := by
        refine mem_of_replaceLiterals (K := fun c => (c ≠ '(' ∧ c ≠ ')') ∧ c ≠ '?') (fun x c hc =>
          ⟨(flat_write x).unbracketed c hc, ((flat_write x).unconditional c hc).1⟩)
            (fun c hc => ?_) hrun
        have hmem := mem_of_mem_trim (mem_of_char_mem_pieces hc)
        exact ⟨h.unbracketed c hmem, (h.unconditional c hmem).1⟩
      rw [bind_of_ok hrun, bind_of_ok hrun, replaceGroups_of_notMem
        (fun hmem => (hu _ hmem).1.1 rfl) fun hmem => (hu _ hmem).1.2 rfl, pure_bind,
        splitTernary_eq_none fun hmem => (hu _ hmem).2 rfl]

/-- Groups are worked out from texts without brackets, so it matters only what is made of those. -/
theorem replaceGroups_congr {call call' : (name inner : Text) → EvalM σ Float}
    (h : ∀ name inner, Flat inner → call name inner = call' name inner) {done : Text}
    (hdone : Unconditional done) (hclosing : ')' ∉ done) (htext : Unconditional text) :
    replaceGroups call done text = replaceGroups call' done text := by
  induction text generalizing done with
  | nil => rfl
  | cons c text ih =>
    obtain ⟨hc, htext⟩ := List.forall_mem_cons.1 htext
    rw [replaceGroups, replaceGroups]
    split
    · split
      · rfl
      next inner front hsplit =>
        obtain ⟨rfl, hopening⟩ := eq_append_of_splitAtFirst hsplit
        obtain ⟨hinner, hfront⟩ := List.forall_mem_append.1 hdone
        have hflat : Flat inner.reverse := by
          refine ⟨fun d hd => hinner d (List.mem_reverse.1 hd), fun d hd => ⟨?_, ?_⟩⟩
          · rintro rfl
            exact hopening (List.mem_reverse.1 hd)
          · rintro rfl
            exact hclosing (List.mem_append_left _ (List.mem_reverse.1 hd))
        have hdrop : ∀ d ∈ front.dropWhile isNameChar, d ∈ front := fun d hd =>
          (List.dropWhile_sublist isNameChar).subset hd
        rw [h _ _ hflat]
        refine bind_congr fun value => ih ?_ ?_ htext
        · refine List.forall_mem_append.2 ⟨fun d hd => (flat_write value).unconditional d
            (List.mem_reverse.1 hd), ?_⟩
          exact fun d hd => hfront d (List.mem_cons_of_mem _ (hdrop d hd))
        · refine List.not_mem_append
            (fun hd => ((flat_write value).unbracketed _ (List.mem_reverse.1 hd)).2 rfl) ?_
          exact fun hd => hclosing (List.mem_append_right _ (List.mem_cons_of_mem _ (hdrop _ hd)))
    next hne =>
      exact ih (List.forall_mem_cons.2 ⟨hc, hdone⟩)
        (List.not_mem_cons_of_ne_of_not_mem (Ne.symm hne) hclosing) htext

theorem notMem_of_replaceGroups {call : (name inner : Text) → EvalM σ Float} {done : Text}
    (hdone : '?' ∉ done) (htext : '?' ∉ text) (h : replaceGroups call done text s = .ok u s') :
    '?' ∉ u := by
  induction text generalizing done s with
  | nil =>
    rw [replaceGroups] at h
    split at h
    · cases h
    · cases h
      simpa using hdone
  | cons c text ih =>
    rw [List.mem_cons, not_or] at htext
    rw [replaceGroups] at h
    by_cases hc : c = ')'
    · rw [if_pos hc] at h
      cases hsplit : Text.splitAtFirst '(' done with
      | none =>
        rw [hsplit] at h
        cases h
      | some result =>
        rw [hsplit] at h
        obtain ⟨value, s₁, -, h⟩ := bind_eq_ok h
        have hdone' := (eq_append_of_splitAtFirst hsplit).1
        refine ih (List.not_mem_append (fun hd => ?_) fun hd => ?_) htext.2 h
        · exact ((flat_write value).unconditional _ (List.mem_reverse.1 hd)).1 rfl
        · have hmem := (List.dropWhile_sublist isNameChar).subset hd
          rw [hdone'] at hdone
          exact hdone (List.mem_append_right _ (List.mem_cons_of_mem _ hmem))
    · rw [if_neg hc] at h
      exact ih (by simp [htext.1, hdone]) htext.2 h

/-! ## Question marks in literals -/

theorem isOrdinary_of_trim (h : ∀ c ∈ Text.trim text, isOrdinary c = true) :
    ∀ c ∈ text, isOrdinary c = true := by
  obtain ⟨blanks, blanks', htext, hblanks, hblanks'⟩ := exists_trim text
  rw [htext]
  refine List.forall_mem_append.2 ⟨List.forall_mem_append.2 ⟨fun c hc => ?_, h⟩, fun c hc => ?_⟩
  · exact isOrdinary_of_isBlank (hblanks c hc)
  · exact isOrdinary_of_isBlank (hblanks' c hc)

theorem isOrdinary_of_plus (h : ∀ c ∈ (Text.after? ['+'] text).getD text, isOrdinary c = true) :
    ∀ c ∈ text, isOrdinary c = true := by
  cases text with
  | nil => exact List.forall_mem_nil _
  | cons c text =>
    rw [Text.after?] at h
    split at h
    next hc => exact List.forall_mem_cons.2 ⟨hc ▸ rfl, h⟩
    · exact h

theorem isOrdinary_of_digitsValue {base n : Nat} {digits : Text}
    (h : digitsValue base digits = some n) : ∀ c ∈ digits, isOrdinary c = true := by
  have hdigit : ∀ {c : Char} {k : Nat}, digitValue base c = some k → isOrdinary c = true := by
    intro c k hk
    simp only [isOrdinary, Bool.and_eq_true, bne_iff_ne]
    refine ⟨⟨?_, ?_⟩, ?_⟩ <;>
      · rintro rfl
        cases hk
  rw [digitsValue] at h
  generalize 0 = start at h
  induction digits generalizing start with
  | nil => exact List.forall_mem_nil _
  | cons c digits ih =>
    rw [List.foldlM_cons] at h
    obtain ⟨next, hnext, h⟩ := Option.bind_eq_some_iff.1 h
    obtain ⟨k, hk, -⟩ := Option.map_eq_some_iff.1 hnext
    exact List.forall_mem_cons.2 ⟨hdigit hk, ih _ h⟩

theorem isOrdinary_of_readSigned {n : Int} (h : readSigned text = some n) :
    ∀ c ∈ text, isOrdinary c = true := by
  unfold readSigned at h
  split at h
  · split at h
    · cases h
    · obtain ⟨k, hk, -⟩ := Option.map_eq_some_iff.1 h
      obtain ⟨m, hm, -⟩ := Option.bind_eq_some_iff.1 hk
      exact List.forall_mem_cons.2
        ⟨rfl, isOrdinary_of_digitsValue (Option.filter_eq_some_iff.1 hm).1⟩
  · obtain ⟨k, hk, -⟩ := Option.map_eq_some_iff.1 h
    rw [readUnsigned] at hk
    split at hk
    · cases hk
    · exact isOrdinary_of_plus (isOrdinary_of_digitsValue (Option.filter_eq_some_iff.1 hk).1)

theorem isOrdinary_of_ofRun {run : Polarity × Nat} (h : ReusableRef.ofRun text = some run) :
    ∀ c ∈ text, isOrdinary c = true := by
  unfold ReusableRef.ofRun at h
  split at h
  · cases h
  next c rest =>
    split at h
    next hall =>
      intro d hd
      obtain rfl : d = c := by simpa using List.all_eq_true.1 hall d hd
      split at h
      · rfl
      · rfl
      · cases h
    · cases h

/-- What can be read as a reference has no quotes and no braces in it. -/
theorem isOrdinary_of_read {inner : Text} {target : ReusableRef}
    (h : ReusableRef.read inner = some target) : ∀ c ∈ inner, isOrdinary c = true := by
  refine isOrdinary_of_trim ?_
  unfold ReusableRef.read at h
  split at h
  next offset htrim =>
    rw [htrim]
    refine List.forall_mem_cons.2 ⟨rfl, isOrdinary_of_trim ?_⟩
    split at h
    next hnil =>
      rw [hnil]
      exact List.forall_mem_nil _
    · obtain ⟨n, hn, -⟩ := Option.map_eq_some_iff.1 h
      exact isOrdinary_of_plus (isOrdinary_of_trim (isOrdinary_of_readSigned hn))
  · obtain ⟨run, hrun, -⟩ := Option.map_eq_some_iff.1 h
    exact isOrdinary_of_ofRun hrun

/-- **The two scans agree** if no apostrophe stands right behind a reference: a character that is
outside of literals when the references have been replaced is one of a value, or was outside before
and is no brace. -/
theorem char_mem_of_mapM {before before' : Option Char} {whole : Text} {ts : List Text}
    (hrun : (braceChunks before text).mapM (BraceChunk.replace env whole) s = .ok ts s')
    (hunticked : Part.Unticked (Text.partsAfter before text))
    (hbefore : ∀ c ∈ text.head?, Text.opensLiteral before' c = Text.opensLiteral before c)
    (h : .char d ∈ Text.piecesAfter before' ts.flatten) :
    (∃ x, d ∈ Numeral.write x) ∨ d ≠ '\x7b' ∧ .char d ∈ Text.piecesAfter before text := by
  fun_induction Text.partsAfter before text generalizing before' s ts with
  | case1 before =>
    rw [braceChunks] at hrun
    cases hrun
    change .char d ∈ Text.piecesAfter before' [] at h
    rw [Text.piecesAfter] at h
    cases h
  | case2 before rest inner after hsplit ih =>
    rw [braceChunks_reference hsplit] at hrun
    obtain ⟨t, ts', s₁, ht, hts, rfl⟩ := mapM_cons_eq_ok hrun
    obtain ⟨hread, x, rfl⟩ := exists_write_of_replace ht
    obtain ⟨target, htarget⟩ := Option.isSome_iff_exists.1 hread
    have hbrace : Text.opensLiteral before '\x7b' = false := by simp [Text.opensLiteral]
    rw [List.flatten_cons, piecesAfter_append_of_isOrdinary fun _ =>
      Part.isOrdinary_of_mem_write] at h
    rw [piecesAfter_char hbrace, (eq_append_of_splitAtFirst hsplit).1,
      piecesAfter_append_of_isOrdinary (isOrdinary_of_read htarget),
        piecesAfter_cons_break rfl (by decide)]
    rcases List.mem_append.1 h with h | h
    · obtain ⟨e, he, heq⟩ := List.mem_map.1 h
      cases heq
      exact .inl ⟨x, he⟩
    · have hafter :=
        ih hts hunticked.2 (fun c hc => opensLiteral_of_not_ticked hunticked.1 hc _ none) h
      exact hafter.imp_right (And.imp_right fun hmem =>
        List.mem_cons_of_mem _ (List.mem_append_right _ (List.mem_cons_of_mem _ hmem)))
  | case3 before rest hsplit ih =>
    rw [braceChunks_unclosed hsplit] at hrun
    obtain ⟨t, ts', s₁, ht, -⟩ := mapM_cons_eq_ok hrun
    cases ht
  | case4 before c rest hbrace hopens body after hclose ih =>
    rw [braceChunks_literal hbrace hopens hclose] at hrun
    obtain ⟨t, ts', s₁, ht, hts, rfl⟩ := mapM_cons_eq_ok hrun
    cases ht
    have hclose' : Text.closeQuote c (body ++ c :: ts'.flatten) = some (body, ts'.flatten) := by
      simpa using closeQuote_append (eq_append_of_closeQuote hclose).2 ts'.flatten
    have htext : (((c :: body) ++ [c]) :: ts').flatten = c :: (body ++ c :: ts'.flatten) := by simp
    rw [htext, piecesAfter_literal ((hbefore c rfl).trans hopens) hclose'] at h
    rw [piecesAfter_literal hopens hclose]
    have hafter := ih hts hunticked (fun _ _ => rfl) (by simpa using h)
    exact hafter.imp_right (And.imp_right (List.mem_cons_of_mem _))
  | case5 before c rest hbrace hopens hclose ih =>
    rw [braceChunks_open hbrace hopens hclose] at hrun
    obtain ⟨t, ts', s₁, ht, hts, rfl⟩ := mapM_cons_eq_ok hrun
    cases ht
    have hclose' := (staysOpen_of_mapM (Part.isQuote_of_opensLiteral hopens) hts).plain hclose
    rw [List.flatten_cons, List.singleton_append,
      piecesAfter_open ((hbefore c rfl).trans hopens) hclose'] at h
    rw [piecesAfter_open hopens hclose]
    have hafter := ih hts hunticked (fun _ _ => rfl) (by simpa using h)
    exact hafter.imp_right (And.imp_right (List.mem_cons_of_mem _))
  | case6 before c rest hbrace hopens ih =>
    have hopens : Text.opensLiteral before c = false := by simpa using hopens
    rw [braceChunks_char hbrace hopens] at hrun
    obtain ⟨t, ts', s₁, ht, hts, rfl⟩ := mapM_cons_eq_ok hrun
    cases ht
    rw [List.flatten_cons, List.singleton_append,
      piecesAfter_char ((hbefore c rfl).trans hopens)] at h
    rw [piecesAfter_char hopens]
    rcases List.mem_cons.1 h with heq | h
    · cases heq
      exact .inr ⟨hbrace, List.mem_cons_self⟩
    · exact (ih hts hunticked (fun _ _ => rfl) h).imp_right (And.imp_right (List.mem_cons_of_mem _))

/-- No blank is a quote, so blanks do not close a literal. -/
theorem staysOpen_append_blanks {quote : Char} (hquote : Text.isQuote quote = true) {blanks : Text}
    (hblanks : ∀ c ∈ blanks, isBlank c = true) (text : Text) :
    Text.StaysOpen quote text (text ++ blanks) := by
  have hslash : quote ≠ '\\' := by
    rintro rfl
    cases hquote
  have hword : ∀ b ∈ blanks, b ≠ '\\' ∧ b ≠ quote := fun b hb => by
    refine ⟨?_, ?_⟩ <;> rintro rfl
    · cases hblanks _ hb
    · rcases Part.eq_of_isQuote hquote with rfl | rfl <;> cases hblanks _ hb
  have hopen : ∀ word : Text, (∀ b ∈ word, b ≠ '\\' ∧ b ≠ quote) →
      Text.closeQuote quote word = none := by
    intro word hword
    simpa using closeQuote_append_eq_none (t := []) hslash hword rfl
  induction text with
  | nil =>
    refine ⟨fun _ => hopen _ hword, fun _ => ?_⟩
    cases blanks with
    | nil => rfl
    | cons b blanks =>
      exact closeQuote_escape_eq_none_iff.2 (hopen _ (List.forall_mem_cons.1 hword).2)
  | cons c text ih => exact ih.cons hslash c

theorem char_mem_piecesAfter_append_blanks {before : Option Char} {blanks : Text}
    (hblanks : ∀ c ∈ blanks, isBlank c = true) (h : .char d ∈ Text.piecesAfter before text) :
    .char d ∈ Text.piecesAfter before (text ++ blanks) := by
  fun_induction Text.piecesAfter before text with
  | case1 => cases h
  | case2 before c rest hopens body after hclose ih =>
    rw [List.cons_append, piecesAfter_literal hopens (closeQuote_append hclose blanks)]
    exact List.mem_cons_of_mem _ (ih (by simpa using h))
  | case3 before c rest hopens hclose ih =>
    have hopen := staysOpen_append_blanks (Part.isQuote_of_opensLiteral hopens) hblanks rest
    rw [List.cons_append, piecesAfter_open hopens (hopen.plain hclose)]
    exact List.mem_cons_of_mem _ (ih (by simpa using h))
  | case4 before c rest hopens ih =>
    rw [List.cons_append, piecesAfter_char (by simpa using hopens)]
    rcases List.mem_cons.1 h with heq | h
    · cases heq
      exact List.mem_cons_self
    · exact List.mem_cons_of_mem _ (ih h)

/-- What is outside of the literals of a text without the blanks around it is outside of them in the
text. -/
theorem char_mem_pieces_of_trim (h : .char d ∈ (Text.trim text).pieces) :
    .char d ∈ text.pieces := by
  obtain ⟨blanks, blanks', htext, hblanks, hblanks'⟩ := exists_trim text
  rw [htext, List.append_assoc, pieces_blanks_append hblanks]
  exact List.mem_append_right _ (char_mem_piecesAfter_append_blanks hblanks' h)

/-- **No conditional is left** when references and literals have been replaced. -/
theorem unconditional_of_prepare (hquestion : .char '?' ∉ text.pieces)
    (hunticked : Part.Unticked (Text.trim text).parts)
    (h : (replaceBraces env (Text.trim text) >>= replaceLiterals env) s = .ok u s') :
    Unconditional u := by
  obtain ⟨u₁, s₁, hbraces, hliterals⟩ := bind_eq_ok h
  obtain ⟨ts, s₂, hts, hu₁⟩ := bind_eq_ok hbraces
  cases hu₁
  refine mem_of_replaceLiterals (fun x => (flat_write x).unconditional) (fun c hc => ?_) hliterals
  rcases char_mem_of_mapM hts hunticked (fun _ _ => rfl) hc with ⟨x, hx⟩ | ⟨hbrace, hmem⟩
  · exact (flat_write x).unconditional c hx
  · refine ⟨?_, hbrace⟩
    rintro rfl
    exact hquestion (char_mem_pieces_of_trim hmem)

/-! ## Two levels -/

/-- The value of an expression whose brackets hold chains and nothing else. -/
def evalBracketed (env : Environment σ) (text : Text) : EvalM σ Float :=
  if (Text.trim text).isEmpty then throw .empty
  else (replaceBraces env (Text.trim text) >>= replaceLiterals env) >>= fun text =>
    replaceGroups (callGroup env (evalFlat env)) [] text >>= evalChain env

theorem evalNested_of_unconditional (hquestion : .char '?' ∉ text.pieces)
    (hunticked : Part.Unticked (Text.trim text).parts) (nesting : Nat) :
    evalNested env (nesting + 2) text = evalBracketed env text := by
  rw [evalNested, evalBracketed]
  split
  · rfl
  · funext s
    rw [← bind_assoc]
    cases hprepare : (replaceBraces env (Text.trim text) >>= replaceLiterals env) s with
    | error e s₁ => rw [bind_of_error hprepare, bind_of_error hprepare]
    | ok u s₁ =>
      have hu := unconditional_of_prepare hquestion hunticked hprepare
      rw [bind_of_ok hprepare, bind_of_ok hprepare]
      have hcall : ∀ name inner, Flat inner →
          callGroup env (evalNested env (nesting + 1)) name inner =
            callGroup env (evalFlat env) name inner := by
        intro name inner hinner
        rw [callGroup, callGroup, evalNested_of_flat hinner]
      rw [replaceGroups_congr hcall (List.forall_mem_nil _) List.not_mem_nil hu]
      cases hgroups : replaceGroups (callGroup env (evalFlat env)) [] u s₁ with
      | error e s₂ => rw [bind_of_error hgroups, bind_of_error hgroups]
      | ok u' s₂ =>
        have hnone :=
          splitTernary_eq_none
          (notMem_of_replaceGroups List.not_mem_nil (fun hmem => (hu _ hmem).1 rfl) hgroups)
        rw [bind_of_ok hgroups, bind_of_ok hgroups, hnone]

theorem shallow_evalFlat (henv : env.IsShallow) (text : Text) : Shallow (evalFlat env text) := by
  rw [evalFlat]
  split
  · exact .throw (by simp)
  · exact (shallow_replaceLiterals _).bind fun _ => shallow_evalChain henv _

theorem shallow_replaceGroups {call : (name inner : Text) → EvalM σ Float}
    (hcall : ∀ name inner, Shallow (call name inner)) (done text : Text) :
    Shallow (replaceGroups call done text) := by
  induction text generalizing done with
  | nil =>
    rw [replaceGroups]
    split
    · exact .throw (by simp)
    · exact .pure _
  | cons c text ih =>
    rw [replaceGroups]
    split
    · split
      · exact .throw (by simp)
      · exact .bind (hcall _ _) fun value => ih _
    · exact ih _

theorem shallow_evalBracketed (henv : env.IsShallow) (text : Text) :
    Shallow (evalBracketed env text) := by
  rw [evalBracketed]
  split
  · exact .throw (by simp)
  · refine ((shallow_replaceBraces henv _).bind fun _ => shallow_replaceLiterals _).bind fun _ => ?_
    refine (shallow_replaceGroups (fun name inner => ?_) _ _).bind fun _ => shallow_evalChain henv _
    exact shallow_callGroup henv (shallow_evalFlat henv inner) name

theorem shallow_unresolved (stage : Stage) (quiet : Bool) {cause : ExprError}
    (h : cause ≠ .tooDeep) : Shallow (stage.unresolved quiet cause) := by
  rw [Stage.unresolved]
  split
  · exact fun s s' h => by cases h
  · exact .throw h

/-- A pass refuses what it does not know, and nothing for being nested too deeply. -/
theorem isShallow_environment (stage : Stage) (quiet : Bool) :
    (stage.environment quiet).IsShallow := by
  have hmodify : ∀ {γ : Type} (f : State → γ × State), Shallow (modifyGet f : EvalM State γ) :=
    fun f s s' h => by cases h
  have hlabel : ∀ aspect name, Shallow (stage.fromLabel quiet aspect name) := by
    intro aspect name
    refine .bind (hmodify _) fun found => ?_
    cases found with
    | some number => exact .pure _
    | none => exact shallow_unresolved stage quiet (by simp)
  refine ⟨hlabel _, hlabel _, fun target => ?_, fun name => ?_⟩
  · refine .bind (hmodify _) fun found => ?_
    cases found with
    | some number => exact .pure _
    | none => exact shallow_unresolved stage quiet (by simp)
  · refine .get_bind fun st => ?_
    dsimp only
    split
    · split
      · exact .pure _
      · exact .throw (by simp)
    · exact hlabel _ _

theorem unticked_of_notMem (h : '\x7b' ∉ text) : Part.Unticked text.parts := by
  have hrefs : ∀ inner, .reference inner ∉ text.parts := by
    intro inner hmem
    rw [← join_partsAfter none text] at h
    exact h (List.mem_flatMap.2 ⟨_, hmem, List.mem_cons_self⟩)
  generalize text.parts = ps at hrefs
  induction ps with
  | nil => trivial
  | cons p ps ih =>
    have hps := ih fun inner hmem => hrefs inner (List.mem_cons_of_mem _ hmem)
    cases p with
    | reference inner => exact absurd List.mem_cons_self (hrefs inner)
    | _ => exact hps

/-- **Brackets may nest as deep as they like.**  Evaluating an expression without a conditional
takes two levels, and it is not refused for its depth unless its surroundings do that. -/
theorem evaluate_without_conditional (env : Environment σ) {text : Text}
    (hquestion : .char '?' ∉ text.pieces) (hunticked : Part.Unticked (Text.trim text).parts) :
    (∀ nesting, evalNested env (nesting + 2) text = evalNested env 2 text) ∧
      (env.IsShallow → ∀ s s', evaluate env text s ≠ .error .tooDeep s') ∧
      ∀ (stage : Stage) (quiet : Bool) (st st' : State),
        evaluate (stage.environment quiet) text st ≠ .error .tooDeep st' := by
  have hshallow : ∀ {τ : Type} {env : Environment τ}, env.IsShallow →
      Shallow (evaluate env text) := by
    intro τ env henv
    rw [show evaluate env text = evalBracketed env text from evalNested_of_unconditional
      hquestion hunticked 254]
    exact shallow_evalBracketed henv text
  refine ⟨fun nesting => ?_, fun henv => hshallow henv, fun stage quiet => hshallow
    (isShallow_environment stage quiet)⟩
  rw [evalNested_of_unconditional hquestion hunticked nesting,
    evalNested_of_unconditional hquestion hunticked 0]

/-- The environment of a pass that knows the labels `x` and `far`. -/
def recalling : Environment State :=
  recallingStage.environment false

/-- A literal in a thousand brackets. -/
def bracketed : Text :=
  List.replicate 1000 '(' ++ "'?'".toList ++ List.replicate 1000 ')'

theorem evaluate_without_conditional_bracketed :
    evalNested recalling 1000 bracketed = evalNested recalling 2 bracketed ∧
      (∀ st, evaluate recalling bracketed recallingState ≠ .error .tooDeep st) := by
  have hquestion : .char '?' ∉ bracketed.pieces := by decide +kernel
  have hunticked : Part.Unticked (Text.trim bracketed).parts :=
    unticked_of_notMem (by decide +kernel)
  obtain ⟨hlevels, hshallow, -⟩ := evaluate_without_conditional recalling hquestion hunticked
  exact ⟨hlevels 998, hshallow (isShallow_environment _ _) recallingState⟩

/-! ## An apostrophe behind a reference -/

/-- The value of a result that has one. -/
def resultValue? : EStateM.Result ExprError σ α → Option α
  | .ok a _ => some a
  | .error _ _ => none

theorem exists_ok_of_resultValue? {r : EStateM.Result ExprError σ α} {a : α}
    (h : resultValue? r = some a) : ∃ s, r = .ok a s := by
  cases r with
  | ok b s =>
    cases h
    exact ⟨s, rfl⟩
  | error e s => cases h

/-- Surroundings without labels, where every reference is to the address 16. -/
def unlabelled : Environment Unit where
  label name := throw (.unknownLabel name)
  page name := throw (.unknownLabel name)
  address _ := 0
  reusable _ := pure 16
  sizeOf name := throw (.unknownLabel name)
  isDefined _ _ := false
  charByte _ c := c.toNat.toUInt8

/-- Conditionals in the last branch of one another, all of them false. -/
def conditionals : Nat → Text
  | 0 => "0x'".toList
  | n + 1 => '0' :: '?' :: '0' :: ':' :: conditionals n

theorem evalNested_zero (n : Nat) : evalNested unlabelled (n + 1) ['0'] () = .ok 0 () := by
  have hflat : Flat ['0'] := ⟨by simp [Unconditional], by simp⟩
  obtain ⟨⟨⟩, hrun⟩ :=
    exists_ok_of_resultValue? (r := evalFlat unlabelled ['0'] ()) (a := 0) (by decide +kernel)
  rw [evalNested_of_flat hflat, hrun]

theorem prepares_conditionals (k : Nat) :
    Prepares unlabelled (conditionals k) () (conditionals k) () := by
  have hends : ∀ k, (conditionals k).Ends (isBlank · = false) := by
    intro k
    induction k with
    | zero => exact ⟨'\'', rfl, rfl⟩
    | succ k ih => exact (((ih.cons ':').cons '0').cons '?').cons '0'
  have hsolid : (conditionals k).Solid := by
    refine ⟨⟨'0', ?_, rfl⟩, hends k⟩
    cases k with
    | zero => rfl
    | succ k => rfl
  have hbrace : '\x7b' ∉ conditionals k := by
    clear hsolid
    induction k with
    | zero => decide
    | succ k ih => simp [conditionals, ih]
  -- the apostrophe at the end follows a letter and opens no literal
  have hword : isWordChar 'x' = true := by decide +kernel
  have hpieces : ∀ before, Text.piecesAfter before (conditionals k) =
      (conditionals k).map .char := by
    clear hsolid hbrace
    induction k with
    | zero => simp [conditionals, piecesAfter_char, Text.opensLiteral, hword, Text.piecesAfter]
    | succ k ih => simp [conditionals, piecesAfter_char, Text.opensLiteral, ih]
  refine ⟨?_, ?_⟩
  · rw [hsolid.trim_eq]
    exact hsolid.ne_nil
  · rw [hsolid.trim_eq, replaceBraces_of_notMem hbrace, pure_bind,
      replaceLiterals_of_pieces (hpieces none)]
    rfl

theorem replaceGroups_conditionals (call : (name inner : Text) → EvalM Unit Float) (k : Nat) :
    replaceGroups call [] (conditionals k) () = .ok (conditionals k) () := by
  have hbrackets : '(' ∉ conditionals k ∧ ')' ∉ conditionals k := by
    induction k with
    | zero => decide
    | succ k ih => simp [conditionals, ih.1, ih.2]
  rw [replaceGroups_of_notMem hbrackets.1 hbrackets.2]
  rfl

theorem splitTernary_conditionals (k : Nat) :
    splitTernary (conditionals (k + 1)) = some (['0'], ['0'], conditionals k) := by
  have hmark : '0' ≠ Numeral.negativeMark := by decide
  simp [splitTernary, conditionals, Text.splitAtFirst, splitBranches, asksForPage, isBlank, hmark]

/-- Every conditional takes a level. -/
theorem evalNested_conditionals {n k : Nat} (h : n ≤ k) :
    evalNested unlabelled n (conditionals k) () = .error .tooDeep () := by
  induction n generalizing k with
  | zero =>
    rw [evalNested, if_neg (by simpa using (prepares_conditionals k).ne_nil)]
    rfl
  | succ n ih =>
    cases k with
    | zero => cases h
    | succ k =>
      rw [evalNested_of_groups (prepares_conditionals _) (replaceGroups_conditionals _ _),
        evalSplit_of_some (splitTernary_conditionals k)]
      cases n with
      | zero => rfl
      | succ n =>
        rw [bind_of_ok (evalNested_zero n), if_neg (by decide +kernel)]
        exact ih (Nat.le_of_succ_le_succ h)

/-- An apostrophe behind a reference, and conditionals up to the next apostrophe. -/
def behindReference : Text :=
  "defined(\x7b-\x7d')".toList ++ (conditionals 256).tail

/-- **An apostrophe behind a reference hides conditionals** from the scan for literals, but they are
evaluated. -/
theorem evaluate_behindReference_tooDeep :
    .char '?' ∉ behindReference.pieces ∧ unlabelled.IsShallow ∧
      evaluate unlabelled behindReference () = .error .tooDeep () := by
  refine ⟨by decide +kernel, ⟨fun _ => .throw (by simp), fun _ => .throw (by simp),
    fun _ => .pure _, fun _ => .throw (by simp)⟩, ?_⟩
  obtain ⟨⟨⟩, hrun⟩ :=
    exists_ok_of_resultValue? (r := (replaceBraces unlabelled (Text.trim behindReference) >>=
    replaceLiterals unlabelled) ()) (a := "defined(16')".toList ++ (conditionals 256).tail)
      (by decide +kernel)
  obtain ⟨⟨⟩, hgroups⟩ :=
    exists_ok_of_resultValue?
    (r := replaceGroups (callGroup unlabelled (evalNested unlabelled 255)) []
    ("defined(16')".toList ++ (conditionals 256).tail) ()) (a := conditionals 256)
      (by decide +kernel)
  have hprepares : Prepares unlabelled behindReference () _ () := ⟨by decide +kernel, hrun⟩
  have hgroup : evaluate unlabelled behindReference () = Formula.evalSplit unlabelled 255
      (conditionals 256) () :=
    evalNested_of_groups hprepares hgroups
  rw [hgroup, ← evalNested_of_groups (prepares_conditionals 256) (replaceGroups_conditionals _ 256)]
  exact evalNested_conditionals le_rfl

end MacroAssembler
