import MacroAssembler.Proofs.ExpressionRewriting
import MacroAssembler.Proofs.PassValuation

/-!
# The evaluator computes what a formula means

A printed formula is evaluated by rewriting: groups are replaced by their values from the inside
out, then a conditional is cut at its question mark and its colon, and what remains is a chain.
Every stage is shown to leave the text of the tree that the next stage is about.

* `replaceGroups` turns the text of a formula into its flat text.  A group is never taken for the
argument of a function, since a printed bracket never follows a name.
* `splitTernary` cuts the flat text of a conditional exactly at its own marks.  A conditional inside
of the first branch uses up its own colon, and no colon is taken for a request for a page, since an
operand ends right in front of it.
* `evalChain` gives the value of everything else.

Only conditionals take up nesting, and groups are evaluated one level below the text around them.
-/

namespace MacroAssembler

namespace Formula

variable {ρ : Valuation} {e : Formula}

/-! ## The characters of a formula -/

/-- The marks of operators. -/
def operatorMarks : Text :=
  [' ', '$', '+', '-', '*', '/', '%', '&', '|', '^', '~', '!', '<', '>', '=', '¬']

theorem mem_operatorMarks_of_mem_spelling {op : SpelledOperator} {c : Char} (h : c ∈ op.spelling) :
    c ∈ operatorMarks := by
  have hspellings : ∀ p ∈ Operator.spellings, p.1.all (· ∈ operatorMarks) = true := by decide
  exact of_decide_eq_true (List.all_eq_true.1 (hspellings _ op.listed) c h)

theorem sign_mem_operatorMarks (op : Unary) : op.sign ∈ operatorMarks := by
  cases op <;> decide

section characters

variable {p : Char → Prop} (hname : ∀ c, isNameChar c = true →
  p c) (hmarks : ∀ c ∈ operatorMarks, p c)

include hname hmarks

theorem text_forall (hother : ∀ c ∈ ['?', ':', '(', ')'], p c) (e : Formula) :
    ∀ c ∈ e.text, p c := by
  have hspace : p ' ' := hmarks ' ' (by decide)
  induction e with
  | literal n => exact fun c hc => hname c (n.isNameChar_of_mem_text hc)
  | label name => exact fun c hc => hname c (name.isNameChar_of_mem_text hc)
  | address => simpa [text] using hmarks '$' (by decide)
  | unary op e ih => exact List.forall_mem_cons.2 ⟨hmarks _ (sign_mem_operatorMarks op), ih⟩
  | binary op l r ihl ihr =>
    have hop : ∀ c ∈ op.spelling, p c := fun c hc => hmarks c (mem_operatorMarks_of_mem_spelling hc)
    simp only [text, List.forall_mem_append, List.forall_mem_cons]
    exact ⟨⟨ihl, hspace, hop⟩, hspace, ihr⟩
  | group e ih =>
    simp only [text, List.forall_mem_append, List.forall_mem_cons]
    exact ⟨⟨hother '(' (by decide), ih⟩, hother ')' (by decide), by simp⟩
  | choice c y n ihc ihy ihn =>
    simp only [text, List.forall_mem_append, List.forall_mem_cons]
    exact ⟨⟨ihc, hspace, hother '?' (by decide), hspace, ihy⟩, hspace,
      hother ':' (by decide), hspace, ihn⟩

/-- A flat text has the marks of conditionals only if the formula is one. -/
theorem Readable.flat_forall (h : e.Readable ρ) (hchoice : e.level = 0 → p '?' ∧ p ':') :
    ∀ c ∈ e.flat ρ, p c := by
  have hspace : p ' ' := hmarks ' ' (by decide)
  induction e with
  | literal n => exact fun c hc => hname c (n.isNameChar_of_mem_text hc)
  | label name => exact fun c hc => hname c (name.isNameChar_of_mem_text hc)
  | address => simpa [flat] using hmarks '$' (by decide)
  | unary op e ih =>
    have hlevel := h.1
    exact List.forall_mem_cons.2 ⟨hmarks _ (sign_mem_operatorMarks op), ih h.2 (by omega)⟩
  | binary op l r ihl ihr =>
    obtain ⟨⟨hl, hr⟩, -, hleft, hright⟩ := h
    have hop : ∀ c ∈ op.spelling, p c := fun c hc => hmarks c (mem_operatorMarks_of_mem_spelling hc)
    simp only [flat, List.forall_mem_append, List.forall_mem_cons]
    exact ⟨⟨ihl hleft (by omega), hspace, hop⟩, hspace, ihr hright (by omega)⟩
  | group e ih =>
    have hsubset : ∀ c ∈ ['¬', '-'], c ∈ operatorMarks := forall_mem_of_all (by decide)
    intro c hc
    rcases h.1.isNameChar_or_of_mem_write hc with hc | hc
    · exact hname c hc
    · exact hmarks c (hsubset c hc)
  | choice c y n ihc ihy ihn =>
    obtain ⟨hmark, hcolon⟩ := hchoice rfl
    obtain ⟨-, hc, hy, hn⟩ := h
    simp only [flat, List.forall_mem_append, List.forall_mem_cons]
    exact ⟨⟨ihc hc fun _ => ⟨hmark, hcolon⟩, hspace, hmark, hspace,
      ihy hy fun _ => ⟨hmark, hcolon⟩⟩, hspace, hcolon, hspace, ihn hn fun _ => ⟨hmark, hcolon⟩⟩

end characters

theorem isOrdinary_of_isNameChar {c : Char} (h : isNameChar c = true) : isOrdinary c = true := by
  have hne : c ≠ '\x7b' ∧ c ≠ '"' ∧ c ≠ '\'' :=
    ⟨ne_of_isNameChar h (by decide), ne_of_isNameChar h (by decide), ne_of_isNameChar h (by decide)⟩
  simp [isOrdinary, hne]

theorem isOrdinary_of_mem_text {c : Char} (h : c ∈ e.text) : isOrdinary c = true :=
  text_forall (p := (isOrdinary · = true)) (fun _ => isOrdinary_of_isNameChar)
    (forall_mem_of_all (by decide)) (forall_mem_of_all (by decide)) e c h

theorem Readable.isOrdinary_of_mem_flat {c : Char} (h : e.Readable ρ) (hc : c ∈ e.flat ρ) :
    isOrdinary c = true :=
  h.flat_forall (p := (isOrdinary · = true)) (fun _ => isOrdinary_of_isNameChar)
    (forall_mem_of_all (by decide)) (fun _ => ⟨rfl, rfl⟩) c hc

/-- A flat text has no brackets. -/
theorem Readable.notMem_flat {bracket : Char} (h : e.Readable ρ) (hbracket : bracket ∈ ['(', ')']) :
    bracket ∉ e.flat ρ := by
  have hmarks : ∀ c ∈ ['(', ')'], c ∈ marks ∧ c ∉ '?' :: ':' :: operatorMarks :=
    forall_mem_of_all (by decide)
  obtain ⟨hmark, hother⟩ := hmarks bracket hbracket
  simp only [List.mem_cons, not_or] at hother
  have hall : ∀ c ∈ e.flat ρ, c ≠ bracket :=
    h.flat_forall (fun c hc => ne_of_isNameChar hc hmark)
      (fun c hc => ne_of_mem_of_not_mem hc hother.2.2)
      fun _ => ⟨Ne.symm hother.1, Ne.symm hother.2.1⟩
  exact fun hmem => hall bracket hmem rfl

/-- The marks of conditionals belong to conditionals. -/
theorem Readable.notMem_flat_of_level {mark : Char} (h : e.Readable ρ) (hlevel : 1 ≤ e.level)
    (hmark : mark ∈ ['?', ':']) : mark ∉ e.flat ρ := by
  have hmarks : ∀ c ∈ ['?', ':'], c ∈ marks ∧ c ∉ operatorMarks := forall_mem_of_all (by decide)
  obtain ⟨hmark, hother⟩ := hmarks mark hmark
  have hall : ∀ c ∈ e.flat ρ, c ≠ mark :=
    h.flat_forall (fun c hc => ne_of_isNameChar hc hmark)
      (fun c hc => ne_of_mem_of_not_mem hc hother)
      fun hzero => by omega
  exact fun hmem => hall mark hmem rfl

/-! ## The ends of a formula -/

/-- The characters that an operand ends with. -/
def EndsOperand (c : Char) : Prop :=
  isNameChar c = true ∨ c = '$'

theorem isBlank_of_endsOperand (c : Char) (h : EndsOperand c) : isBlank c = false := by
  rcases h with h | rfl
  · exact isBlank_of_isNameChar h
  · rfl

theorem asksForPage_of_endsOperand {c : Char} (h : EndsOperand c) : asksForPage c = false := by
  have hmarks : ∀ c ∈ Numeral.negativeMark :: "+-*/%&|^~!<>=?:".toList, c ∈ marks ∧ c ≠ '$' :=
    forall_mem_of_all (by decide)
  by_contra hpage
  have hmem : c ∈ Numeral.negativeMark :: "+-*/%&|^~!<>=?:".toList := by
    rw [asksForPage, Bool.not_eq_false, Bool.or_eq_true, List.contains_iff_mem, beq_iff_eq] at hpage
    exact List.mem_cons.2 hpage.symm
  obtain ⟨hmark, hne⟩ := hmarks c hmem
  exact h.elim (fun hname => ne_of_isNameChar hname hmark rfl) hne

theorem isBlank_sign (op : Unary) : isBlank op.sign = false := by
  cases op <;> rfl

/-- The text starts with something that is no blank, and ends with an operand. -/
def Framed (text : Text) : Prop :=
  text.Starts (isBlank · = false) ∧ text.Ends EndsOperand

theorem Framed.solid {text : Text} (h : Framed text) : text.Solid :=
  ⟨h.1, h.2.imp isBlank_of_endsOperand⟩

theorem framed_of_isNameChar {text : Text} (hne : text ≠ [])
    (hname : ∀ c ∈ text, isNameChar c = true) : Framed text :=
  ⟨Text.starts_of_forall hne fun c hc => isBlank_of_isNameChar (hname c hc),
    Text.ends_of_forall hne fun c hc => Or.inl (hname c hc)⟩

theorem framed_literal (n : DecimalLiteral) : Framed n.text :=
  framed_of_isNameChar n.text_ne_nil fun _ => n.isNameChar_of_mem_text

theorem framed_label (name : LabelName) : Framed name.text :=
  framed_of_isNameChar name.nonempty fun _ => name.isNameChar_of_mem_text

theorem framed_write {x : Float} (hx : Value.ReadsBack x) : Framed (Numeral.write x) := by
  obtain ⟨c, rest, htext, hc, hrest⟩ := hx.toText_eq_cons
  have habs : Framed (Value.toText x.abs) := by
    rw [htext]
    exact framed_of_isNameChar (List.cons_ne_nil c rest)
      (List.forall_mem_cons.2 ⟨isNameChar_of_isDigit hc, hrest⟩)
  rcases hx.write_cases with ⟨hwrite, -⟩ | ⟨mark, hmark, hwrite, -⟩
  · rwa [hwrite]
  · have hblank : ∀ c ∈ ['¬', '-'], isBlank c = false := forall_mem_of_all (by decide)
    rw [hwrite]
    exact ⟨Text.starts_cons (hblank mark hmark) _, habs.2.cons mark⟩

theorem text_solid (e : Formula) : e.text.Solid := by
  induction e with
  | literal n => exact (framed_literal n).solid
  | label name => exact (framed_label name).solid
  | address => exact ⟨⟨'$', rfl, rfl⟩, ⟨'$', rfl, rfl⟩⟩
  | unary op e ih => exact ⟨Text.starts_cons (isBlank_sign op) _, ih.2.cons _⟩
  | binary op l r ihl ihr => exact ⟨(ihl.1.append _).append _, (ihr.2.cons _).append _⟩
  | group e ih =>
    have hbracket : isBlank '(' = false ∧ isBlank ')' = false := ⟨rfl, rfl⟩
    exact ⟨Text.starts_cons hbracket.1 _, Text.ends_concat hbracket.2 _⟩
  | choice c y n ihc ihy ihn =>
    exact ⟨(ihc.1.append _).append _, (((ihn.2.cons _).cons _).cons _).append _⟩

theorem Readable.framed_flat (h : e.Readable ρ) : Framed (e.flat ρ) := by
  induction e with
  | literal n => exact framed_literal n
  | label name => exact framed_label name
  | address => exact ⟨⟨'$', rfl, rfl⟩, ⟨'$', rfl, Or.inr rfl⟩⟩
  | unary op e ih => exact ⟨Text.starts_cons (isBlank_sign op) _, (ih h.2).2.cons _⟩
  | binary op l r ihl ihr =>
    obtain ⟨-, -, hleft, hright⟩ := h
    exact ⟨((ihl hleft).1.append _).append _, ((ihr hright).2.cons _).append _⟩
  | group e ih => exact framed_write h.1
  | choice c y n ihc ihy ihn =>
    obtain ⟨-, hc, -, hn⟩ := h
    exact ⟨((ihc hc).1.append _).append _, ((((ihn hn).2.cons _).cons _).cons _).append _⟩

/-! ## Conditionals -/

theorem Readable.asksForPage_flat (h : e.Readable ρ) (before : Char) :
    asksForPage (lastSolid before (e.flat ρ)) = false :=
  asksForPage_of_endsOperand (lastSolid_of_ends h.framed_flat.2 isBlank_of_endsOperand before)

theorem Readable.closesConditionals_of_level (h : e.Readable ρ) (hlevel : 1 ≤ e.level) :
    ClosesConditionals (e.flat ρ) :=
  closesConditionals_of_notMem (h.notMem_flat_of_level hlevel (by decide))
    (h.notMem_flat_of_level hlevel (by decide))

theorem Readable.closesConditionals_flat (h : e.Readable ρ) : ClosesConditionals (e.flat ρ) := by
  induction e with
  | choice c y n ihc ihy ihn =>
    obtain ⟨-, hc, hy, hn⟩ := h
    exact closesConditionals_conditional (ihc hc) (ihy hy) (ihn hn) (hy.asksForPage_flat '?')
  | _ => exact h.closesConditionals_of_level (by simp [level])

theorem Readable.splitTernary_choice {c y n : Formula} (h : (choice c y n).Readable ρ) :
    splitTernary ((choice c y n).flat ρ) =
      some (c.flat ρ ++ [' '], ' ' :: y.flat ρ ++ [' '], ' ' :: n.flat ρ) := by
  obtain ⟨hlevel, hc, hy, hn⟩ := h
  exact splitTernary_conditional (hc.notMem_flat_of_level hlevel (by decide))
    hy.closesConditionals_flat
    (hy.asksForPage_flat '?')

theorem Readable.splitTernary_of_level (h : e.Readable ρ) (hlevel : 1 ≤ e.level) :
    splitTernary (e.flat ρ) = none :=
  splitTernary_eq_none (h.notMem_flat_of_level hlevel (by decide))

/-! ## Groups -/

section groups

variable {σ : Type} {holds : σ → Prop} {call : Text → Text → EvalM σ Float}

theorem unnamed_cons {c : Char} (hc : c ∈ marks) (done : Text) : Unnamed (c :: done) := by
  intro d hd
  obtain rfl : c = d := Option.some.inj hd
  exact isNameChar_of_mem_marks hc

theorem sign_mem_marks (op : Unary) : op.sign ∈ marks := by
  cases op <;> decide

theorem unnamed_space (text done : Text) : Unnamed ((text ++ [' ']).reverse ++ done) := by
  rw [List.reverse_concat]
  exact unnamed_cons (by decide) _

theorem closing_notMem_of_isNameChar {text : Text} (h : ∀ c ∈ text, isNameChar c = true) :
    ')' ∉ text :=
  fun hmem => ne_of_isNameChar (h _ hmem) (by decide) rfl

theorem closing_notMem_operator (op : SpelledOperator) : ')' ∉ ' ' :: op.spelling ++ [' '] := by
  have hop : ')' ∉ op.spelling := fun hmem =>
    absurd (mem_operatorMarks_of_mem_spelling hmem) (by decide)
  simpa using hop

/-- From the text of a formula on, the replacement of groups goes on as from its flat text. -/
theorem Readable.replaceGroups_text (h : e.Readable ρ)
    (hcall : ∀ g ∈ e.groups, Gives holds (call [] (g.flat ρ)) (g.value ρ)) {done tail result : Text}
    (hdone : Unnamed done)
    (htail : Gives holds (replaceGroups call ((e.flat ρ).reverse ++ done) tail) result) :
    Gives holds (replaceGroups call done (e.text ++ tail)) result := by
  induction e generalizing done tail with
  | literal n =>
    rw [text, replaceGroups_append (closing_notMem_of_isNameChar fun _ => n.isNameChar_of_mem_text)]
    exact htail
  | label name =>
    rw [text,
      replaceGroups_append (closing_notMem_of_isNameChar fun _ => name.isNameChar_of_mem_text)]
    exact htail
  | address => exact htail
  | unary op e ih =>
    have hsign : ')' ∉ [op.sign] := by cases op <;> decide
    show Gives holds (replaceGroups call done ([op.sign] ++ (e.text ++ tail))) result
    rw [replaceGroups_append hsign]
    refine ih h.2 hcall (unnamed_cons (sign_mem_marks op) done) ?_
    simpa [flat] using htail
  | binary op l r ihl ihr =>
    obtain ⟨-, -, hleft, hright⟩ := h
    have hassoc : (binary op l r).text ++ tail =
        l.text ++ ((' ' :: op.spelling ++ [' ']) ++ (r.text ++ tail)) := by simp [text]
    rw [hassoc]
    refine ihl hleft (fun g hg => hcall g (List.mem_append_left _ hg)) hdone ?_
    rw [replaceGroups_append (closing_notMem_operator op)]
    refine ihr hright (fun g hg => hcall g (List.mem_append_right _ hg)) (unnamed_space _ _) ?_
    simpa [flat] using htail
  | group e ih =>
    have hassoc : (group e).text ++ tail = ['('] ++ (e.text ++ ')' :: tail) := by simp [text]
    rw [hassoc, replaceGroups_append (by decide)]
    refine ih h.2 (fun g hg => hcall g (List.mem_cons_of_mem _ hg))
      (unnamed_cons (by decide) done) ?_
    exact replaceGroups_close (h.2.notMem_flat (by decide)) hdone (hcall e List.mem_cons_self) htail
  | choice c y n ihc ihy ihn =>
    obtain ⟨-, hc, hy, hn⟩ := h
    simp only [groups, List.mem_append] at hcall
    have hassoc : (choice c y n).text ++ tail =
        c.text ++
          ([' ', '?', ' '] ++ (y.text ++ ([' ', ':', ' '] ++ (n.text ++ tail)))) := by simp [text]
    rw [hassoc]
    refine ihc hc (fun g hg => hcall g (.inl (.inl hg))) hdone ?_
    rw [replaceGroups_append (by decide)]
    refine ihy hy (fun g hg => hcall g (.inl (.inr hg))) (unnamed_space [' ', '?'] _) ?_
    rw [replaceGroups_append (by decide)]
    refine ihn hn (fun g hg => hcall g (.inr hg)) (unnamed_space [' ', ':'] _) ?_
    simpa [flat] using htail

/-- The groups of a formula are replaced by their values. -/
theorem Readable.replaceGroups_eq_flat (h : e.Readable ρ)
    (hcall : ∀ g ∈ e.groups, Gives holds (call [] (g.flat ρ)) (g.value ρ)) :
    Gives holds (replaceGroups call [] e.text) (e.flat ρ) := by
  have hempty : Unnamed [] := fun _ hc => by cases hc
  have hend : Gives holds (replaceGroups call ((e.flat ρ).reverse ++ []) []) (e.flat ρ) := by
    rw [List.append_nil]
    exact replaceGroups_nil (h.notMem_flat (by decide))
  have hall := h.replaceGroups_text hcall hempty hend
  rwa [List.append_nil] at hall

/-- A flat text has no groups left. -/
theorem Readable.replaceGroups_flat (h : e.Readable ρ) :
    Gives holds (replaceGroups call [] (e.flat ρ)) (e.flat ρ) := by
  have hpush : replaceGroups call [] (e.flat ρ ++ []) =
      replaceGroups call ((e.flat ρ).reverse ++ []) [] :=
    replaceGroups_append (h.notMem_flat (by decide)) []
  rw [List.append_nil, List.append_nil] at hpush
  rw [hpush]
  exact replaceGroups_nil (h.notMem_flat (by decide))

end groups

/-! ## Evaluation -/

/-- How deep conditionals nest in the flat text of a formula. -/
def spread : Formula → Nat
  | choice c y n => max c.spread (max y.spread n.spread) + 1
  | _ => 0

theorem spread_le_depth (e : Formula) : e.spread ≤ e.depth := by
  induction e with
  | choice c y n ihc ihy ihn =>
    simp only [spread, depth]
    omega
  | _ => exact Nat.zero_le _

theorem depth_le_of_mem_groups {g : Formula} (h : g ∈ e.groups) : g.depth ≤ e.depth := by
  induction e with
  | literal | label | address => cases h
  | unary op e ih => exact ih h
  | binary op l r ihl ihr =>
    rw [depth]
    rcases List.mem_append.1 h with h | h
    · have := ihl h
      omega
    · have := ihr h
      omega
  | group e ih =>
    rcases List.mem_cons.1 h with rfl | h
    · exact Nat.le_refl _
    · exact ih h
  | choice c y n ihc ihy ihn =>
    rw [depth]
    simp only [groups, List.mem_append] at h
    rcases h with (h | h) | h
    · have := ihc h
      omega
    · have := ihy h
      omega
    · have := ihn h
      omega

theorem Readable.of_mem_groups {g : Formula} (h : e.Readable ρ) (hg : g ∈ e.groups) :
    g.Readable ρ := by
  induction e with
  | literal | label | address => cases hg
  | unary op e ih => exact ih h.2 hg
  | binary op l r ihl ihr =>
    obtain ⟨-, -, hleft, hright⟩ := h
    exact (List.mem_append.1 hg).elim (ihl hleft) (ihr hright)
  | group e ih =>
    rcases List.mem_cons.1 hg with rfl | hg
    · exact h.2
    · exact ih h.2 hg
  | choice c y n ihc ihy ihn =>
    obtain ⟨-, hc, hy, hn⟩ := h
    simp only [groups, List.mem_append] at hg
    exact hg.elim (Or.rec (ihc hc) (ihy hy)) (ihn hn)

section evaluation

variable {σ : Type} {holds : σ → Prop} {env : Environment σ}
variable {nesting : Nat}

/-- What happens to a text after its groups have been replaced. -/
def evalSplit (env : Environment σ) (nesting : Nat) (text : Text) : EvalM σ Float :=
  match splitTernary text with
  | some (cond, yes, no) => do
    let cond ← evalNested env nesting cond
    evalNested env nesting (if cond != 0 then yes else no)
  | none => evalChain env text

/-- One level of evaluation, for a text without references and literals. -/
theorem evalNested_of_isOrdinary {text trimmed : Text} (htrim : Text.trim text = trimmed)
    (hne : trimmed ≠ []) (hordinary : ∀ c ∈ trimmed, isOrdinary c = true) :
    evalNested env (nesting + 1) text =
      replaceGroups (callGroup env (evalNested env nesting))
        [] trimmed >>= evalSplit env nesting := by
  rw [evalNested]
  simp only [htrim]
  have hbrace : '\x7b' ∉ trimmed := fun hmem => by cases hordinary _ hmem
  rw [if_neg (by simpa using hne), replaceBraces_of_notMem hbrace, pure_bind,
    replaceLiterals_of_pieces (pieces_of_isOrdinary none hordinary), pure_bind]
  rfl

theorem evalNested_succ {text trimmed replaced : Text} {value : Float}
    (htrim : Text.trim text = trimmed) (hne : trimmed ≠ [])
    (hordinary : ∀ c ∈ trimmed, isOrdinary c = true)
    (hgroups : Gives holds (replaceGroups (callGroup env (evalNested env nesting))
      [] trimmed) replaced) (hsplit : Gives holds (evalSplit env nesting replaced) value) :
    Gives holds (evalNested env (nesting + 1) text) value := by
  rw [evalNested_of_isOrdinary htrim hne hordinary]
  exact hgroups.bind hsplit

/-- After the groups: a conditional evaluates its condition and one branch, everything else is a
chain. -/
theorem Readable.evalSplit_flat (henv : env.Answers holds ρ) (h : e.Readable ρ)
    (hspread : e.spread ≤ nesting)
    (hbranch : ∀ b : Formula, b.Readable ρ → b.spread < nesting → ∀ before after : Text,
      (∀ c ∈ before ++ after, isBlank c = true) →
        Gives holds (evalNested env nesting (before ++ b.flat ρ ++ after)) (b.value ρ)) :
    Gives holds (evalSplit env nesting (e.flat ρ)) (e.value ρ) := by
  cases e with
  | choice c y n =>
    rw [evalSplit, h.splitTernary_choice]
    obtain ⟨-, hc, hy, hn⟩ := h
    rw [spread] at hspread
    have hcond := hbranch c hc (by omega) [] [' '] (forall_mem_of_all (by decide))
    refine hcond.bind ?_
    rw [value]
    split
    · exact hbranch y hy (by omega) [' '] [' '] (forall_mem_of_all (by decide))
    · have hno := hbranch n hn (by omega) [' '] [] (forall_mem_of_all (by decide))
      rwa [List.append_nil] at hno
  | _ =>
    rw [evalSplit, h.splitTernary_of_level (by simp [level])]
    exact h.evalChain_flat henv (by simp [level])

/-- A flat text has the value of its formula, if conditionals may nest deep enough. -/
theorem Readable.evalNested_flat (henv : env.Answers holds ρ) (h : e.Readable ρ)
    (hspread : e.spread < nesting) {before after : Text}
    (hblank : ∀ c ∈ before ++ after, isBlank c = true) :
    Gives holds (evalNested env nesting (before ++ e.flat ρ ++ after)) (e.value ρ) := by
  induction nesting generalizing e before after with
  | zero => omega
  | succ nesting ih =>
    obtain ⟨hbefore, hafter⟩ := List.forall_mem_append.1 hblank
    have hsolid := h.framed_flat.solid
    exact evalNested_succ (hsolid.trim_append hbefore hafter) hsolid.ne_nil
      (fun _ => h.isOrdinary_of_mem_flat) h.replaceGroups_flat
      (h.evalSplit_flat henv (by omega) fun b hb hlt _ _ => ih hb hlt)

theorem Readable.evalNested_text (henv : env.Answers holds ρ) (h : e.Readable ρ)
    (hdepth : e.depth < nesting) : Gives holds (evalNested env (nesting + 1) e.text)
    (e.value ρ) := by
  have hflat : ∀ b : Formula, b.Readable ρ → b.spread < nesting → ∀ before after : Text,
      (∀ c ∈ before ++ after, isBlank c = true) →
        Gives holds (evalNested env nesting (before ++ b.flat ρ ++ after)) (b.value ρ) :=
    fun b hb hlt _ _ => hb.evalNested_flat henv hlt
  have hgroups : ∀ g ∈ e.groups,
      Gives holds (callGroup env (evalNested env nesting) [] (g.flat ρ)) (g.value ρ) := by
    intro g hg
    have hlt : g.spread < nesting :=
      Nat.lt_of_le_of_lt (Nat.le_trans g.spread_le_depth (depth_le_of_mem_groups hg)) hdepth
    have hgroup := hflat g (h.of_mem_groups hg) hlt [] [] (by simp)
    rwa [List.append_nil] at hgroup
  have hspread : e.spread ≤ nesting := Nat.le_of_lt (Nat.lt_of_le_of_lt e.spread_le_depth hdepth)
  exact evalNested_succ e.text_solid.trim_eq e.text_solid.ne_nil (fun _ => isOrdinary_of_mem_text)
    (h.replaceGroups_eq_flat hgroups) (h.evalSplit_flat henv hspread hflat)

end evaluation

/-- A formula with enough brackets and a value can be read back. -/
theorem readable_of_meaning (hbrackets : e.WellBracketed) {v : Float} (hv : e.meaning ρ = some v)
    (hgroups : ∀ g ∈ e.groups, ∀ w ∈ g.meaning ρ, Value.ReadsBack w) : e.Readable ρ := by
  induction e generalizing v with
  | literal | address => trivial
  | label name => exact Option.isSome_iff_exists.2 ⟨v, hv⟩
  | unary op e ih =>
    obtain ⟨x, hx, -⟩ := Option.map_eq_some_iff.1 hv
    exact ⟨hbrackets.1, ih hbrackets.2 hx hgroups⟩
  | binary op l r ihl ihr =>
    obtain ⟨hl, hr, hleft, hright⟩ := hbrackets
    obtain ⟨x, hx, hv⟩ := Option.bind_eq_some_iff.1 hv
    obtain ⟨y, hy, hv⟩ := Option.bind_eq_some_iff.1 hv
    have hvalue : ∃ v, op.op.apply (l.value ρ) (r.value ρ) = .ok v := by
      rw [value_of_meaning ρ hx, value_of_meaning ρ hy]
      cases happly : op.op.apply x y with
      | ok v => exact ⟨v, rfl⟩
      | error error =>
        rw [happly] at hv
        cases hv
    exact ⟨⟨hl, hr⟩, hvalue, ihl hleft hx fun g hg => hgroups g (List.mem_append_left _ hg),
      ihr hright hy fun g hg => hgroups g (List.mem_append_right _ hg)⟩
  | group e ih =>
    have hback : Value.ReadsBack (e.value ρ) := by
      rw [value_of_meaning ρ (show e.meaning ρ = some v from hv)]
      exact hgroups e List.mem_cons_self v hv
    exact ⟨hback, ih hbrackets hv fun g hg => hgroups g (List.mem_cons_of_mem _ hg)⟩
  | choice c y n ihc ihy ihn =>
    obtain ⟨hlevel, hc, hy, hn⟩ := hbrackets
    obtain ⟨x, hx, hv⟩ := Option.bind_eq_some_iff.1 hv
    obtain ⟨a, ha, hv⟩ := Option.bind_eq_some_iff.1 hv
    obtain ⟨b, hb, hv⟩ := Option.bind_eq_some_iff.1 hv
    simp only [groups, List.mem_append] at hgroups
    exact ⟨hlevel, ihc hc hx fun g hg => hgroups g (.inl (.inl hg)),
      ihy hy ha fun g hg => hgroups g (.inl (.inr hg)), ihn hn hb fun g hg => hgroups g (.inr hg)⟩

end Formula

/-- **Evaluation computes the meaning of a printed formula.**  The environment answers with the
values of the valuation, also after it has been asked before; conditionals nest less than 250 deep;
and the value of every bracketed group is read back from its text, up to its sign. -/
theorem evaluate_print {σ : Type} {env : Environment σ} {holds : σ → Prop} {ρ : Valuation}
    (henv : env.Answers holds ρ) {e : Formula} (hdepth : e.depth < 250) {v : Float}
    (hv : e.meaning ρ = some v)
    (hgroups : ∀ g ∈ e.bracketed.groups, ∀ w ∈ g.meaning ρ, Value.ReadsBack w) {s : σ}
    (hs : holds s) : ∃ s', evaluate env e.print s = .ok v s' ∧ holds s' := by
  rw [← Formula.meaning_bracketed] at hv
  rw [← Formula.depth_bracketed] at hdepth
  have hreadable := Formula.readable_of_meaning e.wellBracketed_bracketed hv hgroups
  rw [← Formula.value_of_meaning ρ hv]
  exact hreadable.evalNested_text henv (Nat.lt_trans hdepth (by decide)) s hs

/-- A tree with one label. -/
def oneLabel (name : Text) (value : Float) : Symbols :=
  (Symbols.empty false).addLabel Symbols.global name { value := value }

/-- An assembling pass that knows the label `far` from the pass before. -/
def recallingStage : Stage where
  kind := .assemble
  strict := false
  maxSteps := 100
  table := .ofRows []
  previous := oneLabel "far".toList 0
  previousReusable := {}
  allocation := []

/-- A state of that pass, at address 100, in which the label `x` is defined. -/
def recallingState : State :=
  { State.initial {} {} {} with
    symbols := oneLabel ['x'] 3, relocation := some 100, location := some ⟨0, 1⟩ }

namespace Formula

/-- A decimal literal of one digit. -/
def digit (c : Char) (h : c.isDigit = true := by decide) : Formula :=
  literal { whole := [c], fraction := none, suffix := [], grouped := by simp [h], starts := h }

/-- A conditional with a negative group in its condition, and with another conditional in brackets
in its first branch. -/
def nested : Formula :=
  choice
    (binary { spelling := "<".toList, op := .lt }
      (binary { spelling := "-".toList, op := .sub } (digit '9')
        (binary { spelling := "*".toList, op := .mul }
          (binary { spelling := "-".toList, op := .sub } (digit '2') (digit '5'))
          (label { text := ['x'] })))
      address)
    (unary .neg (choice (label { text := "far".toList })
      (literal { whole := "1_000".toList, fraction := some ['5'], suffix := ['d'] })
      (literal { whole := [], fraction := some "25".toList, suffix := [] })))
    (binary { spelling := "%".toList, op := .rem } address (digit '2'))

end Formula

theorem evaluate_print_nested :
    Formula.nested.print = "9 - (2 - 5) * x < $ ? -(far ? 1_000.5d : .25) : $ % 2".toList ∧
    Formula.nested.meaning (recallingStage.valuation recallingState) = some (-0.25) ∧
    ∃ st', evaluate (recallingStage.environment false) Formula.nested.print recallingState =
        .ok (-0.25) st' ∧
      recallingStage.valuation st' = recallingStage.valuation recallingState :=
  ⟨by decide +kernel, by decide +kernel,
    evaluate_print (recallingStage.environment_answers false recallingState) (by decide)
      (by decide +kernel) (by decide +kernel) rfl⟩

end MacroAssembler
