import MacroAssembler.Proofs.OperandReading

/-!
# Chains of terms

A formula without brackets and conditionals is read as a chain: its leftmost term, then operators,
each with the term behind it.  The tree is gone at that point, and the chain is worked out by
splitting it at the last operator of the loosest group.  In a formula with enough brackets that
operator is the one at the root: all operators to its left bind at least as tightly, and those to
its right more tightly.  So the splits follow the tree, and the chain has the value of the formula.

Here the groups of a formula are already numbers: `flat` is the text in which every group has been
replaced by its value.
-/

namespace MacroAssembler

/-! ## Splitting a chain -/

section splitting

variable {α : Type} {front back : List (Operator × α)} {op : Operator} {x : α}

theorem eq_append_of_splitLoosest {chain : List (Operator × α)}
    (h : splitLoosest chain = some (front, op, x, back)) : chain = front ++ (op, x) :: back := by
  fun_induction splitLoosest chain generalizing front op x back with
  | case1 => cases h
  | case2 op' y rest front' op'' z back' hrest hle ih =>
    cases h
    rw [List.cons_append, ← ih hrest]
  | case3 | case4 =>
    cases h
    rfl

/-- A chain is split at the operator that binds no more tightly than those in front of it, and less
tightly than those behind. -/
theorem splitLoosest_append (hfront : ∀ p ∈ front, op.group ≤ p.1.group)
    (hback : ∀ p ∈ back, op.group < p.1.group) :
    splitLoosest (front ++ (op, x) :: back) = some (front, op, x, back) := by
  induction front with
  | nil =>
    rw [List.nil_append, splitLoosest]
    split
    next front' op' y back' hsplit =>
      have hmem : (op', y) ∈ back := by
        rw [eq_append_of_splitLoosest hsplit]
        exact List.mem_append_right _ List.mem_cons_self
      have hlt : op.group < op'.group := hback _ hmem
      rw [if_neg (by omega)]
    next => rfl
  | cons p front ih =>
    obtain ⟨hp, hfront⟩ := List.forall_mem_cons.1 hfront
    rw [List.cons_append, splitLoosest, ih hfront]
    exact if_pos hp

end splitting

theorem reduce_nil (first : Float) : reduce first [] = .ok first := by
  rw [reduce]
  rfl

theorem reduce_append {first x lhs rhs : Float}
    {front back : List (Operator × Float)} {op : Operator}
    (hfront : ∀ p ∈ front, op.group ≤ p.1.group) (hback : ∀ p ∈ back, op.group < p.1.group)
    (hlhs : reduce first front = .ok lhs) (hrhs : reduce x back = .ok rhs) :
    reduce first (front ++ (op, x) :: back) = op.apply lhs rhs := by
  rw [reduce]
  split
  next hnone => simp [splitLoosest_append hfront hback] at hnone
  next hsome =>
    rw [splitLoosest_append hfront hback] at hsome
    cases hsome
    rw [hlhs, hrhs]
    rfl

/-! ## Reading a chain -/

theorem readChain_nil : readChain [] = ([], true) := by
  rw [readChain]
  rfl

theorem SpelledOperator.spelling_eq_cons (op : SpelledOperator) :
    ∃ c rest, op.spelling = c :: rest ∧ isBlank c = false := by
  have hspellings : ∀ p ∈ Operator.spellings, p.1.head?.any (!isBlank ·) = true := by decide
  have hop := hspellings _ op.listed
  cases hspelling : op.spelling with
  | nil => simp [hspelling] at hop
  | cons c rest => exact ⟨c, rest, rfl, by simpa [hspelling] using hop⟩

theorem readChain_link (op : SpelledOperator) {text after : Text} {term : Term}
    (h : Term.read text = some (term, after)) :
    readChain (' ' :: op.spelling ++ ' ' :: text) =
      ((op.op, term) :: (readChain after).1, (readChain after).2) := by
  obtain ⟨c, rest, hop, hblank⟩ := op.spelling_eq_cons
  have htrim : Text.trimStart (' ' :: op.spelling ++ ' ' :: text) = c :: (rest ++ ' ' :: text) := by
    have hspace : isBlank ' ' = true := rfl
    simp [Text.trimStart, hop, hblank, hspace]
  have hread : Operator.read (c :: (rest ++ ' ' :: text)) = some (op.op, ' ' :: text) := by
    rw [← List.cons_append, ← hop, Operator.read_spelling]
  have hterm : Term.read (' ' :: text) = some (term, after) := (Term.read_space text).trans h
  rw [readChain]
  split
  next hnil => cases htrim.symm.trans hnil
  next hcons =>
    obtain ⟨rfl, rfl⟩ := List.cons.inj (htrim.symm.trans hcons)
    split
    next hnone => cases hread.symm.trans hnone
    next hsome =>
      obtain ⟨rfl, rfl⟩ := Prod.mk.inj (Option.some.inj (hread.symm.trans hsome))
      split
      next hnone => cases hterm.symm.trans hnone
      next hsome =>
        obtain ⟨rfl, rfl⟩ := Prod.mk.inj (Option.some.inj (hterm.symm.trans hsome))
        rfl

namespace Formula

variable (ρ : Valuation)

/-- The value of a formula, or something else if it has none. -/
def value : Formula → Float
  | literal n => n.value
  | label name => (ρ.label name.text).getD 0
  | address => ρ.address
  | unary op e => op.apply e.value
  | binary op l r => (op.op.apply l.value r.value).toOption.getD 0
  | group e => e.value
  | choice c y n => if c.value != 0 then y.value else n.value

theorem value_of_meaning {e : Formula} {v : Float} (h : e.meaning ρ = some v) : e.value ρ = v := by
  induction e generalizing v with
  | literal | address => exact Option.some.inj h
  | label name => simp [value, show ρ.label name.text = some v from h]
  | unary op e ih =>
    obtain ⟨x, hx, rfl⟩ := Option.map_eq_some_iff.1 h
    rw [value, ih hx]
  | binary op l r ihl ihr =>
    obtain ⟨x, hx, h⟩ := Option.bind_eq_some_iff.1 h
    obtain ⟨y, hy, h⟩ := Option.bind_eq_some_iff.1 h
    rw [value, ihl hx, ihr hy, h]
    rfl
  | group e ih => exact ih h
  | choice c y n ihc ihy ihn =>
    obtain ⟨x, hx, h⟩ := Option.bind_eq_some_iff.1 h
    obtain ⟨a, ha, h⟩ := Option.bind_eq_some_iff.1 h
    obtain ⟨b, hb, h⟩ := Option.bind_eq_some_iff.1 h
    rw [value, ihc hx, ihy ha, ihn hb]
    exact Option.some.inj h

/-- The text of a formula with its groups replaced by their values. -/
def flat : Formula → Text
  | literal n => n.text
  | label name => name.text
  | address => ['$']
  | unary op e => op.sign :: e.flat
  | binary op l r => l.flat ++ ' ' :: op.spelling ++ ' ' :: r.flat
  | group e => Numeral.write (e.value ρ)
  | choice c y n => c.flat ++ ' ' :: '?' :: ' ' :: y.flat ++ ' ' :: ':' :: ' ' :: n.flat

/-- A formula that can be read back from its text: its brackets are enough, all of its parts have
values, and the values of its groups survive being written down. -/
def Readable : Formula → Prop
  | label name => (ρ.label name.text).isSome = true
  | unary _ e => 11 ≤ e.level ∧ e.Readable
  | binary op l r => (op.op.group + 1 ≤ l.level ∧ op.op.group + 2 ≤ r.level) ∧
      (∃ v, op.op.apply (l.value ρ) (r.value ρ) = .ok v) ∧ l.Readable ∧ r.Readable
  | group e => Value.ReadsBack (e.value ρ) ∧ e.Readable
  | choice c y n => 1 ≤ c.level ∧ c.Readable ∧ y.Readable ∧ n.Readable
  | _ => True

/-! ## The spine -/

/-- The leftmost term of a formula. -/
def first : Formula → Formula
  | binary _ l _ => l.first
  | e => e

/-- The operators of a formula, from left to right, each with the term behind it. -/
def rest : Formula → List (SpelledOperator × Formula)
  | binary op l r => l.rest ++ (op, r.first) :: r.rest
  | _ => []

/-- An operator with the term behind it, as text. -/
def link (p : SpelledOperator × Formula) : Text :=
  ' ' :: p.1.spelling ++ ' ' :: p.2.flat ρ

theorem flat_eq_spine (e : Formula) : e.flat ρ = e.first.flat ρ ++ e.rest.flatMap (link ρ) := by
  induction e with
  | binary op l r ihl ihr =>
    rw [flat, ihl, ihr]
    simp [first, rest, link]
  | _ => simp [first, rest]

variable {ρ} {e : Formula}

theorem Readable.first (h : e.Readable ρ) (hlevel : 1 ≤ e.level) :
    11 ≤ e.first.level ∧ e.first.Readable ρ := by
  induction e with
  | binary op l r ihl ihr =>
    obtain ⟨⟨hl, hr⟩, -, hleft, hright⟩ := h
    exact ihl hleft (by omega)
  | choice => exact absurd hlevel (Nat.not_succ_le_zero 0)
  | _ => exact ⟨Nat.le_refl 11, h⟩

theorem Readable.rest (h : e.Readable ρ) : ∀ p ∈ e.rest, 11 ≤ p.2.level ∧ p.2.Readable ρ := by
  induction e with
  | binary op l r ihl ihr =>
    obtain ⟨⟨hl, hr⟩, -, hleft, hright⟩ := h
    intro p hp
    rcases List.mem_append.1 hp with hp | hp
    · exact ihl hleft p hp
    rcases List.mem_cons.1 hp with rfl | hp
    · exact hright.first (by omega)
    · exact ihr hright p hp
  | _ => exact fun p hp => by cases hp

/-- The operators of a formula bind at least as tightly as the formula itself. -/
theorem Readable.level_le (h : e.Readable ρ) : ∀ p ∈ e.rest, e.level ≤ p.1.op.group + 1 := by
  induction e with
  | binary op l r ihl ihr =>
    obtain ⟨⟨hl, hr⟩, -, hleft, hright⟩ := h
    intro p hp
    rw [level]
    rcases List.mem_append.1 hp with hp | hp
    · have := ihl hleft p hp
      omega
    rcases List.mem_cons.1 hp with rfl | hp
    · exact Nat.le_refl _
    · have := ihr hright p hp
      omega
  | _ => exact fun p hp => by cases hp

/-- The chain of a formula has the value of the formula. -/
theorem Readable.reduce_rest (h : e.Readable ρ) :
    reduce (e.first.value ρ) (e.rest.map fun p => (p.1.op, p.2.value ρ)) = .ok (e.value ρ) := by
  induction e with
  | binary op l r ihl ihr =>
    obtain ⟨⟨hl, hr⟩, ⟨v, hv⟩, hleft, hright⟩ := h
    have hfront : ∀ p ∈ l.rest.map fun p => (p.1.op, p.2.value ρ), op.op.group ≤ p.1.group := by
      intro p hp
      obtain ⟨q, hq, rfl⟩ := List.mem_map.1 hp
      have := hleft.level_le q hq
      show op.op.group ≤ q.1.op.group
      omega
    have hback : ∀ p ∈ r.rest.map fun p => (p.1.op, p.2.value ρ), op.op.group < p.1.group := by
      intro p hp
      obtain ⟨q, hq, rfl⟩ := List.mem_map.1 hp
      have := hright.level_le q hq
      show op.op.group < q.1.op.group
      omega
    have hvalue : (binary op l r).value ρ = v := by rw [value, hv]; rfl
    rw [Formula.rest, List.map_append, List.map_cons, Formula.first,
      reduce_append hfront hback (ihl hleft) (ihr hright), hv, hvalue]
  | _ => exact reduce_nil _

/-! ## Reading the spine -/

/-- The term that a formula without a chain is read as. -/
def term (ρ : Valuation) : Formula → Term
  | literal n => ⟨[], .number n.value⟩
  | label name => ⟨[], .label name.text⟩
  | unary op e => (e.term ρ).push op
  | group e => Value.written (e.value ρ)
  | _ => ⟨[], .address⟩

theorem Readable.read_flat {tail : Text} (h : e.Readable ρ) (hlevel : 11 ≤ e.level)
    (htail : Stops tail) : Term.read (e.flat ρ ++ tail) = some (e.term ρ, tail) := by
  induction e with
  | literal n =>
    have hname : ∀ c ∈ n.text, isNameChar c = true := fun c => n.isNameChar_of_mem_text
    exact Term.read_of_isNameChar n.text_ne_nil hname (n.read_text htail)
  | label name =>
    have hname : ∀ c ∈ name.text, isNameChar c = true := fun c => name.isNameChar_of_mem_text
    exact Term.read_of_isNameChar name.nonempty hname (name.read_text htail)
  | address => exact Term.read_of_operand rfl rfl (Operand.read_address htail)
  | unary op e ih => exact Term.read_sign op (ih h.2 h.1)
  | binary op l r =>
    have := group_le_nine op.op
    rw [level] at hlevel
    omega
  | group e => exact h.1.read_write htail
  | choice => exact absurd hlevel (by simp [level])

theorem stops_flatMap_link (ρ : Valuation) (ps : List (SpelledOperator × Formula)) :
    Stops (ps.flatMap (link ρ)) := by
  cases ps with
  | nil => exact stops_nil
  | cons p ps => exact stops_cons _

theorem readChain_links {ps : List (SpelledOperator × Formula)}
    (h : ∀ p ∈ ps, 11 ≤ p.2.level ∧ p.2.Readable ρ) :
    readChain (ps.flatMap (link ρ)) = (ps.map fun p => (p.1.op, p.2.term ρ), true) := by
  induction ps with
  | nil => exact readChain_nil
  | cons p ps ih =>
    obtain ⟨⟨hlevel, hp⟩, hps⟩ := List.forall_mem_cons.1 h
    have hread := hp.read_flat hlevel (stops_flatMap_link ρ ps)
    have hlink := readChain_link p.1 hread
    rw [ih hps] at hlink
    rw [List.flatMap_cons, link, List.append_assoc]
    exact hlink

end Formula

/-! ## Working out a chain -/

section environment

variable {σ α β : Type} {holds : σ → Prop}

/-- The computation has the given answer in all states of a kind, and stays among them. -/
def Gives (holds : σ → Prop) (m : EvalM σ α) (a : α) : Prop :=
  ∀ s, holds s → ∃ s', m s = .ok a s' ∧ holds s'

theorem gives_pure (a : α) : Gives holds (pure a) a :=
  fun s hs => ⟨s, rfl, hs⟩

theorem Gives.bind {m : EvalM σ α} {f : α → EvalM σ β} {a : α} {b : β} (hm : Gives holds m a)
    (hf : Gives holds (f a) b) : Gives holds (m >>= f) b := by
  intro s hs
  obtain ⟨s₁, h₁, hs₁⟩ := hm s hs
  obtain ⟨s₂, h₂, hs₂⟩ := hf s₁ hs₁
  refine ⟨s₂, ?_, hs₂⟩
  show EStateM.bind m f s = _
  rw [EStateM.bind, h₁]
  exact h₂

theorem Gives.map {m : EvalM σ α} {a : α} (f : α → β) (hm : Gives holds m a) :
    Gives holds (do return f (← m)) (f a) :=
  hm.bind (gives_pure _)

theorem gives_mapM {γ : Type} {f : γ → EvalM σ α} {g : γ → α} {l : List γ}
    (h : ∀ c ∈ l, Gives holds (f c) (g c)) : Gives holds (l.mapM f) (l.map g) := by
  induction l with
  | nil => exact gives_pure []
  | cons c l ih =>
    obtain ⟨hc, hl⟩ := List.forall_mem_cons.1 h
    rw [List.mapM_cons]
    exact hc.bind ((ih hl).bind (gives_pure _))

/-- The environment answers with the values of a valuation, in all states of a kind. -/
structure Environment.Answers (env : Environment σ) (holds : σ → Prop) (ρ : Valuation) : Prop where
  address : ∀ s, holds s → env.address s = ρ.address
  label : ∀ name value, ρ.label name = some value → Gives holds (env.label name) value

variable {env : Environment σ} {ρ : Valuation} {e : Formula}

theorem evalTerm_push (op : Unary) {t : Term} {x : Float} (h : Gives holds (evalTerm env t) x) :
    Gives holds (evalTerm env (t.push op)) (op.apply x) := by
  have hpush : evalTerm env (t.push op) = (do return op.apply (← evalTerm env t)) := by
    simp [evalTerm, Term.push]
  rw [hpush]
  exact h.map op.apply

theorem Formula.Readable.evalTerm_term (henv : env.Answers holds ρ) (h : e.Readable ρ)
    (hlevel : 11 ≤ e.level) : Gives holds (evalTerm env (e.term ρ)) (e.value ρ) := by
  induction e with
  | literal n => exact gives_pure _
  | label name =>
    obtain ⟨v, hv⟩ := Option.isSome_iff_exists.1 h
    have hvalue : (Formula.label name).value ρ = v := by simp [Formula.value, hv]
    rw [hvalue]
    exact (henv.label _ v hv).bind (gives_pure _)
  | address => exact fun s hs => ⟨s, congrArg (EStateM.Result.ok · s) (henv.address s hs), hs⟩
  | unary op e ih => exact evalTerm_push op (ih h.2 h.1)
  | binary op l r =>
    have := Formula.group_le_nine op.op
    rw [Formula.level] at hlevel
    omega
  | group e =>
    rw [Formula.term, h.1.evalTerm_written]
    exact gives_pure _
  | choice => exact absurd hlevel (by simp [Formula.level])

/-- A formula without a conditional at its root is worked out as a chain. -/
theorem Formula.Readable.evalChain_flat (henv : env.Answers holds ρ) (h : e.Readable ρ)
    (hlevel : 1 ≤ e.level) : Gives holds (evalChain env (e.flat ρ)) (e.value ρ) := by
  obtain ⟨hfirst, hreadable⟩ := h.first hlevel
  have hread := hreadable.read_flat hfirst (stops_flatMap_link ρ e.rest)
  rw [← flat_eq_spine] at hread
  unfold evalChain
  rw [hread]
  refine (hreadable.evalTerm_term henv hfirst).bind ?_
  rw [readChain_links h.rest]
  have hterms : Gives holds ((e.rest.map fun p => (p.1.op, p.2.term ρ)).mapM fun p =>
      return (p.1, ← evalTerm env p.2)) (e.rest.map fun p => (p.1.op, p.2.value ρ)) := by
    rw [List.mapM_map]
    exact gives_mapM fun p hp => ((h.rest p hp).2.evalTerm_term henv (h.rest p hp).1).map _
  refine hterms.bind ?_
  simp only [Bool.not_true, Bool.false_eq_true, if_false, h.reduce_rest]
  exact gives_pure _

end environment

end MacroAssembler
