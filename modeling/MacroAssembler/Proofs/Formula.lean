import MacroAssembler.Expr.Evaluate

/-!
# Expressions as trees

The evaluator knows expressions as texts only.  A `Formula` is what such a text stands for: a tree
of literals, labels, the current address, operators, brackets and conditionals.  It has a meaning of
its own, worked out from the leaves upward, and it can be printed.

A printed formula has brackets exactly where the tree would be lost without them: around a
conditional that is an operand or a condition, and around an operator that binds less tightly than
its place asks for, where the right operand of a binary operator has to bind more tightly than the
operator itself.  Brackets of the tree are printed as well, so a formula may have more of them than
it needs.
-/

namespace MacroAssembler

/-! ## The leaves -/

/-- The digits of a text, without the underscores that group them. -/
def decimalDigits (text : Text) : Text :=
  text.filter Char.isDigit

/-- The number that decimal digits spell. -/
def decimalNumber (digits : Text) : Nat :=
  digits.foldl (fun n c => 10 * n + (c.toNat - 48)) 0

/-- A decimal literal: digits, perhaps a point and more digits, and perhaps the letter that says
that the base is ten. -/
structure DecimalLiteral where
  whole : Text
  fraction : Option Text
  suffix : Text
  grouped : (whole ++ fraction.getD []).all (fun c => c.isDigit || c == '_') = true := by decide
  /-- There is a digit in front, or right behind the point if nothing is in front of it. -/
  starts : (whole ++ fraction.getD []).head?.any Char.isDigit = true := by decide
  suffix_mem : suffix ∈ [[], ['d'], ['D']] := by decide

namespace DecimalLiteral

variable (n : DecimalLiteral)

def text : Text :=
  n.whole ++ (n.fraction.map ('.' :: ·)).getD [] ++ n.suffix

/-- The double next to the number that is written. -/
def value : Float :=
  Float.ofScientific (decimalNumber (decimalDigits (n.whole ++ n.fraction.getD []))) true
    (decimalDigits (n.fraction.getD [])).length

end DecimalLiteral

/-- Whether a text of characters of names starts like a numeral. -/
def startsNumeral : Text → Bool
  | [] => false
  | c :: rest => c.isDigit || (c == '.' && rest.head?.any Char.isDigit)

/-- The name of a label, as an expression can write it. -/
structure LabelName where
  text : Text
  nonempty : text ≠ [] := by decide
  chars : text.all isNameChar = true := by decide
  word : startsNumeral text = false := by decide

/-- A binary operator in one of its spellings. -/
structure SpelledOperator where
  spelling : Text
  op : Operator
  listed : (spelling, op) ∈ Operator.spellings := by decide

/-- How a unary operator is written. -/
def Unary.sign : Unary → Char
  | .neg => '-'
  | .plus => '+'
  | .complement => '~'
  | .not => '!'

/-! ## Formulas -/

/-- An expression as a tree. -/
inductive Formula where
  | literal (n : DecimalLiteral)
  | label (name : LabelName)
  /-- The current address. -/
  | address
  | unary (op : Unary) (e : Formula)
  | binary (op : SpelledOperator) (l r : Formula)
  /-- A formula in brackets. -/
  | group (e : Formula)
  /-- A conditional. -/
  | choice (c y n : Formula)

/-- What the names of a formula stand for. -/
structure Valuation where
  label : Text → Option Float
  address : Float

namespace Formula

/-- The value of a formula.  All parts are worked out, also the branch of a conditional that is not
taken; a formula has no value if one of them has none. -/
def meaning (ρ : Valuation) : Formula → Option Float
  | literal n => some n.value
  | label name => ρ.label name.text
  | address => some ρ.address
  | unary op e => (e.meaning ρ).map op.apply
  | binary op l r => do
    let x ← l.meaning ρ
    let y ← r.meaning ρ
    (op.op.apply x y).toOption
  | group e => e.meaning ρ
  | choice c y n => do
    let x ← c.meaning ρ
    let a ← y.meaning ρ
    let b ← n.meaning ρ
    return if x != 0 then a else b

/-- How tightly the outermost part of a formula binds: a conditional least of all, then the ten
groups of binary operators, and everything else most tightly. -/
def level : Formula → Nat
  | choice _ _ _ => 0
  | binary op _ _ => op.op.group + 1
  | _ => 11

/-- The text of a formula with the brackets that it has. -/
def text : Formula → Text
  | literal n => n.text
  | label name => name.text
  | address => ['$']
  | unary op e => op.sign :: e.text
  | binary op l r => l.text ++ ' ' :: op.spelling ++ ' ' :: r.text
  | group e => '(' :: e.text ++ [')']
  | choice c y n => c.text ++ ' ' :: '?' :: ' ' :: y.text ++ ' ' :: ':' :: ' ' :: n.text

/-- The formula in brackets, unless it binds tightly enough. -/
def atLeast (least : Nat) (e : Formula) : Formula :=
  if e.level < least then group e else e

/-- The formula with the brackets that its text needs. -/
def bracketed : Formula → Formula
  | unary op e => unary op (e.bracketed.atLeast 11)
  | binary op l r =>
    binary op (l.bracketed.atLeast (op.op.group + 1)) (r.bracketed.atLeast (op.op.group + 2))
  | group e => group e.bracketed
  | choice c y n => choice (c.bracketed.atLeast 1) y.bracketed n.bracketed
  | e => e

/-- The printed form of a formula. -/
def print (e : Formula) : Text :=
  e.bracketed.text

/-- What stands in brackets in a formula, at any depth. -/
def groups : Formula → List Formula
  | unary _ e => e.groups
  | binary _ l r => l.groups ++ r.groups
  | group e => e :: e.groups
  | choice c y n => c.groups ++ y.groups ++ n.groups
  | _ => []

/-- How deep conditionals nest in a formula. -/
def depth : Formula → Nat
  | unary _ e => e.depth
  | binary _ l r => max l.depth r.depth
  | group e => e.depth
  | choice c y n => max c.depth (max y.depth n.depth) + 1
  | _ => 0

/-! ## Brackets -/

/-- The brackets of a formula are enough for its text. -/
def WellBracketed : Formula → Prop
  | unary _ e => 11 ≤ e.level ∧ e.WellBracketed
  | binary op l r => op.op.group + 1 ≤ l.level ∧ op.op.group + 2 ≤ r.level ∧
      l.WellBracketed ∧ r.WellBracketed
  | group e => e.WellBracketed
  | choice c y n => 1 ≤ c.level ∧ c.WellBracketed ∧ y.WellBracketed ∧ n.WellBracketed
  | _ => True

theorem group_le_nine (op : Operator) : op.group ≤ 9 := by
  cases op <;> decide

section atLeast

variable {least : Nat} {e : Formula}

theorem le_level_atLeast (h : least ≤ 11) : least ≤ (e.atLeast least).level := by
  unfold atLeast
  split
  · exact h
  · omega

theorem wellBracketed_atLeast (he : e.WellBracketed) : (e.atLeast least).WellBracketed := by
  unfold atLeast
  split <;> exact he

theorem meaning_atLeast (ρ : Valuation) : (e.atLeast least).meaning ρ = e.meaning ρ := by
  unfold atLeast
  split <;> rfl

theorem depth_atLeast : (e.atLeast least).depth = e.depth := by
  unfold atLeast
  split <;> rfl

end atLeast

theorem wellBracketed_bracketed (e : Formula) : e.bracketed.WellBracketed := by
  induction e with
  | literal | label | address => trivial
  | unary op e ih => exact ⟨le_level_atLeast (Nat.le_refl 11), wellBracketed_atLeast ih⟩
  | binary op l r ihl ihr =>
    have := group_le_nine op.op
    exact ⟨le_level_atLeast (by omega), le_level_atLeast (by omega), wellBracketed_atLeast ihl,
      wellBracketed_atLeast ihr⟩
  | group e ih => exact ih
  | choice c y n ihc ihy ihn =>
    exact ⟨le_level_atLeast (by decide), wellBracketed_atLeast ihc, ihy, ihn⟩

/-- Brackets do not change the meaning. -/
theorem meaning_bracketed (ρ : Valuation) (e : Formula) : e.bracketed.meaning ρ = e.meaning ρ := by
  induction e with
  | literal | label | address => rfl
  | unary op e ih => simp only [bracketed, meaning, meaning_atLeast, ih]
  | binary op l r ihl ihr => simp only [bracketed, meaning, meaning_atLeast, ihl, ihr]
  | group e ih => exact ih
  | choice c y n ihc ihy ihn => simp only [bracketed, meaning, meaning_atLeast, ihc, ihy, ihn]

theorem depth_bracketed (e : Formula) : e.bracketed.depth = e.depth := by
  induction e with
  | literal | label | address => rfl
  | unary op e ih => simp only [bracketed, depth, depth_atLeast, ih]
  | binary op l r ihl ihr => simp only [bracketed, depth, depth_atLeast, ihl, ihr]
  | group e ih => exact ih
  | choice c y n ihc ihy ihn => simp only [bracketed, depth, depth_atLeast, ihc, ihy, ihn]

end Formula

end MacroAssembler
