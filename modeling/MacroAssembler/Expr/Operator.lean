import MacroAssembler.Expr.Error

/-!
# Operators

Binary operators fall into ten groups by how tightly they bind, and all of them associate to the
left.  Comparisons and the logical operators give one or zero.  The bitwise operators and the
shifts work on the operands as signed 64-bit integers.

A chain of operands and operators is worked out by splitting it at its *last* operator of the
loosest group and working out both sides.  Splitting at the last one is what makes a group
associate to the left.
-/

namespace MacroAssembler

/-- A binary operator. -/
inductive Operator where
  | or | and | bitOr | bitXor | bitAnd | eq | ne | lt | le | gt | ge | shl | shr
  | add | sub | mul | div | rem
  deriving DecidableEq, Repr

namespace Operator

/-- How an operator is written.  A spelling that starts with another one stands in front of it. -/
def spellings : List (Text × Operator) :=
  [("||".toList, .or), ("&&".toList, .and), ("==".toList, .eq), ("!=".toList, .ne),
   ("<>".toList, .ne), ("<=".toList, .le), (">=".toList, .ge), ("<<".toList, .shl),
   (">>".toList, .shr), ("|".toList, .bitOr), ("^".toList, .bitXor), ("&".toList, .bitAnd),
   ("=".toList, .eq), ("<".toList, .lt), (">".toList, .gt), ("+".toList, .add),
   ("-".toList, .sub), ("*".toList, .mul), ("/".toList, .div), ("%".toList, .rem)]

/-- The operator at the start of a text, and the text behind it. -/
def read (text : Text) : Option (Operator × Text) :=
  spellings.findSome? fun (spelling, op) => (Text.after? spelling text).map fun rest => (op, rest)

/-- How tightly an operator binds; the loosest group is zero. -/
def group : Operator → Nat
  | .or => 0
  | .and => 1
  | .bitOr => 2
  | .bitXor => 3
  | .bitAnd => 4
  | .eq | .ne => 5
  | .lt | .le | .gt | .ge => 6
  | .shl | .shr => 7
  | .add | .sub => 8
  | .mul | .div | .rem => 9

/-- A bitwise operation on signed 64-bit integers. -/
def bitwise (f : BitVec 64 → BitVec 64 → BitVec 64) (x y : Float) : Float :=
  Value.ofInt (f (BitVec.ofInt 64 (Value.toWord x)) (BitVec.ofInt 64 (Value.toWord y))).toInt

/-- The distance of a shift: between zero and the whole width of a word. -/
def shiftDistance (x : Float) : Nat :=
  min (Value.toWord x).toNat 64

/-- The result of an operator. -/
def apply (op : Operator) (x y : Float) : Except ExprError Float :=
  match op with
  | .or => .ok (Value.ofTruth (x != 0 || y != 0))
  | .and => .ok (Value.ofTruth (x != 0 && y != 0))
  | .bitOr => .ok (bitwise (· ||| ·) x y)
  | .bitXor => .ok (bitwise (· ^^^ ·) x y)
  | .bitAnd => .ok (bitwise (· &&& ·) x y)
  | .eq => .ok (Value.ofTruth (x == y))
  | .ne => .ok (Value.ofTruth (x != y))
  | .lt => .ok (Value.ofTruth (x < y))
  | .le => .ok (Value.ofTruth (x ≤ y))
  | .gt => .ok (Value.ofTruth (y < x))
  | .ge => .ok (Value.ofTruth (y ≤ x))
  | .shl => .ok (Value.ofInt ((Value.toWord x * Int.pow 2 (shiftDistance y)).bmod (Nat.pow 2 64)))
  | .shr => .ok (Value.ofInt (Value.toWord x / Int.pow 2 (shiftDistance y)))
  | .add => .ok (x + y)
  | .sub => .ok (x - y)
  | .mul => .ok (x * y)
  | .div => if y == 0 then .error .divideByZero else .ok (x / y)
  | .rem => if y == 0 then .error .divideByZero else .ok (Value.mod x y)

end Operator

/-- A unary operator. -/
inductive Unary where
  | neg | plus | complement | not
  deriving DecidableEq, Repr

namespace Unary

/-- The operator a character stands for in front of an operand. -/
def ofChar (c : Char) : Option Unary :=
  if c == '-' || c == Numeral.negativeMark then some .neg
  else if c == '+' then some .plus
  else if c == '~' then some .complement
  else if c == '!' then some .not
  else none

/-- The result of an operator. -/
def apply : Unary → Float → Float
  | .neg, x => -x
  | .plus, x => x
  | .complement, x => Value.ofInt (-Value.toWord x - 1)
  | .not, x => Value.ofTruth (x == 0)

end Unary

/-! ## Chains -/

/-- Splits the operators and operands after the first one at the last operator of the loosest
group: what stands in front of it, the operator, the operand after it, and the rest. -/
def splitLoosest {α : Type} : List (Operator × α) →
    Option (List (Operator × α) × Operator × α × List (Operator × α))
  | [] => none
  | (op, x) :: rest =>
    match splitLoosest rest with
    | some (front, op', y, back) =>
      if op'.group ≤ op.group then some ((op, x) :: front, op', y, back)
      else some ([], op, x, rest)
    | none => some ([], op, x, rest)

theorem length_splitLoosest {α : Type} {chain front back : List (Operator × α)} {op : Operator}
    {x : α} (h : splitLoosest chain = some (front, op, x, back)) :
    chain.length = front.length + 1 + back.length := by
  fun_induction splitLoosest chain generalizing front op x back with
  | case1 => cases h
  | case2 op' y rest front' op'' z back' hrest hle ih =>
    cases h
    have := ih hrest
    simp only [List.length_cons]
    omega
  | case3 op' y rest front' op'' z back' hrest hle ih =>
    cases h
    simp [Nat.add_comm]
  | case4 op' y rest hrest ih =>
    cases h
    simp [Nat.add_comm]

/-- The value of a chain: its first operand, then operators each with the operand after it. -/
def reduce (first : Float) (chain : List (Operator × Float)) : Except ExprError Float :=
  match _h : splitLoosest chain with
  | none => .ok first
  | some (front, op, x, back) => do
    let lhs ← reduce first front
    let rhs ← reduce x back
    op.apply lhs rhs
termination_by chain.length
decreasing_by
  all_goals
    have := length_splitLoosest _h
    omega

end MacroAssembler
