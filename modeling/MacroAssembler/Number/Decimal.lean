import MacroAssembler.Number.Binary

/-!
# Values as decimal fractions

Two decimal forms of a value are needed.  The *shortest* one has the fewest digits among the
decimals that read back as the same double; it is the text of a value.  The *rounded* one has a
fixed number of significant digits; it is what a decimal floating point number stores.

Both are found by exact arithmetic.  The decimals that read back as a double fill an interval
around it: from halfway to the next smaller double to halfway to the next larger one, ends included
exactly when the significand is even, since ties are read to even.  On the grid of decimals with a
given number of significant digits only the two neighbours of the value need to be tried: if any
grid point lies in the interval, one of them does.
-/

namespace MacroAssembler

/-- The number `digits * 10 ^ exponent`. -/
structure Decimal where
  digits : Nat
  exponent : Int
  deriving DecidableEq, Repr

/-- A positive fraction. -/
structure Ratio where
  num : Nat
  den : Nat

namespace Ratio

/-- The fraction times ten to an integer power. -/
def timesTenPow (r : Ratio) (k : Int) : Ratio :=
  if k < 0 then ⟨r.num, r.den * Nat.pow 10 k.natAbs⟩ else ⟨r.num * Nat.pow 10 k.toNat, r.den⟩

/-- The fraction times two to an integer power. -/
def timesTwoPow (r : Ratio) (k : Int) : Ratio :=
  if k < 0 then ⟨r.num, r.den * Nat.pow 2 k.natAbs⟩ else ⟨r.num * Nat.pow 2 k.toNat, r.den⟩

/-- The largest integer not above. -/
def floor (r : Ratio) : Nat :=
  r.num / r.den

/-- The number of decimal digits in front of the point: the least `k` with the fraction below ten
to the `k`.  It is zero or negative for fractions below one. -/
def scale (r : Ratio) : Int :=
  if r.den ≤ r.num then (Nat.toDigits 10 (r.num / r.den)).length
  else 1 - (Nat.toDigits 10 ((r.den - 1) / r.num)).length

end Ratio

namespace Binary

/-- The number as a fraction. -/
def toRatio (b : Binary) : Ratio :=
  Ratio.timesTwoPow ⟨b.significand, 1⟩ b.exponent

/-- Whether the double below is only half as far away as the double above. -/
def narrowBelow (b : Binary) : Bool :=
  b.significand == Nat.pow 2 52 && b.exponent != -1074

/-- Whether `n * 10 ^ grid` reads back as the double `b`.  The ends of the interval are
`b` less a quarter or half and plus half a unit in the last place, here in quarters of it. -/
def readsBack (b : Binary) (grid : Int) (n : Nat) : Bool :=
  let quarter := Ratio.timesTenPow (Ratio.timesTwoPow ⟨1, 1⟩ (b.exponent - 2)) (-grid)
  let low := (4 * b.significand - (if b.narrowBelow then 1 else 2)) * quarter.num
  let high := (4 * b.significand + 2) * quarter.num
  let n := n * quarter.den
  if b.significand % 2 == 0 then low ≤ n && n ≤ high else low < n && n < high

/-- The neighbour of the value on a decimal grid that reads back as the value, the nearer one if
both do, the upper one on a tie. -/
def onGrid (b : Binary) (grid : Int) : Option Decimal :=
  let r := b.toRatio.timesTenPow (-grid)
  let below := r.floor
  let nearerBelow := 2 * r.num < (2 * below + 1) * r.den
  match b.readsBack grid below, b.readsBack grid (below + 1) with
  | true, true => some ⟨if nearerBelow then below else below + 1, grid⟩
  | true, false => some ⟨below, grid⟩
  | false, true => some ⟨below + 1, grid⟩
  | false, false => none

/-- The decimal with the fewest digits that reads back as the value.  Seventeen digits are always
enough, so the last resort, the grid of all digits, is not met. -/
def shortest (b : Binary) : Decimal :=
  let scale := b.toRatio.scale
  ((List.range 17).findSome? fun (n : Nat) => b.onGrid (scale - (n + 1))).getD
    ⟨(b.toRatio.timesTenPow (1100 : Int)).floor, -1100⟩

/-- The value rounded to `places` significant digits, a half going to the even neighbour. -/
def rounded (b : Binary) (places : Nat) : Decimal :=
  let grid := b.toRatio.scale - places
  let r := b.toRatio.timesTenPow (-grid)
  let below := r.floor
  let twice := 2 * (r.num % r.den)
  let up := r.den < twice || (twice == r.den && below % 2 == 1)
  ⟨if up then below + 1 else below, grid⟩

end Binary

namespace Decimal

/-- The digits without trailing zeros, least digit last, and the number of zeros dropped. -/
def trimmedDigits (n : Nat) : Text × Nat :=
  let digits := (Nat.toDigits 10 n).reverse
  ((digits.dropWhile (· == '0')).reverse, (digits.takeWhile (· == '0')).length)

/-- The number written out in full, without an exponent and without superfluous zeros. -/
def positional (d : Decimal) : Text :=
  let (digits, dropped) := trimmedDigits d.digits
  let exponent := d.exponent + dropped
  if 0 ≤ exponent then digits ++ List.replicate exponent.toNat '0'
  else
    let places := exponent.natAbs
    if places < digits.length then
      digits.take (digits.length - places) ++ '.' :: digits.drop (digits.length - places)
    else "0.".toList ++ List.replicate (places - digits.length) '0' ++ digits

end Decimal

namespace Value

/-- The text of a value: the fewest digits that read back, written out in full. -/
def toText (x : Float) : Text :=
  if x.isNaN then "NaN".toList
  else
    let sign := if isNegative x then ['-'] else []
    let body :=
      if !isFinite x then "inf".toList
      else if (magnitude x).significand == 0 then ['0']
      else (magnitude x).shortest.positional
    sign ++ body

end Value

end MacroAssembler
