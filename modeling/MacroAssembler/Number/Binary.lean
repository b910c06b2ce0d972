import MacroAssembler.Text.Basic

/-!
# Values as binary fractions

Every value of the assembler is a double.  Rounding to an integer, remainders, conversion to
machine words and the decimal text of a value are all questions about the exact number a double
stands for, so they are answered in integer arithmetic on its significand and exponent.

A finite double is `significand * 2 ^ exponent` up to its sign.
-/

namespace MacroAssembler

/-- The number `significand * 2 ^ exponent`. -/
structure Binary where
  significand : Nat
  exponent : Int
  deriving DecidableEq, Repr

namespace Value

/-- The biased exponent field of a double. -/
def exponentField (x : Float) : Nat :=
  x.toBits.toNat / Nat.pow 2 52 % 2048

/-- The sign bit. -/
def isNegative (x : Float) : Bool :=
  Nat.pow 2 63 ≤ x.toBits.toNat

/-- Neither infinite nor undefined. -/
def isFinite (x : Float) : Bool :=
  exponentField x != 2047

/-- The magnitude of a finite double. -/
def magnitude (x : Float) : Binary :=
  let fraction := x.toBits.toNat % Nat.pow 2 52
  match exponentField x with
  | 0 => ⟨fraction, -1074⟩
  | field => ⟨Nat.pow 2 52 + fraction, field - 1075⟩

/-- The power of two with the given exponent, for exponents a double can have. -/
def powerOfTwo (exponent : Int) : Float :=
  if exponent < -1074 then 0
  else if exponent < -1022 then Float.ofBits (Nat.pow 2 (exponent + 1074).toNat).toUInt64
  else if exponent ≤ 1023 then Float.ofBits ((exponent + 1023).toNat * Nat.pow 2 52).toUInt64
  else Float.ofBits (2047 * Nat.pow 2 52).toUInt64

/-- The double with the given sign and magnitude, for magnitudes a double can have. -/
def ofMagnitude (negative : Bool) (b : Binary) : Float :=
  let x := Float.ofNat b.significand * powerOfTwo b.exponent
  if negative then -x else x

end Value

namespace Binary

/-- The largest integer not above. -/
def floor (b : Binary) : Nat :=
  if b.exponent < 0 then b.significand / Nat.pow 2 b.exponent.natAbs
  else b.significand * Nat.pow 2 b.exponent.toNat

/-- Whether the number is an integer. -/
def isWhole (b : Binary) : Bool :=
  0 ≤ b.exponent || b.significand % Nat.pow 2 b.exponent.natAbs == 0

/-- The nearest integer, a half going up. -/
def roundHalfUp (b : Binary) : Nat :=
  if b.exponent < 0 then
    (2 * b.significand + Nat.pow 2 b.exponent.natAbs) / Nat.pow 2 (b.exponent.natAbs + 1)
  else b.significand * Nat.pow 2 b.exponent.toNat

/-- The remainder of the division by a number that is not zero. -/
def mod (a b : Binary) : Binary :=
  let exponent := min a.exponent b.exponent
  let scaled (c : Binary) := c.significand * Nat.pow 2 (c.exponent - exponent).toNat
  ⟨scaled a % scaled b, exponent⟩

end Binary

namespace Value

/-- The value with its magnitude replaced by an integer; values that are whole already, infinite
or undefined stay. -/
def mapWhole (x : Float) (f : Binary → Nat) : Float :=
  if isFinite x && !(magnitude x).isWhole then
    let n := Float.ofNat (f (magnitude x))
    if isNegative x then -n else n
  else x

/-- Rounded toward zero. -/
def trunc (x : Float) : Float :=
  mapWhole x Binary.floor

/-- Rounded down. -/
def floor (x : Float) : Float :=
  mapWhole x fun b => if isNegative x then b.floor + 1 else b.floor

/-- Rounded up. -/
def ceil (x : Float) : Float :=
  mapWhole x fun b => if isNegative x then b.floor else b.floor + 1

/-- Rounded to the nearest integer, a half going away from zero. -/
def round (x : Float) : Float :=
  mapWhole x Binary.roundHalfUp

/-- Whether the value is an integer. -/
def isWhole (x : Float) : Bool :=
  isFinite x && (magnitude x).isWhole

/-- The remainder of the division rounded toward zero; it has the sign of the dividend. -/
def mod (x y : Float) : Float :=
  if x.isNaN || y.isNaN || !isFinite x || y == 0 then Float.ofBits 0x7FF8000000000000
  else if !isFinite y then x
  else ofMagnitude (isNegative x) ((magnitude x).mod (magnitude y))

/-- The smallest signed 64-bit integer. -/
def minWord : Int := -Int.pow 2 63

/-- The largest signed 64-bit integer. -/
def maxWord : Int := Int.pow 2 63 - 1

/-- The value rounded toward zero as a signed 64-bit integer.  Values beyond the range give its
nearest end, an undefined value gives zero. -/
def toWord (x : Float) : Int :=
  if x.isNaN then 0
  else if !isFinite x then if isNegative x then minWord else maxWord
  else
    let n : Int := (magnitude x).floor
    max minWord (min maxWord (if isNegative x then -n else n))

/-- One for true and zero for false. -/
def ofTruth (b : Bool) : Float :=
  if b then 1 else 0

/-- The integer as a value, rounded to the nearest double. -/
def ofInt (n : Int) : Float :=
  Float.ofInt n

end Value

/-- The low `count` bytes of the two's complement form of a 64-bit integer, least first.  There
are never more than eight. -/
def leBytes (n : Int) (count : Nat) : List UInt8 :=
  (List.range (min count 8)).map fun i => UInt8.ofNat (n / Int.pow 2 (8 * i) % 256).toNat

/-- The low byte of the two's complement form of an integer. -/
def lowByte (n : Int) : UInt8 :=
  UInt8.ofNat (n % 256).toNat

end MacroAssembler
