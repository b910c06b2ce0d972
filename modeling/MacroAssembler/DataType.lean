import MacroAssembler.Number.Numeral

/-!
# Data types

The types of variables, struct members and casts.  An integer type is a number of bytes, a fixed
point type a number of bits on either side of the point.  The `float` type is a decimal number of
nine bytes: a sign byte, an exponent byte and seven bytes of two digits each.

A cast saturates at the ends of a type's range.  A range check is laxer than a cast: an integer of
some width may be written as a signed or as an unsigned number of that width.
-/

namespace MacroAssembler

/-- The type of a variable, a struct member or a cast. -/
inductive DataType where
  | int (bytes : Nat) (signed : Bool)
  | fixed (intBits fracBits : Nat) (signed : Bool)
  | float
  | char
  | struct (name : Text)
  deriving DecidableEq, Repr

namespace DataType

/-! ## Names -/

/-- The types with a name of their own, in lower case. -/
def named : List (Text × DataType) :=
  [("byte".toList, .int 1 false), ("sbyte".toList, .int 1 true),
   ("word".toList, .int 2 false), ("sword".toList, .int 2 true),
   ("uint24".toList, .int 3 false), ("int24".toList, .int 3 true),
   ("dword".toList, .int 4 false), ("sdword".toList, .int 4 true),
   ("char".toList, .char), ("float".toList, .float), ("tifloat".toList, .float)]

/-- A fixed point type written as the two bit counts with a point between: at least one bit and
at most 32 in all. -/
def ofBitCounts (signed : Bool) (text : Text) : Option DataType := do
  let (whole, fraction) ← Text.splitAtFirst '.' text
  let intBits ← readUnsigned 10 256 whole
  let fracBits ← readUnsigned 10 256 fraction
  if intBits + fracBits = 0 ∨ 32 < intBits + fracBits then none
  else some (.fixed intBits fracBits signed)

/-- The built-in type of a name, ignoring case. -/
def builtin (name : Text) : Option DataType :=
  let name := Text.asciiLower name
  match named.lookup name with
  | some ty => some ty
  | none =>
    match Text.after? "ufixed".toList name with
    | some counts => ofBitCounts false counts
    | none => (Text.after? "fixed".toList name).bind (ofBitCounts true)

/-- The name of a type. -/
def name : DataType → Text
  | .int 1 false => "byte".toList
  | .int 1 true => "sbyte".toList
  | .int 2 false => "word".toList
  | .int 2 true => "sword".toList
  | .int 3 false => "uint24".toList
  | .int 3 true => "int24".toList
  | .int 4 false => "dword".toList
  | .int 4 true => "sdword".toList
  | .int bytes signed =>
    "int".toList ++ Nat.toDigits 10 (8 * bytes) ++ (if signed then [] else ['u'])
  | .fixed intBits fracBits signed =>
    (if signed then "fixed".toList else "ufixed".toList) ++
      Nat.toDigits 10 intBits ++ '.' :: Nat.toDigits 10 fracBits
  | .float => "float".toList
  | .char => "char".toList
  | .struct name => name

/-- Size in bytes; a struct has none of its own. -/
def size : DataType → Option Nat
  | .int bytes _ => some bytes
  | .fixed intBits fracBits _ => some ((intBits + fracBits + 7) / 8)
  | .float => some 9
  | .char => some 1
  | .struct _ => none

/-! ## Ranges and casts -/

/-- The smallest and the largest integer of a number of bits. -/
def bitRange (bits : Nat) (signed : Bool) : Float × Float :=
  if signed then
    let half := Value.powerOfTwo (bits - 1)
    (-half, half - 1)
  else (0, Value.powerOfTwo bits - 1)

/-- The value moved to the nearer end of a range it lies outside of. -/
def clamp (range : Float × Float) (x : Float) : Float :=
  if x < range.1 then range.1 else if range.2 < x then range.2 else x

/-- Whether a value lies in a range, ends included. -/
def inRange (range : Float × Float) (x : Float) : Bool :=
  range.1 ≤ x && x ≤ range.2

/-- The value as the nearest one toward zero that the type can hold. -/
def cast (ty : DataType) (x : Float) : Float :=
  match ty with
  | .int bytes signed => clamp (bitRange (8 * bytes) signed) (Value.trunc x)
  | .fixed intBits fracBits signed =>
    let scale := Value.powerOfTwo fracBits
    clamp (bitRange (intBits + fracBits) signed) (Value.trunc (x * scale)) / scale
  | .char => clamp (0, 255) (Value.trunc x)
  | .float | .struct _ => x

/-- Whether the value can be stored without losing its integer part.  An integer may be meant as
a signed or as an unsigned number. -/
def fits (ty : DataType) (x : Float) : Bool :=
  match ty with
  | .int bytes _ =>
    inRange ((bitRange (8 * bytes) true).1, (bitRange (8 * bytes) false).2) (Value.trunc x)
  | .fixed intBits fracBits signed =>
    inRange (bitRange (intBits + fracBits) signed) (Value.trunc (x * Value.powerOfTwo fracBits))
  | .char => inRange (0, 255) (Value.trunc x)
  | .float | .struct _ => true

/-! ## Stored bytes -/

/-- Two decimal digits to a byte. -/
def packDigits : List Nat → List UInt8
  | high :: low :: rest => UInt8.ofNat (16 * high + low) :: packDigits rest
  | [high] => [UInt8.ofNat (16 * high)]
  | [] => []

/-- The nine bytes of a decimal floating point number with fourteen digits.  The exponent byte
counts from 128; zero and values that are not finite have no digits. -/
def decimalFloat (x : Float) : List UInt8 :=
  if x == 0 || !Value.isFinite x then 0 :: 0x80 :: List.replicate 7 0
  else
    let d := (Value.magnitude x).rounded 14
    let digits := Nat.toDigits 10 d.digits
    let exponent : Int := d.exponent + digits.length - 1
    let sign : UInt8 := if Value.isNegative x then 0x80 else 0
    sign :: lowByte (0x80 + max (-128) (min 127 exponent)) ::
      (packDigits ((digits.take 14).map fun c => c.toNat - 48))

/-- The bytes of a value, least first; a struct has none. -/
def bytes (ty : DataType) (x : Float) : Option (List UInt8) :=
  match ty with
  | .int width _ => some (leBytes (Value.toWord x) width)
  | .fixed intBits fracBits _ =>
    some (leBytes (Value.toWord (Value.round (x * Value.powerOfTwo fracBits)))
      ((intBits + fracBits + 7) / 8))
  | .char => some [lowByte (Value.toWord x)]
  | .float => some (decimalFloat x)
  | .struct _ => none

end DataType

end MacroAssembler
