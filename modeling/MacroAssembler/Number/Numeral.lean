import MacroAssembler.Number.Decimal

/-!
# Numerals

A numeral is read in one of four bases.  A mark in front (`$` hexadecimal, `%` binary, `@` octal)
or a letter behind (`h`, `b`, `o` or `q`, `d`) tells which; without either it is decimal and may
have a fraction.  Underscores group digits and mean nothing.  Numerals in a base other than ten
are integers of at most 64 bits.

A value is written so that the expression reader takes it back as one operand: the sign of a
negative value is `¬`, which is never a subtraction.
-/

namespace MacroAssembler

/-- The value of a digit in a base up to sixteen. -/
def digitValue (base : Nat) (c : Char) : Option Nat :=
  let value :=
    if c.isDigit then some (c.toNat - 48)
    else if 97 ≤ c.toLower.toNat ∧ c.toLower.toNat ≤ 102 then some (c.toLower.toNat - 87)
    else none
  value.filter (· < base)

/-- The number spelled by digits of a base. -/
def digitsValue (base : Nat) (digits : Text) : Option Nat :=
  digits.foldlM (fun n c => (digitValue base c).map (base * n + ·)) 0

/-- An unsigned integer below `bound`: digits of a base after an optional plus sign. -/
def readUnsigned (base bound : Nat) (text : Text) : Option Nat :=
  let digits := (Text.after? ['+'] text).getD text
  if digits.isEmpty then none else (digitsValue base digits).filter (· < bound)

/-- A signed 64-bit integer in decimal, with an optional sign. -/
def readSigned (text : Text) : Option Int :=
  match text with
  | '-' :: digits =>
    if digits.isEmpty then none
    else ((digitsValue 10 digits).filter (· ≤ Nat.pow 2 63)).map fun n => -(n : Int)
  | _ => (readUnsigned 10 (Nat.pow 2 63) text).map Int.ofNat

namespace Numeral

/-- The digits without the underscores that group them. -/
def ungrouped (text : Text) : Text :=
  text.filter (· != '_')

/-- The value of an integer of at most 64 bits in some base. -/
def ofBase (base : Nat) (text : Text) : Option Float :=
  (readUnsigned base (Nat.pow 2 64) (ungrouped text)).map Float.ofNat

/-- The value of a decimal numeral with at most one point. -/
def ofDecimal (text : Text) : Option Float :=
  let text := ungrouped text
  let (whole, fraction) := (Text.splitAtFirst '.' text).getD (text, [])
  let digits := whole ++ fraction
  if digits.isEmpty then none
  else (digitsValue 10 digits).map fun n => Float.ofScientific n true fraction.length

/-- The value of a numeral. -/
def read (text : Text) : Option Float :=
  match text with
  | [] => none
  | '$' :: digits => ofBase 16 digits
  | '%' :: digits => ofBase 2 digits
  | '@' :: digits => ofBase 8 digits
  | c :: _ =>
    if c.isDigit then
      let body := text.dropLast
      match text.getLast?.map Char.toLower with
      | some 'h' => ofBase 16 body
      | some 'b' =>
        if body.all (fun d => d == '0' || d == '1' || d == '_') then ofBase 2 body
        else ofDecimal text
      | some 'o' | some 'q' => ofBase 8 body
      | some 'd' => ofDecimal body
      | _ => ofDecimal text
    else none

/-- The mark of a negative value. -/
def negativeMark : Char := '¬'

/-- The text of a value inside of an expression. -/
def write (x : Float) : Text :=
  if x < 0 then negativeMark :: Value.toText (-x) else Value.toText x

end Numeral

end MacroAssembler
