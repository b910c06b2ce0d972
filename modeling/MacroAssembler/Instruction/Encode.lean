import MacroAssembler.Instruction.Row

/-!
# Machine code

The bytes of an instruction with its operands worked out.  Operands are signed 64-bit integers.  A
number that goes into some bytes may be meant as signed or as unsigned, so the numbers from the
least signed to the greatest unsigned one are accepted, and others are refused.
-/

namespace MacroAssembler

/-- Operands that an instruction can not hold. -/
inductive EncodeError where
  | outOfRange (value min max : Int)
  | branchRange (offset : Int)
  | bitIndex (bit : Int)
  | arguments (expected found : Nat)
  deriving DecidableEq, Repr

/-- The text shown for operands that do not fit. -/
def EncodeError.message : EncodeError → String
  | .outOfRange value min max => s!"value {value} out of range ({min} to {max})"
  | .branchRange offset => s!"relative jump out of range ({offset})"
  | .bitIndex bit => s!"bit index {bit} out of range (0 to 7)"
  | .arguments expected found => s!"expected {expected} operand(s), found {found}"

namespace Instruction

/-- The numbers accepted for a place of some bytes. -/
def placeRange (bytes : Nat) : Int × Int :=
  if 8 ≤ bytes then (Value.minWord, Value.maxWord)
  else (-Int.pow 2 (8 * bytes - 1), Int.pow 2 (8 * bytes) - 1)

/-- The bytes of a number in a place of some bytes. -/
def fit (value : Int) (bytes : Nat) : Except EncodeError (List UInt8) :=
  let (min, max) := placeRange bytes
  if min ≤ value ∧ value ≤ max then .ok (leBytes value bytes)
  else .error (.outOfRange value min max)

/-- The operand after the shift and the mask, as a signed 64-bit integer. -/
def shiftedOperand (ins : Instruction) (arg : Int) : Int :=
  let shifted := if ins.shift < 64 then (arg * Int.pow 2 ins.shift).bmod (Nat.pow 2 64) else 0
  (BitVec.ofInt 64 shifted ||| BitVec.ofNat 64 ins.mask).toInt

/-- The two low bytes exchanged, and the rest dropped. -/
def swapBytes (n : Int) : Int :=
  n % 256 * 256 + n / 256 % 256

/-- The number of bytes behind the opcode. -/
def trailing (ins : Instruction) : Nat :=
  ins.size - ins.opcode.length

/-- The opcode with bits set in its last byte. -/
def mergeLast (opcode : List UInt8) (bits : UInt8) : List UInt8 :=
  match opcode.getLast? with
  | some last => opcode.dropLast ++ [last ||| bits]
  | none => []

/-- Machine code with a plain operand. -/
def encodePlain (ins : Instruction) (value : Int) : Except EncodeError (List UInt8) :=
  if ins.trailing = 0 then
    if ins.opcode.isEmpty then .ok []
    else do
      let bits ← fit value 1
      return mergeLast ins.opcode (bits.headD 0)
  else return ins.opcode ++ (← fit value ins.trailing)

/-- Machine code with the distance from the end of the instruction to a target. -/
def encodeRelative (ins : Instruction) (bytes : Nat) (target address : Int) :
    Except EncodeError (List UInt8) :=
  let offset := target - (address + ins.size)
  let half := Int.pow 2 (8 * bytes - 1)
  if -half ≤ offset ∧ offset < half then .ok (ins.opcode ++ leBytes offset bytes)
  else .error (.branchRange offset)

/-- Machine code with a displacement, and possibly a byte.  In forms of four bytes with an opcode
of three the displacement stands in front of the last opcode byte. -/
def encodeIndexed (ins : Instruction) : List Int → Except EncodeError (List UInt8)
  | [displacement, value] =>
    return ins.opcode ++ (← fit displacement 1) ++ (← fit value 1)
  | [displacement] =>
    if ins.opcode.length = 3 ∧ ins.size = 4 then
      return ins.opcode.dropLast ++ (← fit displacement 1) ++ ins.opcode.getLast?.toList
    else return ins.opcode ++ (← fit displacement (max ins.trailing 1))
  | _ => .ok ins.opcode

/-- Machine code with a bit number in bits 3 to 5 of the last opcode byte, and possibly a
displacement in front of that byte. -/
def encodeBit (ins : Instruction) (bit : Int) (more : List Int) :
    Except EncodeError (List UInt8) :=
  if 0 ≤ bit ∧ bit ≤ 7 then do
    let last := ins.opcode.getLast?.getD 0
    let displacement ←
      match more with
      | d :: _ => fit d 1
      | [] => pure []
    return ins.opcode.dropLast ++ displacement ++ [last ||| lowByte (8 * bit)]
  else .error (.bitIndex bit)

/-- Machine code of an instruction at an address. -/
def encode (ins : Instruction) (args : List Int) (address : Int) :
    Except EncodeError (List UInt8) :=
  if args.length ≠ ins.arity then .error (.arguments ins.arity args.length)
  else match ins.encoding, args with
    | .plain, [] | .swapped, [] => .ok ins.opcode
    | .plain, arg :: _ => ins.encodePlain (ins.shiftedOperand arg)
    | .swapped, arg :: _ => ins.encodePlain (swapBytes (ins.shiftedOperand arg))
    | .indexed, args => ins.encodeIndexed args
    | _, [] => .error (.arguments 1 0)
    | .relative8, target :: _ => ins.encodeRelative 1 target address
    | .relative16, target :: _ => ins.encodeRelative 2 target address
    | .bit, bit :: more => ins.encodeBit bit more
    | .restart, vector :: _ => fit ((ins.opcode.headD 0).toNat + vector) 1

end Instruction

end MacroAssembler
