import MacroAssembler.Number.Binary

/-!
# Rows of the instruction table

A row describes one form of an instruction: the pattern its operands match, the opcode bytes, the
size, and the rule by which the operands enter the machine code.
-/

namespace MacroAssembler

/-- How the operands of an instruction enter its machine code. -/
inductive Encoding where
  /-- The operand follows the opcode, least byte first; with no room for it, it is merged into
  the last opcode byte. -/
  | plain
  /-- The distance to the operand follows the opcode in one byte. -/
  | relative8
  /-- The distance to the operand follows the opcode in two bytes. -/
  | relative16
  /-- A displacement from an index register, and possibly a byte after it. -/
  | indexed
  /-- A bit number in the last opcode byte, and possibly a displacement in front of that byte. -/
  | bit
  /-- A restart vector added to the opcode. -/
  | restart
  /-- As `plain`, with the two low bytes of the operand exchanged. -/
  | swapped
  deriving DecidableEq, Repr

namespace Encoding

/-- The names of the rules. -/
def names : List (Text × Encoding) :=
  [("NOP".toList, .plain), ("R1".toList, .relative8), ("R2".toList, .relative16),
   ("ZIX".toList, .indexed), ("ZBIT".toList, .bit), ("RST".toList, .restart),
   ("SWAP".toList, .swapped)]

/-- The rule with a name, ignoring case. -/
def ofName (name : Text) : Option Encoding :=
  names.lookup (Text.asciiUpper name)

/-- The name of a rule. -/
def name : Encoding → Text
  | .plain => "NOP".toList
  | .relative8 => "R1".toList
  | .relative16 => "R2".toList
  | .indexed => "ZIX".toList
  | .bit => "ZBIT".toList
  | .restart => "RST".toList
  | .swapped => "SWAP".toList

/-- Whether a rule is of no use without an operand. -/
def takesOperand : Encoding → Bool
  | .relative8 | .relative16 | .bit | .restart => true
  | .plain | .indexed | .swapped => false

end Encoding

/-- One form of an instruction. -/
structure Instruction where
  mnemonic : Text
  /-- The pattern of the operands in upper case, with a star for each expression. -/
  operands : Text
  /-- The fixed bytes, in the order of emission. -/
  opcode : List UInt8
  /-- The number of bytes in all. -/
  size : Nat
  encoding : Encoding
  /-- The number of bits that a plain operand is shifted by. -/
  shift : Nat := 0
  /-- Bits that are set in a plain operand after the shift. -/
  mask : Nat := 0
  deriving DecidableEq, Repr

/-- The number of expressions among the operands. -/
def Instruction.arity (ins : Instruction) : Nat :=
  ins.operands.count '*'

end MacroAssembler
