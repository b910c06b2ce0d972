import MacroAssembler.Instruction.Table

/-!
# The instructions of the Z80

The rows of the table that is used when a program brings none of its own.  Rows are tried in order,
so forms with an index register precede indirect ones, and these precede immediate ones.

Most rows belong to a family.  A small letter in the operands of a family stands for a register or a
condition, and what is chosen for it is also a number in the opcode.
-/

namespace MacroAssembler

namespace Z80

/-- A row whose operand is neither shifted nor masked. -/
def form (mnemonic operands : String) (opcode : List UInt8) (size : Nat) (encoding : Encoding) :
    Instruction :=
  { mnemonic := mnemonic.toList, operands := operands.toList, opcode := opcode, size := size,
    encoding := encoding }

/-- A row whose code is its opcode. -/
def fixed (mnemonic operands : String) (opcode : List UInt8) : Instruction :=
  form mnemonic operands opcode opcode.length .plain

/-- Names, and the number that each has in an opcode. -/
abbrev Choices := List (String × UInt8)

/-- The registers of one byte. -/
def registers : Choices :=
  [("B", 0), ("C", 1), ("D", 2), ("E", 3), ("H", 4), ("L", 5), ("(HL)", 6), ("A", 7)]

/-- The registers of one byte that are not in memory. -/
def ownRegisters : Choices :=
  registers.eraseIdx 6

/-- The registers beside the halves of an index register. -/
def halfRegisters : Choices :=
  [("B", 0), ("C", 1), ("D", 2), ("E", 3), ("IiH", 4), ("IiL", 5), ("A", 7)]

def pairs : Choices :=
  [("BC", 0), ("DE", 2), ("HL", 4), ("SP", 6)]

def conditions : Choices :=
  [("NZ", 0), ("Z", 1), ("NC", 2), ("C", 3), ("PO", 4), ("PE", 5), ("P", 6), ("M", 7)]

/-- The operands with a name in the place of a letter. -/
def fill (letter : Char) (name : String) (operands : Text) : Text :=
  operands.flatMap fun c => if c = letter then name.toList else [c]

/-- A family: one row for each choice for a letter, whose number is in the last opcode byte, with
the given weight. -/
def family (letter : Char) (weight : UInt8) (choices : Choices) (ins : Instruction) :
    List Instruction :=
  choices.map fun (name, number) =>
    { ins with
      operands := fill letter name ins.operands
      opcode := ins.opcode.dropLast ++ [ins.opcode.getLast?.getD 0 + weight * number] }

/-- Rows for each of the two index registers, which is `Ii` in the operands and is told by a byte in
front of the opcode. -/
def forIndex (rows : List Instruction) : List Instruction :=
  [("X", 0xDD), ("Y", 0xFD)].flatMap fun (name, first) => rows.map fun ins =>
    { ins with
      operands := fill 'i' name ins.operands, opcode := first :: ins.opcode, size := ins.size + 1 }

/-- The rows of a family, each for both index registers. -/
def eachForIndex (rows : List Instruction) : List Instruction :=
  rows.flatMap fun ins => forIndex [ins]

/-- Instructions without operands. -/
def control : List Instruction :=
  ([("NOP", [0x00]), ("HALT", [0x76]), ("DI", [0xF3]), ("EI", [0xFB]), ("EXX", [0xD9]),
    ("RLCA", [0x07]), ("RRCA", [0x0F]), ("RLA", [0x17]), ("RRA", [0x1F]), ("DAA", [0x27]),
    ("CPL", [0x2F]), ("SCF", [0x37]), ("CCF", [0x3F]), ("RET", [0xC9]), ("NEG", [0xED, 0x44]),
    ("RETN", [0xED, 0x45]), ("RETI", [0xED, 0x4D]), ("RRD", [0xED, 0x67]), ("RLD", [0xED, 0x6F]),
    ("LDI", [0xED, 0xA0]), ("CPI", [0xED, 0xA1]), ("INI", [0xED, 0xA2]), ("OUTI", [0xED, 0xA3]),
    ("LDD", [0xED, 0xA8]), ("CPD", [0xED, 0xA9]), ("IND", [0xED, 0xAA]), ("OUTD", [0xED, 0xAB]),
    ("LDIR", [0xED, 0xB0]), ("CPIR", [0xED, 0xB1]), ("INIR", [0xED, 0xB2]), ("OTIR", [0xED, 0xB3]),
    ("LDDR", [0xED, 0xB8]), ("CPDR", [0xED, 0xB9]), ("INDR", [0xED, 0xBA]),
    ("OTDR", [0xED, 0xBB])] : List (String × List UInt8)).map
      fun (mnemonic, opcode) => fixed mnemonic "" opcode

/-- Loads from one register to another. -/
def moves (choices : Choices) : List Instruction :=
  (family 'r' 8 choices (fixed "LD" "r,s" [0x40])).flatMap (family 's' 1 choices)

/-- Loads between registers and the memory at an index register. -/
def indexedLoads (operand : String) (size : Nat) (encoding : Encoding) : List Instruction :=
  eachForIndex (family 'r' 8 ownRegisters (form "LD" ("r," ++ operand) [0x46] size encoding) ++
    family 'r' 1 ownRegisters (form "LD" (operand ++ ",r") [0x70] size encoding) ++
    [form "LD" (operand ++ ",*") [0x36] (size + 1) encoding])

/-- Loads between registers and memory. -/
def loads : List Instruction :=
  -- the opcode that would load from memory to memory is that of `HALT`
  (moves registers).filter (·.opcode != [0x76]) ++
  forIndex ((moves halfRegisters).filter (·.operands.contains 'i')) ++
  [fixed "LD" "A,(BC)" [0x0A], fixed "LD" "A,(DE)" [0x1A], fixed "LD" "(BC),A" [0x02],
   fixed "LD" "(DE),A" [0x12], fixed "LD" "A,I" [0xED, 0x57], fixed "LD" "A,R" [0xED, 0x5F],
   fixed "LD" "I,A" [0xED, 0x47], fixed "LD" "R,A" [0xED, 0x4F], fixed "LD" "SP,HL" [0xF9]] ++
  forIndex [fixed "LD" "SP,Ii" [0xF9]] ++
  indexedLoads "(Ii+*)" 2 .indexed ++
  (indexedLoads "(Ii)" 2 .plain).map (fun ins => { ins with opcode := ins.opcode ++ [0x00] }) ++
  forIndex [form "LD" "Ii,(*)" [0x2A] 3 .plain, form "LD" "(*),Ii" [0x22] 3 .plain,
    form "LD" "Ii,*" [0x21] 3 .plain, form "LD" "IiH,*" [0x26] 2 .plain,
    form "LD" "IiL,*" [0x2E] 2 .plain] ++
  [form "LD" "A,(*)" [0x3A] 3 .plain, form "LD" "(*),A" [0x32] 3 .plain,
   form "LD" "HL,(*)" [0x2A] 3 .plain, form "LD" "(*),HL" [0x22] 3 .plain] ++
  family 'p' 8 (pairs.eraseIdx 2) (form "LD" "p,(*)" [0xED, 0x4B] 4 .plain) ++
  family 'p' 8 (pairs.eraseIdx 2) (form "LD" "(*),p" [0xED, 0x43] 4 .plain) ++
  [form "LD" "(HL),*" [0x36] 2 .plain] ++
  family 'r' 8 ownRegisters (form "LD" "r,*" [0x06] 2 .plain) ++
  family 'p' 8 pairs (form "LD" "p,*" [0x01] 3 .plain)

/-- The stack and exchanges. -/
def stack : List Instruction :=
  (pairs.take 3 ++ [("AF", 6)]).flatMap (fun pair =>
    family 'p' 8 [pair] (fixed "PUSH" "p" [0xC5]) ++ family 'p' 8 [pair]
      (fixed "POP" "p" [0xC1])) ++
  forIndex [fixed "PUSH" "Ii" [0xE5], fixed "POP" "Ii" [0xE1]] ++
  [fixed "EX" "DE,HL" [0xEB], fixed "EX" "AF,AF'" [0x08], fixed "EX" "AF,AF" [0x08],
   fixed "EX" "(SP),HL" [0xE3]] ++
  forIndex [fixed "EX" "(SP),Ii" [0xE3]]

/-- Arithmetic and logic on bytes, where the accumulator may be written or not. -/
def arithmetic : List Instruction :=
  ([("ADD", 0), ("ADC", 1), ("SUB", 2), ("SBC", 3), ("AND", 4), ("XOR", 5), ("OR", 6), ("CP", 7)] :
    Choices).flatMap fun (mnemonic, number) =>
      let base := 0x80 + 8 * number
      ["A,", ""].flatMap (fun front =>
        family 'r' 1 registers (fixed mnemonic (front ++ "r") [base]) ++
        forIndex [fixed mnemonic (front ++ "IiH") [base + 4],
          fixed mnemonic (front ++ "IiL") [base + 5]] ++
        forIndex [form mnemonic (front ++ "(Ii+*)") [base + 6] 2 .indexed] ++
        [form mnemonic (front ++ "*") [base + 0x46] 2 .plain]) ++
      ["A,", ""].flatMap fun front => forIndex [fixed mnemonic (front ++ "(Ii)") [base + 6, 0x00]]

/-- Counting up and down, arithmetic on words, and interrupt modes. -/
def counting : List Instruction :=
  ([("INC", 0), ("DEC", 1)] : Choices).flatMap (fun (mnemonic, number) =>
    family 'r' 8 registers (fixed mnemonic "r" [0x04 + number]) ++
    forIndex [fixed mnemonic "IiH" [0x24 + number], fixed mnemonic "IiL" [0x2C + number]] ++
    forIndex [form mnemonic "(Ii+*)" [0x34 + number] 2 .indexed] ++
    forIndex [fixed mnemonic "(Ii)" [0x34 + number, 0x00]]) ++
  pairs.flatMap (fun pair =>
    [fixed "ADD" "HL,p" [0x09], fixed "ADC" "HL,p" [0xED, 0x4A], fixed "SBC" "HL,p" [0xED, 0x42],
     fixed "INC" "p" [0x03], fixed "DEC" "p" [0x0B]].flatMap (family 'p' 8 [pair])) ++
  forIndex (family 'p' 8 (pairs.set 2 ("Ii", 4)) (fixed "ADD" "Ii,p" [0x09]) ++
    [fixed "INC" "Ii" [0x23], fixed "DEC" "Ii" [0x2B]]) ++
  [fixed "IM" "0" [0xED, 0x46], fixed "IM" "1" [0xED, 0x56], fixed "IM" "2" [0xED, 0x5E]]

/-- Rotates and shifts. -/
def shifts : List Instruction :=
  ([("RLC", 0), ("RRC", 1), ("RL", 2), ("RR", 3), ("SLA", 4), ("SRA", 5), ("SLL", 6), ("SRL", 7)] :
    Choices).flatMap (fun (mnemonic, number) =>
      family 'r' 1 registers (fixed mnemonic "r" [0xCB, 8 * number]) ++
      forIndex [form mnemonic "(Ii+*)" [0xCB, 8 * number + 6] 3 .indexed] ++
      forIndex [fixed mnemonic "(Ii)" [0xCB, 0x00, 8 * number + 6]]) ++
  family 'r' 1 registers (fixed "SL1" "r" [0xCB, 0x30])

/-- Single bits. -/
def bits : List Instruction :=
  ([("BIT", 0x40), ("RES", 0x80), ("SET", 0xC0)] : Choices).flatMap fun (mnemonic, base) =>
    forIndex [form mnemonic "*,(Ii+*)" [0xCB, base + 6] 3 .bit] ++
    forIndex [form mnemonic "*,(Ii)" [0xCB, 0x00, base + 6] 3 .bit] ++
    family 'r' 1 registers (form mnemonic "*,r" [0xCB, base] 2 .bit)

/-- Jumps, calls, returns and restarts. -/
def jumps : List Instruction :=
  [fixed "JP" "(HL)" [0xE9], fixed "JP" "HL" [0xE9]] ++
  forIndex [fixed "JP" "(Ii)" [0xE9], fixed "JP" "Ii" [0xE9]] ++
  family 'c' 8 conditions (form "JP" "c,*" [0xC2] 3 .plain) ++ [form "JP" "*" [0xC3] 3 .plain] ++
  family 'c' 8 (conditions.take 4) (form "JR" "c,*" [0x20] 2 .relative8) ++
  [form "JR" "*" [0x18] 2 .relative8, form "DJNZ" "*" [0x10] 2 .relative8] ++
  family 'c' 8 conditions (form "CALL" "c,*" [0xC4] 3 .plain) ++
    [form "CALL" "*" [0xCD] 3 .plain] ++
  family 'c' 8 conditions (fixed "RET" "c" [0xC0]) ++ [form "RST" "*" [0xC7] 1 .restart]

/-- Input and output. -/
def ports : List Instruction :=
  ownRegisters.flatMap (fun register =>
    family 'r' 8 [register] (fixed "IN" "r,(C)" [0xED, 0x40]) ++
    family 'r' 8 [register] (fixed "OUT" "(C),r" [0xED, 0x41])) ++
  [fixed "IN" "(C)" [0xED, 0x70], fixed "IN" "F,(C)" [0xED, 0x70], fixed "OUT" "(C),0" [0xED, 0x71],
   form "IN" "A,(*)" [0xDB] 2 .plain, form "OUT" "(*),A" [0xD3] 2 .plain]

/-- All the rows, in the order in which they are tried. -/
def rows : List Instruction :=
  control ++ loads ++ stack ++ arithmetic ++ counting ++
    shifts ++ bits ++ jumps ++ ports

/-- The instruction table of the Z80. -/
def instructionSet : InstructionSet :=
  InstructionSet.ofRows rows

end Z80

end MacroAssembler
