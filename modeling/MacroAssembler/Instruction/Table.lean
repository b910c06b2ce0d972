import MacroAssembler.Instruction.Pattern
import MacroAssembler.Instruction.Row

/-!
# The instruction table

The rows of a table are indexed by mnemonic.  Under each mnemonic the row without operands, the
rows whose operands hold no expression and the rows with expressions are kept apart, since they
are found in three different ways: by the absence of operands, by comparison of texts, and by
matching patterns one after the other.  Of several rows that would do, the first of the table is
found.
-/

namespace MacroAssembler

/-- The rows of one mnemonic, by their numbers in the table. -/
structure RowGroup where
  /-- The first row without operands. -/
  bare : Option Nat := none
  /-- For each operand text without expressions, the first row with it. -/
  fixed : Index Nat := []
  /-- The rows with expressions, in the order of the table. -/
  wildcard : List Nat := []

/-- A row that fits a statement, and the expressions it found among the operands. -/
structure Match where
  index : Nat
  args : List Text
  deriving DecidableEq, Repr

/-- An instruction table with its index. -/
structure InstructionSet where
  rows : Array Instruction
  groups : Index RowGroup

namespace RowGroup

/-- The group with one more row. -/
def add (group : RowGroup) (index : Nat) (ins : Instruction) : RowGroup :=
  if ins.operands.isEmpty then { group with bare := group.bare <|> some index }
  else if ins.arity = 0 then
    if (group.fixed.lookup ins.operands).isSome then group
    else { group with fixed := group.fixed ++ [(ins.operands, index)] }
  else { group with wildcard := group.wildcard ++ [index] }

end RowGroup

namespace InstructionSet

/-- The index of a list of rows whose numbers start at `index`. -/
def indexRows (groups : Index RowGroup) (index : Nat) : List Instruction → Index RowGroup
  | [] => groups
  | ins :: rest =>
    let group := (groups.lookup ins.mnemonic).getD {}
    indexRows (groups.put ins.mnemonic (group.add index ins)) (index + 1) rest

/-- The table with the given rows. -/
def ofRows (rows : List Instruction) : InstructionSet :=
  ⟨rows.toArray, indexRows [] 0 rows⟩

/-- Whether a word is a mnemonic of the table, ignoring case. -/
def isMnemonic (set : InstructionSet) (word : Text) : Bool :=
  (set.groups.lookup (Text.asciiUpper word)).isSome

/-- The row with a number. -/
def row? (set : InstructionSet) (index : Nat) : Option Instruction :=
  set.rows[index]?

/-- The expressions among the operands, for the row with a number. -/
def captureRow (set : InstructionSet) (text : Text) (index : Nat) : Option Match :=
  (set.row? index).bind fun ins => (Pattern.capture ins.operands text).map (⟨index, ·⟩)

/-- The row for a mnemonic with the given operands.  Blanks outside of literals do not count. -/
def find (set : InstructionSet) (mnemonic operands : Text) : Option Match := do
  let group ← set.groups.lookup (Text.asciiUpper mnemonic)
  let text := Text.squeeze operands
  if text.isEmpty then group.bare.map (⟨·, []⟩)
  else match group.fixed.lookup (Text.asciiUpper text) with
    | some index => some ⟨index, []⟩
    | none => group.wildcard.findSome? (set.captureRow text)

end InstructionSet

end MacroAssembler
