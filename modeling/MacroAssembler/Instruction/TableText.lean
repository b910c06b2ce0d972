import MacroAssembler.Instruction.Encode
import MacroAssembler.Instruction.Table
import MacroAssembler.Number.Numeral
import MacroAssembler.Source.Disk

/-!
# Instruction tables as text

A table is written one row to a line:

    MNEMONIC  OPERANDS  OPCODE  SIZE  RULE [SHIFT [MASK]]

Operands are written without blanks, and `""` stands for none.  The opcode and the mask are
hexadecimal, the size and the shift decimal.  Spaces and tabs may stand between the fields, and a
semicolon starts a comment.  Lines may be blank.

Reading takes two steps.  The first cuts the text into fields and knows the grammar only.  The
second turns the fields of each row into an `Instruction` and refuses rows that the encoder could
not encode.  So a mistake in the grammar is found before a mistake in a row, wherever they stand.
-/

namespace MacroAssembler

/-- What makes a row impossible to encode. -/
inductive RowProblem where
  | needsOperand
  | tooManyBytes
  | shiftTooFar
  deriving DecidableEq, Repr

/-- A mistake in the text of a table, with its line. -/
inductive TableError where
  | unreadable (cause : FileError)
  | grammar (line : Nat)
  | badShift (line : Nat) (text : Text)
  | badMask (line : Nat) (text : Text)
  | unknownRule (line : Nat) (rule : Text)
  | size (line : Nat) (mnemonic : Text)
  | form (line : Nat) (mnemonic : Text) (problem : RowProblem)
  deriving DecidableEq, Repr

/-- What is wrong with a row, said of its mnemonic. -/
def RowProblem.message : RowProblem → String
  | .needsOperand => "needs an operand for its rule"
  | .tooManyBytes => "has more than 4 operand bytes"
  | .shiftTooFar => "shifts its operand by 32 bits or more"

/-- The text shown for a mistake. -/
def TableError.message : TableError → String
  | .unreadable cause => s!"unable to read table '{String.ofList cause.path}': {cause.reason}"
  | .grammar line => s!"instruction table: line {line}: not an instruction row"
  | .badShift line text => s!"instruction table: line {line}: bad shift '{String.ofList text}'"
  | .badMask line text => s!"instruction table: line {line}: bad or mask '{String.ofList text}'"
  | .unknownRule line rule =>
    s!"instruction table line {line}: unknown rule '{String.ofList rule}'"
  | .size line mnemonic =>
    s!"instruction table line {line}: size of '{String.ofList mnemonic}' smaller than its opcode"
  | .form line mnemonic problem =>
    s!"instruction table line {line}: '{String.ofList mnemonic}' {problem.message}"

/-- The fields of a row, as written. -/
structure RowText where
  mnemonic : Text
  operands : Text
  opcode : Text
  size : Text
  rule : Text
  shift : Option Text
  mask : Option Text
  deriving DecidableEq, Repr

namespace RowText

/-! ## Fields -/

/-- A space or a tab. -/
def isGap (c : Char) : Bool :=
  c == ' ' || c == '\t'

/-- A character that ends a line. -/
def isLineEnd (c : Char) : Bool :=
  c == '\n' || c == '\r'

/-- A hexadecimal digit. -/
def isHexDigit (c : Char) : Bool :=
  (digitValue 16 c).isSome

/-- Drops blanks and a comment. -/
def skip (text : Text) : Text :=
  match text.dropWhile isGap with
  | ';' :: comment => comment.dropWhile (!isLineEnd ·)
  | rest => rest

/-- A field made of one character or more of a class. -/
def run (p : Char → Bool) (text : Text) : Option (Text × Text) :=
  let field := text.takeWhile p
  if field.isEmpty then none else some (field, text.dropWhile p)

/-- A field that starts with an ASCII letter and goes on with characters of a class. -/
def word (p : Char → Bool) : Text → Option (Text × Text)
  | c :: rest => if c.isAlpha then some (c :: rest.takeWhile p, rest.dropWhile p) else none
  | [] => none

/-- The mnemonic of a row. -/
def readMnemonic (text : Text) : Option (Text × Text) :=
  word (fun c => c.isAlphanum || c == '.' || c == '_') text

/-- The operands of a row: two double quotes, or characters up to the next blank. -/
def readOperands (text : Text) : Option (Text × Text) :=
  match Text.after? "\"\"".toList text with
  | some rest => some ("\"\"".toList, rest)
  | none => run (fun c => !isGap c && !isLineEnd c) text

/-- The longest sequence of pairs of hexadecimal digits. -/
def hexPairs : Text → Text × Text
  | a :: b :: rest =>
    if isHexDigit a && isHexDigit b then
      let (pairs, rest) := hexPairs rest
      (a :: b :: pairs, rest)
    else ([], a :: b :: rest)
  | rest => ([], rest)

/-- The opcode of a row: pairs of hexadecimal digits. -/
def readOpcode (text : Text) : Option (Text × Text) :=
  let (pairs, rest) := hexPairs text
  if pairs.isEmpty then none else some (pairs, rest)

/-- Reads a row and the blanks and the comment behind it. -/
def read (text : Text) : Option (RowText × Text) := do
  let (mnemonic, rest) ← readMnemonic text
  let (operands, rest) ← readOperands (skip rest)
  let (opcode, rest) ← readOpcode (skip rest)
  let (size, rest) ← run Char.isDigit (skip rest)
  let (rule, rest) ← word Char.isAlphanum (skip rest)
  let rest := skip rest
  match run Char.isDigit rest with
  | none => return (⟨mnemonic, operands, opcode, size, rule, none, none⟩, rest)
  | some (shift, rest) =>
    let rest := skip rest
    match run isHexDigit rest with
    | none => return (⟨mnemonic, operands, opcode, size, rule, some shift, none⟩, rest)
    | some (mask, rest) =>
      return (⟨mnemonic, operands, opcode, size, rule, some shift, some mask⟩, skip rest)

/-! ## Rows -/

/-- The bytes of pairs of hexadecimal digits. -/
def hexBytes : Text → List UInt8
  | a :: b :: rest =>
    UInt8.ofNat (16 * (digitValue 16 a).getD 0 + (digitValue 16 b).getD 0) :: hexBytes rest
  | _ => []

/-- What keeps a row from being encoded. -/
def problem (ins : Instruction) : Option RowProblem :=
  if ins.encoding.takesOperand && ins.arity == 0 then some .needsOperand
  else if 4 < ins.trailing then some .tooManyBytes
  else if 32 ≤ ins.shift then some .shiftTooFar
  else none

/-- The number in a field that may be left out, which means zero. -/
def optionalNumber (base : Nat) (fault : Text → TableError) :
    Option Text → Except TableError Nat
  | none => .ok 0
  | some text =>
    match readUnsigned base (Nat.pow 2 32) text with
    | some n => .ok n
    | none => .error (fault text)

/-- Refuses a row that is shorter than its opcode or has another problem. -/
def check (line : Nat) (ins : Instruction) : Except TableError Instruction :=
  if ins.size < ins.opcode.length then .error (.size line ins.mnemonic)
  else
    match problem ins with
    | some p => .error (.form line ins.mnemonic p)
    | none => .ok ins

/-- The instruction that the fields of a row describe. -/
def toInstruction (line : Nat) (row : RowText) : Except TableError Instruction := do
  let mnemonic := Text.asciiUpper row.mnemonic
  let operands := if row.operands = "\"\"".toList then [] else Text.asciiUpper row.operands
  let some size := readUnsigned 10 (Nat.pow 2 32) row.size | throw (.size line mnemonic)
  let some encoding := Encoding.ofName row.rule | throw (.unknownRule line row.rule)
  let shift ← optionalNumber 10 (.badShift line) row.shift
  let mask ← optionalNumber 16 (.badMask line) row.mask
  check line
    { mnemonic := mnemonic, operands := operands, opcode := hexBytes row.opcode, size := size,
      encoding := encoding, shift := shift, mask := mask }

end RowText

/-! ## Tables -/

namespace RowText

theorem length_skip_le (text : Text) : (skip text).length ≤ text.length := by
  unfold skip
  have h := Text.length_dropWhile_le isGap text
  split
  · next comment heq =>
    have h' := Text.length_dropWhile_le (fun c => !isLineEnd c) comment
    rw [heq, List.length_cons] at h
    omega
  · exact h

theorem length_le_of_run {p : Char → Bool} {text field rest : Text}
    (h : run p text = some (field, rest)) : rest.length ≤ text.length := by
  simp only [run, Option.ite_none_left_eq_some, Option.some.injEq, Prod.mk.injEq] at h
  obtain ⟨-, -, rfl⟩ := h
  exact Text.length_dropWhile_le p text

theorem length_le_of_word {p : Char → Bool} {text field rest : Text}
    (h : word p text = some (field, rest)) : rest.length ≤ text.length := by
  cases text with
  | nil => simp [word] at h
  | cons c t =>
    simp only [word, Option.ite_none_right_eq_some, Option.some.injEq, Prod.mk.injEq] at h
    obtain ⟨-, -, rfl⟩ := h
    exact Nat.le_succ_of_le (Text.length_dropWhile_le p t)

theorem length_le_of_readOperands {text field rest : Text}
    (h : readOperands text = some (field, rest)) : rest.length ≤ text.length := by
  unfold readOperands at h
  split at h
  · next hq =>
    cases h
    exact Text.length_le_of_after? hq
  · exact length_le_of_run h

theorem length_hexPairs_le (text : Text) : (hexPairs text).2.length ≤ text.length := by
  fun_induction hexPairs text <;> simp_all
  omega

theorem length_le_of_readOpcode {text field rest : Text}
    (h : readOpcode text = some (field, rest)) : rest.length ≤ text.length := by
  simp only [readOpcode, Option.ite_none_left_eq_some, Option.some.injEq, Prod.mk.injEq] at h
  obtain ⟨-, -, rfl⟩ := h
  exact length_hexPairs_le text

theorem length_le_of_read {text rest : Text} {row : RowText}
    (h : read text = some (row, rest)) : rest.length ≤ text.length := by
  simp only [read, Option.bind_eq_bind, Option.bind_eq_some_iff] at h
  obtain ⟨⟨_, r₁⟩, h₁, ⟨_, r₂⟩, h₂, ⟨_, r₃⟩, h₃, ⟨_, r₄⟩, h₄, ⟨_, r₅⟩, h₅, h⟩ := h
  have l₁ := length_le_of_word h₁
  have l₂ := length_le_of_readOperands h₂
  have l₃ := length_le_of_readOpcode h₃
  have l₄ := length_le_of_run h₄
  have l₅ := length_le_of_word h₅
  have s₁ := length_skip_le r₁
  have s₂ := length_skip_le r₂
  have s₃ := length_skip_le r₃
  have s₄ := length_skip_le r₄
  have s₅ := length_skip_le r₅
  simp only at h h₂ h₃ h₄ h₅ l₁ l₂ l₃ l₄ l₅
  split at h
  · cases h
    omega
  · next r₆ h₆ =>
    have l₆ := length_le_of_run h₆
    have s₆ := length_skip_le r₆
    split at h
    · cases h
      omega
    · next r₇ h₇ =>
      have l₇ := length_le_of_run h₇
      have s₇ := length_skip_le r₇
      cases h
      omega

end RowText

/-- The row at the start of a text, if there is one, and what follows it on the line. -/
def readRow (text : Text) : Option RowText × Text :=
  let text := RowText.skip text
  match RowText.read text with
  | some (row, rest) => (some row, rest)
  | none => (none, text)

theorem length_readRow_le (text : Text) : (readRow text).2.length ≤ text.length := by
  have h := RowText.length_skip_le text
  unfold readRow
  simp only
  split
  · next hr => exact Nat.le_trans (RowText.length_le_of_read hr) h
  · exact h

/-- The rows of a table with their lines.  A carriage return ends a row but not a line. -/
def readRows (line : Nat) (text : Text) : Except TableError (List (Nat × RowText)) :=
  let row := (readRow text).1.map (line, ·)
  match _h : (readRow text).2 with
  | [] => .ok row.toList
  | '\n' :: rest => (readRows (line + 1) rest).map (row.toList ++ ·)
  | '\r' :: '\n' :: rest => (readRows (line + 1) rest).map (row.toList ++ ·)
  | '\r' :: rest => (readRows line rest).map (row.toList ++ ·)
  | _ => .error (.grammar line)
termination_by text.length
decreasing_by
  all_goals
    have h := length_readRow_le text
    rw [_h] at h
    simp only [List.length_cons] at h
    omega

namespace InstructionSet

/-- The rows that a text describes. -/
def rowsOfText (text : Text) : Except TableError (List Instruction) := do
  (← readRows 1 text).mapM fun (line, row) => row.toInstruction line

/-- The table that a text describes. -/
def ofText (text : Text) : Except TableError InstructionSet :=
  (rowsOfText text).map ofRows

end InstructionSet

end MacroAssembler
