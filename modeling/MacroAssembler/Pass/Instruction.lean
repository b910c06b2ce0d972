import MacroAssembler.Pass.Evaluate

/-!
# Instructions

A labels pass finds the row for an instruction, leaves it with the statement, and moves the
program counter on by the size of the row.  The assembling pass takes up the row that the final
labels pass left, so that both see the same instruction; it refuses to go on when there is none, or
when the operands have changed since.
-/

namespace MacroAssembler

namespace PassM

/-- Finds the row for an instruction and leaves it with the statement. -/
def findInstruction (file : Nat) (pos : Position) (mnemonic operands : Text) : PassM Unit := do
  let stage ← read
  match stage.table.find mnemonic operands with
  | none => throw (.badOperands mnemonic operands)
  | some found =>
    let row : FoundRow := ⟨stage.kind, Text.squeeze operands, found⟩
    let leave (source : SourceFile) : SourceFile :=
      source.modifyStatement pos fun s => { s with row := some row }
    modify fun st => { st with store := st.store.modifyFile file leave }
    record (.matched file pos)
    advance (((stage.table.row? found.index).map Instruction.size).getD 0)

/-- The row that the final labels pass left with a statement, if it still stands for the
operands. -/
def settledRow (row : Option FoundRow) (mnemonic operands : Text) : Except Desync Match :=
  match row with
  | none => .error (.neverMatched mnemonic operands)
  | some row =>
    if row.pass ≠ .final then .error (.skipped mnemonic operands)
    else if row.operands ≠ Text.squeeze operands then
      .error (.changed row.operands (Text.squeeze operands))
    else .ok row.found

/-- The machine code of an instruction at the current address. -/
def encodeInstruction (ins : Instruction) (args : List Text) : PassM (List UInt8) := do
  let values ← args.mapM evalInt
  ofExcept .encode (ins.encode values (← get).address)

/-- Puts an instruction into the output.  One that can not be encoded leaves a gap of its size, so
that the addresses behind it stay in step with the labels passes. -/
def emitInstruction (file : Nat) (pos : Position) (mnemonic operands : Text) : PassM Unit := do
  let st ← get
  let s := (st.store.file file).statement? pos
  let outcome := settledRow (s.bind Statement.row) mnemonic operands
  record (.encoded file pos s outcome)
  match outcome with
  | .error detail => throw (.desync st.filePath (pos.line + 1) detail)
  | .ok found =>
    match (← read).table.row? found.index with
    | none => throw (.desync st.filePath (pos.line + 1) (.neverMatched mnemonic operands))
    | some ins =>
      match ← observe (encodeInstruction ins found.args) with
      | .ok bytes => emit bytes
      | .error fault =>
        advance ins.size
        throw fault

/-- Executes an instruction. -/
def instruction (file : Nat) (pos : Position) (mnemonic operands : Text) : PassM Unit := do
  if (← read).kind.isLabels then findInstruction file pos mnemonic operands
  else emitInstruction file pos mnemonic operands

end PassM

end MacroAssembler
