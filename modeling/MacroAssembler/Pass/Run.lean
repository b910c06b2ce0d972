import MacroAssembler.Pass.Execute

/-!
# Running a pass

A file is executed statement by statement, until its end, until a directive stops the source, or
until a fatal fault.  Other faults are reported, and the execution goes on behind the statement; in
a strict assembly the first one is the last.

Execution can jump back, so it is bounded by a number of steps; running out of them is a fault of
its own.  How deep files may include each other is bounded too, and a file is run by recursion on
the levels that are left.
-/

namespace MacroAssembler

namespace PassM

/-- Executes a file from a position on, and tells whether the source was stopped. -/
def runFrom (runFile : Option (Nat → PassM Bool)) (file : Nat) : (steps : Nat) → Position →
    PassM Bool
  | 0, _ => throw .outOfSteps
  | steps + 1, pos => do
    match ((← get).store.file file).lines[pos.line]? with
    | none => return false
    | some line =>
      if line.length ≤ pos.statement then runFrom runFile file steps ⟨pos.line + 1, 0⟩
      else
        modify fun st => { st with location := some ⟨file, pos.line + 1⟩ }
        match ← observe (statement runFile file pos) with
        | .ok (.jump target) => runFrom runFile file steps target
        | .ok .stop => return true
        | .ok .next => runFrom runFile file steps ⟨pos.line, pos.statement + 1⟩
        | .error fault =>
          if fault.isFatal then throw fault
          else
            report .error fault.message
            if (← read).strict then throw (.aborted (← get).diagnostics.errorCount)
            else runFrom runFile file steps ⟨pos.line, pos.statement + 1⟩

/-- Executes a whole file with a way to execute others, and returns to the place before it.  Loops
that the file leaves open are closed. -/
def runWith (runFile : Option (Nat → PassM Bool)) (file : Nat) : PassM Bool := do
  let st ← get
  let place := (st.file, st.filePath, st.location)
  let opened := st.loops.length
  set { st with file := some file, filePath := (st.store.file file).path }
  let result ← observe (runFrom runFile file (← read).maxSteps ⟨0, 0⟩)
  let leftOpen := (← get).loops.length - opened
  if 0 < leftOpen && result.isOk then report .error "loop without .loop"
  modify fun st => { st with
    loops := st.loops.drop leftOpen, file := place.1, filePath := place.2.1,
    location := place.2.2 }
  ofExcept id result

/-- Executes a file, in which includes may still nest some levels deep. -/
def runFile : (levels : Nat) → (file : Nat) → PassM Bool
  | 0, file => runWith none file
  | levels + 1, file => runWith (some (runFile levels)) file

/-- Marks a label as exported. -/
def settleExport (name : Text) (home : ModuleId) : PassM Unit := do
  let st ← get
  match st.symbols.resolve name (st.scopeAt home) with
  | some id =>
    set { st with symbols := st.symbols.modifyLabel id fun label =>
      { label with isExported := true } }
  | none => report .error s!"cannot export unknown label '{String.ofList name}'"

/-- Reports what the source left open. -/
def reportOpen : PassM Unit := do
  modify fun st => { st with location := none }
  let st ← get
  if 0 < st.conditionals.depth then report .error ".if without .endif"
  if st.longMacro.isSome then report .error ".deflong without .enddeflong"
  if st.openStruct.isSome then report .error ".struct without .endstruct"

/-- Checks what the source left open, and settles exports and references. -/
def finish : PassM Unit := do
  reportOpen
  if (← read).kind == .assemble then
    (← get).exports.forM fun (name, home) => settleExport name home
    modify fun st => { st with exports := [] }
    resolvePending

/-- Executes a source from its main file. -/
def runSource (main : Nat) : PassM Unit := do
  let _ ← runFile maxIncludes main
  finish

end PassM

end MacroAssembler
