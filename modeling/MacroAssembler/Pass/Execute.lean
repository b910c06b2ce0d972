import MacroAssembler.Directive.Binary
import MacroAssembler.Directive.Branch
import MacroAssembler.Directive.Command
import MacroAssembler.Directive.Flow
import MacroAssembler.Directive.Macro
import MacroAssembler.Directive.Notice
import MacroAssembler.Directive.Placement
import MacroAssembler.Directive.Scope
import MacroAssembler.Directive.Series
import MacroAssembler.Directive.Storage
import MacroAssembler.Pass.Instruction

/-!
# Executing statements

A statement may have to be passed over: while the body of a macro is collected, while a loop
without rounds is skipped, and in an inactive branch.  Otherwise its macros are expanded the first
time it is reached, and what it asks for is done.

Including a file means executing all of its statements, which is what this module is part of.  So
the step that executes a file is a parameter here, and it is missing where files are already
included as deeply as they may be.
-/

namespace MacroAssembler

namespace PassM

/-- Gives a label the value of an expression.  It may be given another one later. -/
def assign (name value : Text) : PassM Unit := do
  let value ← eval value
  let id ← defineConstant name value (← get).pages.current
  record (.assigned id)

/-- In the assembling pass, checks that a label had the same address in the pass before. -/
def checkPhase (name : Text) (address : Float) : PassM Unit := do
  let stage ← read
  if stage.kind == .assemble then
    match stage.previousLabel (← get) name with
    | some before =>
      if before.value != address then
        misuse (.phase name (Value.toWord before.value) (Value.toWord address))
    | none => pure ()

/-- Defines a label for the current address.  In the assembling pass it must have had the same
address in the pass before. -/
def defineAddressLabel (name : Text) : PassM Unit := do
  let st ← get
  let address := Value.ofInt st.address
  match ReusableRef.ofDefinition name with
  | some (polarity, run) =>
    set { st with reusable := st.reusable.define polarity run address }
    record (.reached polarity run address)
  | none =>
    record (.labelled name st.scope address)
    let info : LabelDef :=
      { value := address, page := st.pages.current, location := st.location }
    let _ ← defineLabel name info false
    checkPhase name address

/-- Executes another file, and tells where to go on. -/
def includeFile (runFile : Option (Nat → PassM Bool)) (name rest : Text) : PassM Flow := do
  match Text.arguments rest with
  | [arg] =>
    match runFile with
    | none => misuse .includesTooDeep
    | some runFile =>
      let path ← resolvePath arg
      let file ← onStore (SourceStore.load path)
      return if ← runFile file then .stop else .next
  | args => misuse (.argumentCount name 1 1 args.length)

/-- Executes a directive that is no branch. -/
def directive (runFile : Option (Nat → PassM Bool)) (file : Nat) (pos : Position)
    (d : Directive) (name rest : Text) : PassM Flow := do
  match d with
  | .branch d => d.run name rest; return .next
  | .scope d => d.run name rest; return .next
  | .data d => d.run name rest; return .next
  | .series d => d.run name rest; return .next
  | .charMap => runCharMap name rest; return .next
  | .macroText d => d.run name rest; return .next
  | .storage d => d.run name rest; return .next
  | .flow d => d.run file ⟨pos.line, pos.statement + 1⟩ name rest
  | .includeFile => includeFile runFile name rest
  | .binary d => d.run name rest; return .next
  | .placement d => d.run name rest; return .next
  | .notice d => d.run rest; return .next
  | .equate => misuse .equWithoutLabel

/-- Executes what a text asks for, in active code. -/
def command (runFile : Option (Nat → PassM Bool)) (file : Nat) (pos : Position) (text : Text)
    (column0 : Bool) : PassM Flow :=
  match _h : Command.ofText text column0 with
  | .blank => pure .next
  | .directive name rest =>
    match Directive.ofName name with
    | some d => directive runFile file pos d name rest
    | none => misuse (.unknown name)
  | .assign name value => do
    assign name value
    return .next
  | .label name rest => do
    defineAddressLabel name
    command runFile file pos rest false
  | .instruct mnemonic operands => do
    if (← read).table.isMnemonic mnemonic then
      instruction file pos mnemonic operands
      return .next
    else throw (.unknownInstruction mnemonic)
termination_by text.length
decreasing_by exact Command.length_lt_of_ofText _h

/-- Executes a statement, or passes over it. -/
def execute (runFile : Option (Nat → PassM Bool)) (file : Nat) (pos : Position) (text : Text)
    (column0 : Bool) : PassM Flow := do
  let st ← get
  let trimmed := Text.trim text
  if trimmed.isEmpty then return .next
  else if st.longMacro.isSome then
    set (st.collect trimmed)
    return .next
  else if 0 < st.skippedLoops then
    set (st.skip trimmed)
    return .next
  else
    match Directive.ofWord (Text.splitWord trimmed).1 with
    | some (.branch d) =>
      let (word, rest) := Text.splitWord trimmed
      d.run ((Directive.nameOf word).getD []) rest
      return .next
    | _ => if st.conditionals.active then command runFile file pos text column0 else return .next

/-- The statement at a position, if its macros are to be expanded before it is executed.  That is
the case the first time that active code reaches it. -/
def unexpanded (st : State) (file : Nat) (pos : Position) : Option Statement :=
  if st.longMacro.isSome || 0 < st.skippedLoops then none
  else ((st.store.file file).statement? pos).filter fun s =>
    !s.expanded && (st.conditionals.active ||
      (st.conditionals.alternativePending && Command.isAlternative s.text))

/-- Puts an expanded text in the place of the statement that it comes from. -/
def replaceStatement (file : Nat) (pos : Position) (s : Statement) (text : Text) : PassM Unit := do
  if text = s.text then
    let mark (source : SourceFile) : SourceFile :=
      source.modifyStatement pos fun s => { s with expanded := true }
    modify fun st => { st with store := st.store.modifyFile file mark }
  else
    modify fun st => { st with store := st.store.modifyFile file (·.splice pos text) }
    record (.spliced file pos (Source.expandedStatements s.column0 text).length)

/-- Expands the macros of a statement the first time that active code reaches it. -/
def expandStatement (file : Nat) (pos : Position) : PassM Unit := do
  match unexpanded (← get) file pos with
  | none => return
  | some s =>
    let text ← if Command.namesMacros s.text s.column0 then pure s.text else expandMacros s.text
    replaceStatement file pos s text

/-- The statement at a position of a file, in the form in which it is executed. -/
def reach (file : Nat) (pos : Position) : PassM (Option Statement) := do
  expandStatement file pos
  let st ← get
  let s := (st.store.file file).statement? pos
  let written := (s.filter (!·.expanded)).map fun s => ⟨file, pos, s.text, st.bypass⟩
  set { st with asWritten := written.toList ++ st.asWritten }
  return s

/-- Executes the statement at a position of a file. -/
def statement (runFile : Option (Nat → PassM Bool)) (file : Nat) (pos : Position) :
    PassM Flow := do
  match ← reach file pos with
  | none => return .next
  | some s => execute runFile file pos s.text s.column0

end PassM

end MacroAssembler
