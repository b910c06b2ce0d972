import MacroAssembler.Diagnostic
import MacroAssembler.Macro.Table
import MacroAssembler.Pass.Event
import MacroAssembler.Source.Store
import MacroAssembler.Symbol.Area
import MacroAssembler.Symbol.Lookup
import MacroAssembler.Symbol.Struct

/-!
# The state of a pass

A pass starts from what does not change while it runs, its `Stage`: which of the passes it is, the
instruction table, and what the pass before it found out.  It builds a `State`: the symbols, the
output and everything that statements set for the statements after them.  The sources and the
diagnostics are part of the state too; they outlive the pass.

Statements are computations of type `PassM`.  A fault keeps the changes that were made before it.
-/

namespace MacroAssembler

/-- The choices that are made before an assembly. -/
structure Settings where
  /-- Whether labels and macros that differ in case are different. -/
  caseSensitive : Bool := false
  /-- Whether the first error ends the assembly. -/
  strict : Bool := false
  includeDirs : List Text := []
  /-- Labels that start with this text are local to their module. -/
  localMark : Text := ['_']
  /-- Where the random numbers start; if it is not given, they are others in every pass. -/
  seed : Option Nat := none
  /-- How many statements may be executed between the start of a file and its end, those of the
  files that it includes aside. -/
  maxSteps : Nat := Nat.pow 10 18

/-- A generator of random numbers: the number that it gives between two others, given the bounds of
the numbers that it gave before, the latest first. -/
abbrev Generator := (drawn : List (Int × Int)) → (min max : Int) → Int

/-- The generator that always gives the least number. -/
def Generator.least : Generator :=
  fun _ min _ => min

/-- What is fixed while a pass runs. -/
structure Stage where
  kind : PassKind
  strict : Bool
  maxSteps : Nat
  table : InstructionSet
  /-- The symbols of the pass before. -/
  previous : Symbols
  /-- The reusable labels of the pass before. -/
  previousReusable : ReusableLabels
  /-- The addresses of the variables, by the qualified names of their labels. -/
  allocation : Index Nat
  random : Generator := .least

/-- What an open loop counts. -/
inductive LoopKind where
  /-- A label that runs from its value to a limit. -/
  | counting (name : Text) (value limit step : Float)
  /-- The rounds that are left, the current one included. -/
  | repeating (remaining : Nat)

/-- An open loop. -/
structure OpenLoop where
  file : Nat
  /-- The first statement of the body. -/
  resume : Position
  kind : LoopKind
  /-- How often the end of the body was reached. -/
  iterations : Nat := 0

/-- A variable that is to be placed after the draft pass. -/
structure VarDecl where
  /-- The qualified name of its label. -/
  label : Text
  /-- The module it was declared in. -/
  home : ModuleId
  isTemporary : Bool
  size : Nat
  deriving DecidableEq, Repr

/-- A place in the output where a debugger is to stop. -/
structure Breakpoint where
  address : Nat
  page : Nat
  location : Location
  deriving DecidableEq, Repr

/-- A byte of output and the line that it comes from. -/
structure Emission where
  address : Nat
  page : Nat
  location : Option Location
  value : UInt8
  deriving DecidableEq, Repr

/-- A file opened for reading numbers from it. -/
structure FileHandle where
  path : Text
  position : Nat
  deriving DecidableEq, Repr

/-- A label name that is settled at the end of the pass. -/
structure PendingReference where
  name : Text
  home : ModuleId
  location : Location
  deriving DecidableEq, Repr

/-- What a pass has worked out so far. -/
structure State where
  symbols : Symbols
  reusable : ReusableLabels := {}
  macros : MacroTable
  structs : StructTable := {}
  pages : Pages := {}
  store : SourceStore
  diagnostics : Diagnostics
  /-- The current module. -/
  home : ModuleId := Symbols.noname
  /-- The modules to return to, the innermost first. -/
  homeStack : List ModuleId := []
  nestModules : Bool := false
  localMark : Text
  allLocal : Bool := false
  conditionals : Conditionals := {}
  /-- The open loops, the innermost first. -/
  loops : List OpenLoop := []
  /-- How many loops are open in a body that is being skipped, the skipped one included. -/
  skippedLoops : Nat := 0
  /-- The macro whose body is being collected. -/
  longMacro : Option (Text × Replacement) := none
  /-- The struct that is being declared. -/
  openStruct : Option StructDef := none
  varAreas : List VarArea := []
  varDecls : List VarDecl := []
  /-- The distance from the program counter to the addresses of labels. -/
  relocation : Option Int := none
  /-- The bytes that the first 256 characters stand for. -/
  charMap : Array UInt8 := (Array.range 256).map UInt8.ofNat
  /-- The bounds of the random numbers so far, the latest first. -/
  drawn : List (Int × Int) := []
  handles : Index FileHandle := []
  /-- The file that is being executed. -/
  file : Option Nat := none
  filePath : Text := []
  location : Option Location := none
  /-- How many names a labels pass could not resolve. -/
  unresolved : Nat := 0
  /-- Whether macro slots are being matched, when lookups leave no trace. -/
  quiet : Bool := false
  /-- The labels to export, with the modules that named them. -/
  exports : List (Text × ModuleId) := []
  pendingReferences : Array PendingReference := #[]
  breakpoints : Array Breakpoint := #[]
  emissions : Array Emission := #[]
  binaryMode : Option Text := none
  /-- What the pass has done, the newest step first. -/
  history : List Event := []
  /-- The statements that the pass has passed over as they are written, the newest one first. -/
  asWritten : List Taking := []

/-- The state at the start of a pass. -/
def State.initial (settings : Settings) (store : SourceStore)
    (diagnostics : Diagnostics) : State where
  symbols := Symbols.empty settings.caseSensitive
  macros := { caseSensitive := settings.caseSensitive }
  store := store
  diagnostics := diagnostics
  localMark := settings.localMark

/-- A step of a pass. -/
abbrev PassM := ReaderT Stage (EStateM Fault State)

namespace State

variable (st : State)

/-- How names are seen from a module of the current pass. -/
def scopeAt (home : ModuleId) : Scope :=
  ⟨home, st.localMark, st.allLocal⟩

/-- How names are seen here. -/
def scope : Scope :=
  st.scopeAt st.home

/-- Why a statement is passed over here, if it is. -/
def bypass : Bypass :=
  if st.longMacro.isSome then .collecting
  else if 0 < st.skippedLoops then .skipping
  else .inactive

/-- The address that a label defined here gets. -/
def address : Int :=
  st.pages.pc + st.relocation.getD 0

/-- The label that a name denotes in the tree of this pass. -/
def resolveLabel (name : Text) : Option LabelId :=
  st.symbols.resolve name st.scope

/-- The byte that a character stands for in a literal. -/
def charByte (c : Char) : UInt8 :=
  st.charMap.getD c.toNat (UInt8.ofNat c.toNat)

/-- The state after a diagnostic about the current place. -/
def report (severity : Severity) (message : String) : State :=
  let file := if st.filePath.isEmpty then none else some st.filePath
  let d := ⟨severity, file, st.location.map Location.line, message⟩
  { st with diagnostics := (st.diagnostics.report d).2 }

/-- The state with one more step in its history. -/
def record (event : Event) : State :=
  { st with history := event :: st.history }

end State

/-- The label that a name denotes in the tree of the pass before, and its number there.  The name is
seen from the module there that has the same path as the current one. -/
def Stage.previousEntry (stage : Stage) (st : State) (name : Text) : Option (LabelId × Label) :=
  let home := stage.previous.equivalentModule st.symbols st.home
  (stage.previous.resolve name (st.scopeAt home)).bind fun id =>
    (stage.previous.label? id).map (id, ·)

/-- The label that a name denotes in the tree of the pass before. -/
def Stage.previousLabel (stage : Stage) (st : State) (name : Text) : Option Label :=
  (stage.previousEntry st name).map Prod.snd

/-- The outcome of a computation on a part of a state, for the whole: what has become of the part is
put back, whether the computation succeeds or fails. -/
def putBack {ε σ τ α : Type} (put : τ → σ) (fault : ε → Fault) :
    EStateM.Result ε τ α → EStateM.Result Fault σ α
  | .ok a t => .ok a (put t)
  | .error e t => .error (fault e) (put t)

namespace PassM

/-- Stops the statement because of the way a directive is used. -/
def misuse {α : Type} (cause : DirectiveError) : PassM α :=
  throw (.directive cause)

/-- Goes on with a result, or stops the statement. -/
def ofExcept {ε α : Type} (fault : ε → Fault) : Except ε α → PassM α
  | .ok a => pure a
  | .error e => throw (fault e)

/-- The outcome of a step, a fault included. -/
def observe {α : Type} (step : PassM α) : PassM (Except Fault α) :=
  tryCatch (Except.ok <$> step) fun fault => pure (.error fault)

/-- Reports a diagnostic about the current place. -/
def report (severity : Severity) (message : String) : PassM Unit :=
  modify (·.report severity message)

/-- Adds a step to the history. -/
def record (event : Event) : PassM Unit :=
  modify (·.record event)

/-- Runs a change of the symbol tree. -/
def onSymbols {α : Type} (change : SymbolM α) : PassM α := fun _ st =>
  putBack (fun t => { st with symbols := t }) .symbol (change st.symbols)

/-- Runs a use of the store. -/
def onStore {α : Type} (use : StoreM α) : PassM α := fun _ st =>
  putBack (fun store => { st with store := store }) .file (use st.store)

/-- Defines a label as seen from here. -/
def defineLabel (name : Text) (info : LabelDef) (force : Bool) : PassM LabelId := do
  onSymbols (Symbols.define name (← get).scope info force)

/-- Gives a label a value that may be changed later. -/
def defineConstant (name : Text) (value : Float) (page : Nat) : PassM LabelId := do
  let info : LabelDef :=
    { value := value, page := page, location := (← get).location, flags := { isConstant := true } }
  defineLabel name info true

/-- Enters a module: inside of the current one if modules are nested and there is one, else below
the root. -/
def enterModule (name : Text) : PassM Unit := do
  let st ← get
  let parent := if st.nestModules && st.home != Symbols.noname then st.home else Symbols.root
  let (home, symbols) := st.symbols.enterModule parent name
  set { st with symbols := symbols, home := home, homeStack := st.home :: st.homeStack }

/-- Returns to the module that the current one was entered from. -/
def leaveModule : PassM Unit := do
  match (← get).homeStack with
  | [] => misuse .endmoduleOutside
  | home :: rest => modify fun st => { st with home := home, homeStack := rest }

/-- Moves the program counter on without writing. -/
def advance (count : Nat) : PassM Unit :=
  modify fun st => { st with pages := st.pages.advance count }

/-- Writes one byte of output. -/
def emitByte (value : UInt8) : PassM Unit := do
  let st ← get
  match st.pages.write value with
  | .ok (address, pages) =>
    let emission := ⟨address, pages.current, st.location, value⟩
    set { st with pages := pages, emissions := st.emissions.push emission }
  | .error e => throw (.page e)

/-- Writes bytes of output, up to the first one that has no place. -/
def emitBytes : List UInt8 → PassM Unit
  | [] => pure ()
  | value :: rest => do
    emitByte value
    emitBytes rest

/-- Writes bytes of output.  The labels passes only move the program counter. -/
def emit (bytes : List UInt8) : PassM Unit := do
  if (← read).kind.isLabels then advance bytes.length else emitBytes bytes

/-- Records the references that were made before their labels were defined. -/
def settleReferences : PassM Unit :=
  modify fun st =>
    let symbols := st.pendingReferences.foldl (fun (symbols : Symbols) ref =>
      match symbols.resolve ref.name (st.scopeAt ref.home) with
      | some id => symbols.modifyLabel id fun label =>
          { label with references := label.references.push ref.location }
      | none => symbols) st.symbols
    { st with symbols := symbols }

/-- Records the references that were made before their labels were defined, and forgets them. -/
def resolvePending : PassM Unit := do
  settleReferences
  modify fun st => { st with pendingReferences := #[] }

end PassM

end MacroAssembler
