import MacroAssembler.Instruction.Z80
import MacroAssembler.Pass.Run

/-!
# Assembling a program

A program is assembled in three passes over its sources.  The draft pass finds out which labels
and variables there are.  Then the variables are placed.  The final labels pass gives every label
its address, with the addresses of the draft pass for labels that lie ahead, and the assembling
pass writes the output with the labels of the pass before.

An assembler keeps its sources from one assembly to the next, with their macros expanded.
-/

namespace MacroAssembler

/-- What an assembly produces. -/
structure Output where
  pages : Pages
  symbols : Symbols
  breakpoints : Array Breakpoint
  emissions : Array Emission
  binaryMode : Option Text
  /-- The paths of the sources, by the numbers of the files in locations. -/
  files : List Text

namespace Output

variable (output : Output)

/-- The images of all pages, in the order of their numbers. -/
def binary : List UInt8 :=
  output.pages.binary

/-- The exported labels and their values, in the order of definition. -/
def exports : List (Text × Float) :=
  (output.symbols.labels.toList.filter Label.isExported).map fun label =>
    (output.symbols.displayName label, label.value)

/-- The value of a label as seen from outside of all modules. -/
def label (name : Text) : Option Float :=
  (output.symbols.resolve name ⟨Symbols.noname, ['_'], false⟩).bind fun id =>
    (output.symbols.label? id).map Label.value

end Output

/-! ## Placing the variables -/

/-- The temporary variables that were declared in some modules. -/
def temporariesIn (decls : List VarDecl) (modules : List ModuleId) : List VarRequest :=
  (decls.filter fun d => d.isTemporary && modules.contains d.home).map fun d => ⟨d.label, d.size⟩

/-- The children of a module, in the order of creation. -/
def Symbols.childrenOf (t : Symbols) (m : ModuleId) : List ModuleId :=
  (t.moduleAt m).childOrder

/-- The temporary variables of a module and of the modules in it.  A child always comes after its
parent. -/
def temporaryScope (t : Symbols) (decls : List VarDecl) (m : ModuleId) : TempScope :=
  let children := (t.childrenOf m).filter fun c => m < c && c < t.modules.size
  .node (temporariesIn decls [m]) (children.attach.map fun c => temporaryScope t decls c.1)
termination_by t.modules.size - m
decreasing_by
  have h := (List.mem_filter.1 c.2).2
  simp only [Bool.and_eq_true, decide_eq_true_eq] at h
  exact Nat.sub_lt_sub_left (Nat.lt_trans h.1 h.2) h.1

/-- The temporary variables of a program.  Those outside of all declared modules come first. -/
def temporaryScopes (t : Symbols) (decls : List VarDecl) : TempScope :=
  .node (temporariesIn decls Symbols.roots)
    ((Symbols.roots.flatMap t.childrenOf).map (temporaryScope t decls))

/-- The addresses of the variables of a program, by the qualified names of their labels. -/
def placeVariables (draft : State) : Except SymbolError (Index Nat) :=
  let permanent := (draft.varDecls.filter (!·.isTemporary)).map fun d => ⟨d.label, d.size⟩
  let place : AreaM (List (Text × Nat)) := do
    let placed ← VarArea.allocate permanent
    return placed ++ (← VarArea.allocateScoped (temporaryScopes draft.symbols draft.varDecls))
  match place.run draft.varAreas with
  | .ok placed _ => .ok (placed.foldl (fun index (name, address) => index.put name address) [])
  | .error e _ => .error e

/-! ## The passes -/

/-- Where random numbers come from. -/
structure RandomSource where
  /-- The generator that starts from a seed. -/
  seeded : Nat → Generator := fun _ => .least
  /-- The generators that the passes of an assembly get without a seed. -/
  entropy : PassKind → Generator := fun _ => .least

/-- An assembler: its choices, its instruction table, the sources it has read, the diagnostics of
its last assembly, and the random numbers of the next one. -/
structure Assembler where
  settings : Settings := {}
  table : InstructionSet := Z80.instructionSet
  store : SourceStore := {}
  diagnostics : Diagnostics := {}
  random : RandomSource := {}

/-- A step of an assembly. -/
abbrev AssemblyM := EStateM Fault Assembler

namespace Assembler

/-- An assembler with nothing read. -/
def new (settings : Settings) (table : InstructionSet) (disk : Disk) : Assembler where
  settings := settings
  table := table
  store := { includeDirs := settings.includeDirs, disk := disk }

/-- Reports a diagnostic that is not about a place. -/
def report (severity : Severity) (message : String) : AssemblyM Unit :=
  modify fun a =>
    { a with diagnostics := (a.diagnostics.report ⟨severity, none, none, message⟩).2 }

/-- Ends the assembly if there have been errors. -/
def stopOnErrors : AssemblyM Unit := do
  let errors := (← get).diagnostics.errorCount
  if errors ≠ 0 then throw (.aborted errors)

/-- The random numbers of a pass: from the seed if there is one, else new ones. -/
def generator (a : Assembler) (kind : PassKind) : Generator :=
  match a.settings.seed with
  | some seed => a.random.seeded seed
  | none => a.random.entropy kind

/-- What is fixed in a pass, given what the pass before found out. -/
def stage (a : Assembler) (kind : PassKind) (previous : Symbols)
    (previousReusable : ReusableLabels) (allocation : Index Nat) : Stage where
  kind := kind
  strict := a.settings.strict
  maxSteps := a.settings.maxSteps
  table := a.table
  previous := previous
  previousReusable := previousReusable
  allocation := allocation
  random := a.generator kind

/-- Runs one pass, given what the pass before found out. -/
def runPass (kind : PassKind) (previous : Symbols) (previousReusable : ReusableLabels)
    (allocation : Index Nat) (main : Nat) : AssemblyM State := fun a =>
  match PassM.runSource main (a.stage kind previous previousReusable allocation)
    (State.initial a.settings a.store a.diagnostics) with
  | .ok () st => .ok st { a with store := st.store, diagnostics := st.diagnostics }
  | .error fault st =>
    .error fault { a with store := st.store, diagnostics := st.diagnostics }

/-- Loads the main file of a program. -/
def loadMain (path : Text) : AssemblyM Nat := fun a =>
  putBack (fun store => { a with store := store }) .file (SourceStore.load path a.store)

/-- Warns of the stretches of a page that were written more than once. -/
def warnOfOverlaps (page : Page) : AssemblyM Unit :=
  page.overlaps.forM fun (first, last) =>
    report .warning
      s!"page {page.number}: ${hexWord first}-${hexWord last} written more than once"

/-- The output of a program, when its assembling pass is done and there have been no errors. -/
def conclude (done : State) : AssemblyM Output := do
  done.pages.toList.forM warnOfOverlaps
  stopOnErrors
  return {
    pages := done.pages, symbols := done.symbols, breakpoints := done.breakpoints,
    emissions := done.emissions, binaryMode := done.binaryMode,
    files := (← get).store.paths }

/-- Assembles a program from its main file. -/
def assemble (path : Text) : AssemblyM Output := do
  modify fun a => { a with diagnostics := {}, store := a.store.clearRows }
  let main ← loadMain path
  let draft ← runPass .draft (Symbols.empty (← get).settings.caseSensitive) {} [] main
  stopOnErrors
  match placeVariables draft with
  | .error e =>
    report .error e.message
    throw (.aborted (← get).diagnostics.errorCount)
  | .ok allocation =>
    let final ← runPass .final draft.symbols draft.reusable allocation main
    conclude (← runPass .assemble final.symbols final.reusable allocation main)

end Assembler

end MacroAssembler
