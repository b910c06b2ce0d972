import MacroAssembler.Directive.Command
import MacroAssembler.Pass.Instruction
import MacroAssembler.Proofs.Expression
import MacroAssembler.Proofs.Source

/-!
# What a step of a pass can change

A pass consists of small changes of its state, and this module says once which ones there are.
They come in two layers.  An `Act` leaves the sources alone, and it leaves the `Course` of the pass
alone, which decides what is executed: it reports something, changes the symbol tree, moves in a
page, writes a byte, or sets what the statements after it depend on.  A `Change` is an act, a change
of the sources or a change of the course.  A change of the sources is that a file is loaded, that a
statement is expanded, or that the row of the instruction table that was found for a statement is
left with it.  A change of the course is made by the directives around branches, on loops and on
macros, and by the statements that are passed over.

Most of a state is nobody's business but that of the next statement.  `Tracked` is the rest: what
theorems about whole passes speak of.  All changes outside of it are one act, `Act.control`.

A constructor carries what was checked before the change was made.  So an invariant of the changes
never has to look into a directive again.

Some changes are only ever made by a statement that then fails.  They are there if the proposition
`failing` holds, so what is shown for all of these propositions is shown with and without them.
-/

namespace MacroAssembler

open Relation

variable {stage : Stage} {st st' : State} {failing : Prop}

/-! ## The symbol tree -/

/-- The flags of a variable that shares its place with nothing. -/
def LabelFlags.permanent : LabelFlags :=
  { isVariable := true }

namespace Symbols

/-- The qualified name of the label with a number. -/
def qualifiedAt (t : Symbols) (id : LabelId) : Text :=
  ((t.label? id).map t.qualifiedName).getD []

/-- The tree with another value for a label. -/
def setValue (t : Symbols) (id : LabelId) (value : Float) : Symbols :=
  t.modifyLabel id fun label => { label with info := { label.info with value := value } }

end Symbols

/-- A change of the symbol tree by a statement in a scope. -/
inductive TreeStep (stage : Stage) (failing : Prop) (scope : Scope) : Symbols → Symbols → Prop
  /-- A label is defined that is not a permanent variable. -/
  | defined {t t' : Symbols} {name : Text} {info : LabelDef} {force : Bool} {id : LabelId}
      (hflags : info.flags ≠ .permanent)
      (h : Symbols.define name scope info force t = .ok id t') : TreeStep stage failing scope t t'
  /-- A definition fails, perhaps after the modules on the way to it were created. -/
  | refused {t t' : Symbols} {name : Text} {info : LabelDef} {force : Bool} {e : SymbolError}
      (h : Symbols.define name scope info force t = .error e t') :
      TreeStep stage failing scope t t'
  /-- A variable is declared, and gets the address where it was placed. -/
  | placed {t t' : Symbols} {name : Text} {info : LabelDef} {id : LabelId} {address : Nat}
      (h : Symbols.define name scope info false t = .ok id t')
      (haddress : stage.allocation.lookup (t'.qualifiedAt id) = some address) :
      TreeStep stage failing scope t (t'.setValue id (Float.ofNat address))
  /-- A variable is declared by a labels pass before it was placed. -/
  | unsettled {t t' : Symbols} {name : Text} {info : LabelDef} {id : LabelId}
      (h : Symbols.define name scope info false t = .ok id t') (hkind : stage.kind ≠ .assemble) :
      TreeStep stage failing scope t (t'.setValue id (Float.ofNat 0))
  /-- A variable is declared that was never placed. -/
  | unplaced {t t' : Symbols} {name : Text} {info : LabelDef} {id : LabelId}
      (h : Symbols.define name scope info false t = .ok id t') (hfailing : failing) :
      TreeStep stage failing scope t t'
  /-- A field of a variable is defined, or is refused. -/
  | field {t : Symbols} {base : LabelId} {path : Text} {info : LabelDef}
      (hflags : info.flags ≠ .permanent) :
      TreeStep stage failing scope t (stateAfter (Symbols.defineMember base path info) t)
  /-- A use of a label is noted, or its export. -/
  | annotated {t : Symbols} {id : LabelId} {f : Label → Label}
      (hname : ∀ label, (f label).name = label.name) (hhome : ∀ label, (f label).home = label.home)
      (hinfo : ∀ label, (f label).info = label.info) :
      TreeStep stage failing scope t (t.modifyLabel id f)
  /-- A module imports another one. -/
  | imported {t : Symbols} {m : ModuleId} {name : Text} :
      TreeStep stage failing scope t (t.addImport m name)

theorem TreeStep.mono {failing failing' : Prop} (hfailing : failing → failing') {scope : Scope}
    {t t' : Symbols}
    (h : TreeStep stage failing scope t t') : TreeStep stage failing' scope t t' := by
  cases h with
  | defined hflags h => exact .defined hflags h
  | refused h => exact .refused h
  | placed h haddress => exact .placed h haddress
  | unsettled h hkind => exact .unsettled h hkind
  | unplaced h h' => exact .unplaced h (hfailing h')
  | field hflags => exact .field hflags
  | annotated hname hhome hinfo => exact .annotated hname hhome hinfo
  | imported => exact .imported

/-! ## The pages -/

/-- A change of the pages that writes nothing. -/
inductive Pages.Step : Pages → Pages → Prop
  | setPc (ps : Pages) (address : Nat) : Pages.Step ps (ps.setPc address)
  | define {ps ps' : Pages} {number origin size : Nat} {fill : Option UInt8}
      (h : ps.define number origin size fill = .ok ps') : Pages.Step ps ps'
  | select {ps ps' : Pages} {number : Nat} (h : ps.select number = .ok ps') : Pages.Step ps ps'
  | emptyFill (ps : Pages) (fill : UInt8) : Pages.Step ps { ps with emptyFill := fill }
  | squish (ps : Pages) (on : Bool) : Pages.Step ps { ps with squish := on }

/-! ## Acts -/

/-- What of a state decides which statements are executed, and in which form. -/
structure Course where
  macros : MacroTable
  longMacro : Option (Text × Replacement)
  conditionals : Conditionals
  loops : List OpenLoop
  skippedLoops : Nat

/-- The course that a pass is on. -/
def State.course (st : State) : Course where
  macros := st.macros
  longMacro := st.longMacro
  conditionals := st.conditionals
  loops := st.loops
  skippedLoops := st.skippedLoops

/-- What of a state its steps are told apart by. -/
structure Tracked where
  symbols : Symbols
  reusable : ReusableLabels
  home : ModuleId
  homeStack : List ModuleId
  pages : Pages
  emissions : Array Emission
  store : SourceStore
  diagnostics : Diagnostics
  varAreas : List VarArea
  varDecls : List VarDecl
  exports : List (Text × ModuleId)
  pendingReferences : Array PendingReference
  course : Course
  history : List Event
  asWritten : List Taking

/-- The tracked part of a state. -/
def State.tracked (st : State) : Tracked where
  symbols := st.symbols
  reusable := st.reusable
  home := st.home
  homeStack := st.homeStack
  pages := st.pages
  emissions := st.emissions
  store := st.store
  diagnostics := st.diagnostics
  varAreas := st.varAreas
  varDecls := st.varDecls
  exports := st.exports
  pendingReferences := st.pendingReferences
  course := st.course
  history := st.history
  asWritten := st.asWritten

/-- If the pass writes output, a label that is defined for an address had an equal value in the pass
before, as far as it is found there. -/
def Stage.Confirms (stage : Stage) (st : State) (name : Text) (address : Float) : Prop :=
  stage.kind = .assemble →
    ∀ before, stage.previousLabel st name = some before → (before.value == address) = true

/-- A change that leaves the sources and the course of the pass alone. -/
inductive Act (stage : Stage) (failing : Prop) : State → State → Prop
  | control {st st' : State} (h : st'.tracked = st.tracked) : Act stage failing st st'
  | report (st : State) (severity : Severity) (message : String) :
      Act stage failing st (st.report severity message)
  | tree {st : State} {t : Symbols} (h : TreeStep stage failing st.scope st.symbols t) :
      Act stage failing st { st with symbols := t }
  /-- A module is entered, below the root or the current module. -/
  | enter (st : State) {parent : ModuleId} {name : Text}
      (hparent : parent = st.home ∨ parent = Symbols.root) (hname : '.' ∉ name) :
      Act stage failing st { st with
        symbols := (st.symbols.enterModule parent name).2
        home := (st.symbols.enterModule parent name).1
        homeStack := st.home :: st.homeStack }
  | leave {st : State} {home : ModuleId} {rest : List ModuleId}
      (h : st.homeStack = home :: rest) :
      Act stage failing st { st with home := home, homeStack := rest }
  | pages {st : State} {ps : Pages} (h : st.pages.Step ps) :
      Act stage failing st { st with pages := ps }
  /-- A byte is written. -/
  | write {st : State} {value : UInt8} {address : Nat} {ps : Pages}
      (h : st.pages.write value = .ok (address, ps)) :
      Act stage failing st { st with
        pages := ps, emissions := st.emissions.push ⟨address, ps.current, st.location, value⟩ }
  /-- A number is taken from a label of the pass before. -/
  | recalled {st : State} {id : LabelId} {label : Label} (aspect : Aspect)
      (h : stage.previous.label? id = some label) :
      Act stage failing st (st.record (.recalled aspect id (label.number aspect)))
  /-- The value of a reusable label that lies ahead is taken from the pass before. -/
  | anticipated {st : State} {target : ReusableRef} {index : Nat} {value : Float}
      (hahead : st.reusable.ahead? target = some index)
      (hvalue : (stage.previousReusable.instances target.polarity target.run)[index]? =
        some value) :
      Act stage failing st (st.record (.anticipated target index value))
  | assigned (st : State) (id : LabelId) : Act stage failing st (st.record (.assigned id))
  /-- A random number is drawn. -/
  | drawn (st : State) (bounds : Int × Int) :
      Act stage failing st ({ st with drawn := bounds :: st.drawn }.record .drawn)
  /-- A label is defined for an address. -/
  | labelled {st : State} {name : Text} {address : Float}
      (h : failing ∨ stage.Confirms st name address) :
      Act stage failing st (st.record (.labelled name st.scope address))
  /-- A name is put among those that are exported at the end of the pass. -/
  | exported (st : State) (name : Text) :
      Act stage failing st
        ({ st with exports := st.exports ++ [(name, st.home)] }.record (.exported name st.scope))
  /-- The use of a label that is not defined yet is put off to the end of the pass. -/
  | awaited (st : State) (name : Text) (location : Location) :
      Act stage failing st
        ({ st with pendingReferences := st.pendingReferences.push ⟨name, st.home, location⟩ }.record
          (.awaited name st.scope location))
  /-- A reusable label is defined. -/
  | reached (st : State) (polarity : Polarity) (run : Nat) (value : Float) :
      Act stage failing st
        ({ st with reusable := st.reusable.define polarity run value }.record
          (.reached polarity run value))
  /-- Statements are passed over as they are written. -/
  | asWritten (st : State) (new : List Taking) :
      Act stage failing st { st with asWritten := new ++ st.asWritten }
  | area (st : State) (start size : Nat) :
      Act stage failing st { st with varAreas := st.varAreas ++ [{ start := start, size := size }] }
  /-- A variable is declared: its label is defined, which must be new, and gets a value. -/
  | declared {st : State} {t : Symbols} {name : Text} {info : LabelDef} {id : LabelId}
      {value : Float} {decl : VarDecl}
      (h : Symbols.define name st.scope info false st.symbols = .ok id t)
      (htree : TreeStep stage failing st.scope st.symbols (t.setValue id value))
      (hlabel : decl.label = t.qualifiedAt id) (hhome : decl.home = st.home) :
      Act stage failing st { st with
        symbols := t.setValue id value, varDecls := st.varDecls ++ [decl] }

theorem Act.mono {failing failing' : Prop} (hfailing : failing → failing')
    (h : Act stage failing st st') : Act stage failing' st st' := by
  cases h with
  | control h => exact .control h
  | report severity message => exact .report st severity message
  | tree h => exact .tree (h.mono hfailing)
  | enter hparent hname => exact .enter st hparent hname
  | leave h => exact .leave h
  | pages h => exact .pages h
  | write h => exact .write h
  | recalled aspect h => exact .recalled aspect h
  | anticipated hahead hvalue => exact .anticipated hahead hvalue
  | assigned id => exact .assigned st id
  | drawn bounds => exact .drawn st bounds
  | labelled h => exact .labelled (h.imp_left hfailing)
  | exported name => exact .exported st name
  | awaited name location => exact .awaited st name location
  | reached polarity run value => exact .reached st polarity run value
  | asWritten new => exact .asWritten st new
  | area start size => exact .area st start size
  | declared h htree hlabel hhome => exact .declared h (htree.mono hfailing) hlabel hhome

/-- An act leaves the sources alone. -/
theorem Act.store_eq (h : Act stage failing st st') : st'.store = st.store := by
  cases h with
  | control h => exact congrArg Tracked.store h
  | _ => rfl

theorem store_eq_of_acts (h : ReflTransGen (Act stage failing) st st') : st'.store = st.store :=
  keeps_of_steps (P := fun s => s.store = st.store)
    (fun _ _ hstep hs => hstep.store_eq.trans hs) h rfl

/-- An act leaves the course of the pass alone. -/
theorem Act.course_eq (h : Act stage failing st st') : st'.course = st.course := by
  cases h with
  | control h => exact congrArg Tracked.course h
  | _ => rfl

theorem course_eq_of_acts (h : ReflTransGen (Act stage failing) st st') : st'.course = st.course :=
  keeps_of_steps (P := fun s => s.course = st.course)
    (fun _ _ hstep hs => hstep.course_eq.trans hs) h rfl

/-- A step in the symbol tree that leaves the rest of a state alone. -/
def TreeAct (stage : Stage) (failing : Prop) (st st' : State) : Prop :=
  ∃ t, TreeStep stage failing st.scope st.symbols t ∧ st' = { st with symbols := t }

theorem TreeAct.act (h : TreeAct stage failing st st') : Act stage failing st st' := by
  obtain ⟨t, hstep, rfl⟩ := h
  exact .tree hstep

theorem exists_of_treeActs (h : ReflTransGen (TreeAct stage failing) st st') :
    ∃ t, ReflTransGen (TreeStep stage failing st.scope) st.symbols t ∧
      st' = { st with symbols := t } := by
  induction h with
  | refl => exact ⟨st.symbols, .refl, rfl⟩
  | tail _ hlast ih =>
    obtain ⟨t, hsteps, rfl⟩ := ih
    obtain ⟨t', hstep, rfl⟩ := hlast
    exact ⟨t', hsteps.tail hstep, rfl⟩

/-- Changes of the symbol tree are acts, one by one. -/
theorem Act.ofTree {st : State} {t : Symbols}
    (h : ReflTransGen (TreeStep stage failing st.scope) st.symbols t) :
    ReflTransGen (Act stage failing) st { st with symbols := t } := by
  induction h with
  | refl => exact .refl
  | @tail t t' _ hstep ih =>
    have hact : Act stage failing { st with symbols := t } { st with symbols := t' } :=
      Act.tree hstep
    exact ih.tail hact

theorem EvalStep.act (h : EvalStep stage st st') : Act stage failing st st' := by
  cases h with
  | reference id location =>
    exact .tree (.annotated (fun _ => rfl) (fun _ => rfl) fun _ => rfl)
  | pending name location => exact .awaited st name location
  | unresolved count => exact .control rfl
  | recalled aspect id label hlabel => exact .recalled aspect hlabel
  | anticipated hahead hvalue => exact .anticipated hahead hvalue

/-! ## Values -/

/-- A step of working out a value: one of an expression, or a warning about what came out of it. -/
inductive ValueStep (stage : Stage) : State → State → Prop
  | eval {st st' : State} (h : EvalStep stage st st') : ValueStep stage st st'
  | warned (st : State) (message : String) :
      ValueStep stage st (st.report .warning message)

theorem ValueStep.act (h : ValueStep stage st st') : Act stage failing st st' := by
  cases h with
  | eval h => exact h.act
  | warned message => exact .report st .warning message

theorem ValueStep.pages_eq (h : ValueStep stage st st') : st'.pages = st.pages := by
  cases h with
  | eval h => cases h <;> rfl
  | warned => rfl

/-- A part of a pass that works out a value, and does nothing else. -/
def WorksOut (stage : Stage) {α : Type} (m : PassM α) : Prop :=
  Performs (ValueStep stage) stage m

namespace WorksOut

variable {stage : Stage} {α : Type} {m : PassM α}

theorem performs {failing : Prop} (h : WorksOut stage m) : Performs (Act stage failing) stage m :=
  h.mono fun _ _ hstep => hstep.act

/-- Values are worked out without a look at the output. -/
theorem pages_eq (h : WorksOut stage m) (st : State) :
    (stateAfter (m stage) st).pages = st.pages :=
  keeps_of_steps (P := fun s => s.pages = st.pages)
    (fun _ _ hstep hs => hstep.pages_eq.trans hs) (h st) rfl

end WorksOut

/-! ## Changes -/

/-- The instruction in a text, behind whatever labels. -/
def instructionOf (text : Text) (column0 : Bool) : Option (Text × Text) :=
  match _h : Command.ofText text column0 with
  | .instruct mnemonic operands => some (mnemonic, operands)
  | .label _ rest => instructionOf rest false
  | .blank | .directive _ _ | .assign _ _ => none
termination_by text.length
decreasing_by exact Command.length_lt_of_ofText _h

theorem instructionOf_of_label {text name rest : Text} {column0 : Bool}
    (h : Command.ofText text column0 = .label name rest) :
    instructionOf text column0 = instructionOf rest false := by
  rw [instructionOf]
  split
  · next h' => rw [h] at h'; cases h'
  · next h' => rw [h] at h'; cases h'; rfl
  all_goals next h' => rw [h] at h'; cases h'

theorem instructionOf_of_instruct {text mnemonic operands : Text} {column0 : Bool}
    (h : Command.ofText text column0 = .instruct mnemonic operands) :
    instructionOf text column0 = some (mnemonic, operands) := by
  rw [instructionOf]
  split
  · next h' => rw [h] at h'; cases h'; rfl
  all_goals next h' => rw [h] at h'; cases h'

/-- A use of the store that changes it. -/
inductive SourceStore.Step : SourceStore → SourceStore → Prop
  | load (store : SourceStore) (path text : Text) : SourceStore.Step store
      { store with files := store.files.push (SourceFile.ofText path text) }
  | binary {store : SourceStore} {path : Text} (bytes : List UInt8)
      (hnew : SourceStore.atPath store.binaries path = none) : SourceStore.Step store
      { store with binaries := (path, bytes) :: store.binaries }

/-- A step of a pass. -/
inductive Change (stage : Stage) (failing : Prop) : State → State → Prop
  | act {st st' : State} (h : Act stage failing st st') : Change stage failing st st'
  /-- A file is read. -/
  | files {st : State} {store : SourceStore} (h : st.store.Step store) :
      Change stage failing st { st with store := store }
  /-- A statement is found to hold no macros. -/
  | expanded (st : State) (file : Nat) (pos : Position) :
      Change stage failing st { st with store := (st.store.modifyFile file fun source =>
        source.modifyStatement pos fun s => { s with expanded := true }) }
  /-- A statement is replaced by the ones that its macros stand for. -/
  | spliced {st : State} {file : Nat} {pos : Position} {s : Statement} (text : Text)
      (hs : st.store.statementAt file pos = some s) (hnew : s.expanded = false) :
      Change stage failing st
        ({ st with store := st.store.modifyFile file (·.splice pos text) }.record
          (.spliced file pos (Source.expandedStatements s.column0 text).length))
  /-- The row that was found for an instruction is left with its statement. -/
  | matched {st : State} {file : Nat} {pos : Position} {s : Statement} {mnemonic operands : Text}
      {found : Match} (hs : st.store.statementAt file pos = some s) (hexpanded : s.expanded = true)
      (hins : instructionOf s.text s.column0 = some (mnemonic, operands))
      (hfind : stage.table.find mnemonic operands = some found) :
      Change stage failing st
        ({ st with store := (st.store.modifyFile file fun source =>
            source.modifyStatement pos fun s =>
              { s with row := some ⟨stage.kind, Text.squeeze operands, found⟩ }) }.record
          (.matched file pos))
  /-- The row that was left with a statement is taken up, or refused. -/
  | encoded {st : State} {file : Nat} {pos : Position} {s : Statement} {mnemonic operands : Text}
      (hs : st.store.statementAt file pos = some s)
      (hins : instructionOf s.text s.column0 = some (mnemonic, operands)) :
      Change stage failing st
        (st.record (.encoded file pos (some s) (PassM.settledRow s.row mnemonic operands)))
  /-- A branch begins or a conditional block ends. -/
  | branches (st : State) (after : Conditionals) :
      Change stage failing st { st with conditionals := after }
  /-- A macro is defined, extended or removed, or the body of one is collected. -/
  | macros (st : State) (longMacro : Option (Text × Replacement)) (macros : MacroTable) :
      Change stage failing st { st with longMacro := longMacro, macros := macros }
  /-- The head of a loop is executed. -/
  | entered {st : State} (h : st.skippedLoops = 0) (loop : OpenLoop) :
      Change stage failing st ({ st with loops := loop :: st.loops }.record .entered)
  /-- The innermost loop goes into its next round. -/
  | nextRound {st : State} {inner : OpenLoop} {outer : List OpenLoop}
      (h : st.loops = inner :: outer) (kind : LoopKind) (iterations : Nat) :
      Change stage failing st
        { st with loops := { inner with kind := kind, iterations := iterations } :: outer }
  /-- The innermost loop has had its last round. -/
  | left {st : State} {inner : OpenLoop} {outer : List OpenLoop} (hskipped : st.skippedLoops = 0)
      (h : st.loops = inner :: outer) :
      Change stage failing st ({ st with loops := outer }.record .left)
  /-- Loops are given up, by a statement that fails or after an error was reported. -/
  | abandoned {st : State} (loops : List OpenLoop)
      (h : failing ∨ st.diagnostics.errorCount ≠ 0) :
      Change stage failing st { st with loops := loops }
  /-- The head of a loop without rounds is executed. -/
  | skipped {st : State} (h : st.skippedLoops = 0) :
      Change stage failing st ({ st with skippedLoops := 1 }.record .skipped)
  /-- The head of a loop is passed over. -/
  | passedHead {st : State} (h : 0 < st.skippedLoops) :
      Change stage failing st ({ st with skippedLoops := st.skippedLoops + 1 }.record .passedHead)
  /-- The end of a loop is passed over. -/
  | passedEnd {st : State} (h : 0 < st.skippedLoops) :
      Change stage failing st ({ st with skippedLoops := st.skippedLoops - 1 }.record .passedEnd)

theorem Change.mono {failing failing' : Prop} (hfailing : failing → failing')
    (h : Change stage failing st st') : Change stage failing' st st' := by
  cases h with
  | act h => exact .act (h.mono hfailing)
  | files h => exact .files h
  | expanded file pos => exact .expanded st file pos
  | spliced text hs hnew => exact .spliced text hs hnew
  | matched hs hexpanded hins hfind => exact .matched hs hexpanded hins hfind
  | encoded hs hins => exact .encoded hs hins
  | branches after => exact .branches st after
  | macros longMacro macros => exact .macros st longMacro macros
  | entered h loop => exact .entered h loop
  | nextRound h kind iterations => exact .nextRound h kind iterations
  | left hskipped h => exact .left hskipped h
  | abandoned loops h => exact .abandoned loops (h.imp_left hfailing)
  | skipped h => exact .skipped h
  | passedHead h => exact .passedHead h
  | passedEnd h => exact .passedEnd h

/-! ## The history -/

/-- What is known of a step that is added to the history in a state. -/
def Event.Justified (stage : Stage) (failing : Prop) (st : State) : Event → Prop
  | .recalled aspect id number =>
    ∃ label, stage.previous.label? id = some label ∧ number = label.number aspect
  | .labelled name scope address =>
    scope = st.scope ∧ (failing ∨ stage.Confirms st name address)
  | .exported _ scope | .awaited _ scope _ => scope = st.scope
  | .anticipated target index value =>
    st.reusable.ahead? target = some index ∧
      (stage.previousReusable.instances target.polarity target.run)[index]? = some value
  | .encoded file pos statement outcome =>
    ∃ s mnemonic operands, statement = some s ∧ st.store.statementAt file pos = some s ∧
      instructionOf s.text s.column0 = some (mnemonic, operands) ∧
      outcome = PassM.settledRow s.row mnemonic operands
  | .assigned _ | .reached _ _ _ | .matched _ _ | .spliced _ _ _ | .entered | .skipped
  | .passedHead | .passedEnd | .left | .drawn => True

/-- A change adds at most one step to the history. -/
theorem Change.history_eq (h : Change stage failing st st') :
    st'.history = st.history ∨
      ∃ event : Event, st'.history = event :: st.history ∧ event.Justified stage failing st := by
  cases h with
  | act h =>
    cases h with
    | control h => exact .inl (congrArg Tracked.history h)
    | recalled aspect h => exact .inr ⟨_, rfl, _, h, rfl⟩
    | anticipated hahead hvalue => exact .inr ⟨_, rfl, hahead, hvalue⟩
    | assigned | drawn => exact .inr ⟨_, rfl, trivial⟩
    | labelled h => exact .inr ⟨_, rfl, rfl, h⟩
    | exported name => exact .inr ⟨_, rfl, rfl⟩
    | awaited name location => exact .inr ⟨_, rfl, rfl⟩
    | reached polarity run value => exact .inr ⟨_, rfl, trivial⟩
    | _ => exact .inl rfl
  | spliced | matched | entered | left | skipped | passedHead | passedEnd =>
    exact .inr ⟨_, rfl, trivial⟩
  | encoded hs hins => exact .inr ⟨_, rfl, _, _, _, rfl, hs, hins, rfl⟩
  | _ => exact .inl rfl

/-! ## Quiet changes -/

/-- A file is read as bytes for the first time. -/
def SourceStore.Reads (store store' : SourceStore) : Prop :=
  ∃ path bytes, SourceStore.atPath store.binaries path = none ∧
    store' = { store with binaries := (path, bytes) :: store.binaries }

/-- A change that leaves the course of the pass and the wordings of the sources alone. -/
structure Quiet (stage : Stage) (failing : Prop) (st st' : State) : Prop where
  change : Change stage failing st st'
  course_eq : st'.course = st.course
  wordings_eq : ∀ file, st'.store.wordings file = st.store.wordings file

namespace Quiet

variable {stage : Stage} {failing : Prop} {st st' : State}

theorem act (h : Act stage failing st st') : Quiet stage failing st st' :=
  ⟨.act h, h.course_eq, fun _ => by rw [h.store_eq]⟩

theorem reads {store : SourceStore} (h : st.store.Reads store) :
    Quiet stage failing st { st with store := store } := by
  obtain ⟨path, bytes, hnew, rfl⟩ := h
  exact ⟨.files (.binary bytes hnew), rfl, fun _ => rfl⟩

end Quiet

end MacroAssembler
