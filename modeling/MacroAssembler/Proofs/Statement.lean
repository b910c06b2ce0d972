import MacroAssembler.Pass.Run
import MacroAssembler.Proofs.Directive

/-!
# The parts of a statement

Files that are read, instructions, labels and the expansion of macros are sequences of changes, with
any outcome.

The row that a labels pass finds for an instruction is left with the statement at the current
position.  That this is the statement that holds the instruction, and that its macros have been
expanded by then, depends on what was executed before it in the same statement.  So these parts are
treated from the state that they start in.
-/

namespace MacroAssembler

open Relation PassM PerformsFrom

variable {stage : Stage} {failing : Prop}

/-! ## Files -/

namespace SourceStore

theorem load_follows (path : Text) : Follows Step (load path) := by
  intro store
  refine .get_bind ?_
  have hload : ∀ text, LeadsFrom Step store (do
      set { store with files := store.files.push (SourceFile.ofText path text) }
      return store.files.size : StoreM Nat) :=
    fun text => .single (.load store path text)
  cases store.loaded? path with
  | some id => exact .refl
  | none =>
    cases atPath store.memory path with
    | some text => exact hload text
    | none =>
      dsimp only
      cases store.disk.readText path with
      | ok text => exact hload text
      | error e => exact .refl

theorem binary_follows (path : Text) : Follows Reads (binary path) := by
  intro store
  refine .get_bind ?_
  cases hnew : atPath store.binaries path with
  | some bytes => exact .refl
  | none =>
    have hread : ∀ bytes, LeadsFrom Reads store (do
        set { store with binaries := (path, bytes) :: store.binaries }
        return bytes : StoreM (List UInt8)) :=
      fun bytes => .single ⟨path, bytes, hnew, rfl⟩
    cases atPath store.memory path with
    | some text => exact hread _
    | none =>
      dsimp only
      cases store.disk.readBytes path with
      | ok bytes => exact hread bytes
      | error e => exact .refl

end SourceStore

namespace PassM

theorem onStore_apply {α : Type} {use : StoreM α} {st : State} : onStore use stage st =
    match use st.store with
    | .ok a store => .ok a { st with store := store }
    | .error e store => .error (.file e) { st with store := store } := by
  rw [onStore]
  cases use st.store <;> rfl

/-- A use of the store takes the steps that the store takes. -/
theorem onStore_performs {α : Type} {use : StoreM α} {step : State → State → Prop}
    {storeStep : SourceStore → SourceStore → Prop} (h : Follows storeStep use)
    (hstep : ∀ (st : State) (store : SourceStore), storeStep st.store store →
      step st { st with store := store }) : Performs step stage (onStore use) := by
  intro st
  have hsteps : ReflTransGen step st { st with store := stateAfter use st.store } :=
    ReflTransGen.lift (fun store => { st with store := store })
      (fun store _ h => hstep { st with store := store } _ h) _ _ (h st.store)
  rw [PerformsFrom, LeadsFrom, stateAfter, onStore_apply]
  cases hrun : use st.store with
  | ok a store => rwa [stateAfter_of_ok hrun] at hsteps
  | error e store => rwa [stateAfter_of_error hrun] at hsteps

theorem resolvePath_performs (arg : Text) :
    Performs (Quiet stage failing) stage (resolvePath arg) :=
  Performs.bind Performs.get fun _ => Performs.ofExcept _ _

theorem readBinary_performs (path : Text) :
    Performs (Quiet stage failing) stage (readBinary path) :=
  onStore_performs (SourceStore.binary_follows path) fun _ _ => .reads

end PassM

namespace BinaryDirective

theorem handle_serves (name : Text) : Serves (Act stage failing) stage (handle name) := by
  refine .get_bind (fun st => ?_) fun _ _ => rfl
  split
  · exact .pure _
  · exact .misuse _

theorem setHandle_serves (name : Text) (handle : FileHandle) :
    Serves (Act stage failing) stage (setHandle name handle) :=
  .control (fun _ => rfl) fun _ _ => rfl

/-- A number of bytes goes to a label. -/
theorem defineNumber_serves (label : Text) (value : Float) :
    Serves (Act stage failing) stage (do let _ ← PassM.defineConstant label value 0 : PassM Unit) :=
  .bind (defineConstant_serves label value 0) fun _ => .pure _

section

variable {P : ∀ {α : Type}, PassM α → Prop} (hP : Closed PassM P)
variable (hserves : ∀ {α : Type} {m : PassM α}, Serves (Act stage False) stage m → P m)
variable (hread : ∀ path, P (PassM.readBinary path))
include hP hserves hread

theorem readInto_has (name label : Text) (widthArg : Option Text) :
    P (readInto name label widthArg) := by
  have hrest (width : Nat) : P
      (if width < 1 ∨ 8 < width then PassM.misuse (.badReadWidth width)
      else do
        let file ← handle name
        let bytes := ((← PassM.readBinary file.path).drop file.position).take width
        if bytes.length < width then PassM.misuse (.readPastEnd file.path)
        else
          setHandle name { file with position := file.position + width }
          let _ ← PassM.defineConstant label (Float.ofNat (ofLeBytes bytes)) 0) := by
    refine iteInduction (fun _ => hP.throw _) fun _ => ?_
    refine hP.bind (hserves (handle_serves name)) fun file => hP.bind
      (hread file.path) fun data => ?_
    refine iteInduction (fun _ => hP.throw _) fun _ => ?_
    exact hP.bind (hserves (setHandle_serves name _)) fun _ => hserves (defineNumber_serves label _)
  cases widthArg with
  | some arg => exact hP.bind (hserves (evalAddress_serves arg).act) hrest
  | none => exact hP.bind (hP.pure 1) hrest

/-- **The directives on binary files do nothing with the sources but find files and read them.** -/
theorem run_has (hresolve : ∀ arg, P (PassM.resolvePath arg)) (d : BinaryDirective)
    (name rest : Text) : P (d.run name rest) := by
  unfold run
  dsimp only
  split
  · refine iteInduction (fun _ => hP.throw _) fun _ => hP.bind (hresolve _) fun path => ?_
    refine hP.bind (hP.optionMapM (fun arg => hserves (evalAddress_serves arg).act)
      _) fun start => ?_
    refine hP.bind (hP.optionMapM (fun arg => hserves (evalAddress_serves arg).act) _)
      fun length => ?_
    exact hP.bind (hread path) fun data => hserves (emit_serves _)
  · exact hP.throw _
  · refine hP.bind (hresolve _) fun path => hP.bind (hread path) fun _ => ?_
    exact hserves (setHandle_serves _ _)
  · exact readInto_has hP hserves hread _ _ _
  · exact readInto_has hP hserves hread _ _ _
  · exact hP.throw _
  · refine hP.bind (hserves (evalAddress_serves _).act) fun offset => ?_
    exact hP.bind (hserves (handle_serves _)) fun file => hserves (setHandle_serves _ _)
  · refine hP.bind (hserves (handle_serves _)) fun file => hP.bind (hread file.path) fun data => ?_
    exact hserves (defineNumber_serves _ _)
  · exact hP.throw _
  · exact hP.throw _
  · exact hP.throw _
  · refine hP.bind (hserves (handle_serves _)) fun _ => hserves ?_
    exact .control (fun _ => rfl) fun _ _ => rfl
  · exact hP.throw _

end

theorem run_performs (d : BinaryDirective) (name rest : Text) :
    Performs (Quiet stage failing) stage (d.run name rest) :=
  run_has Performs.closed (fun h => h.performs.mono fun _ _ hact => .act (hact.mono False.elim))
    readBinary_performs resolvePath_performs d name rest

end BinaryDirective

/-! ## Labels for addresses -/

/-- The definition of a label for the current address. -/
def State.addressLabel (st : State) : LabelDef :=
  { value := Value.ofInt st.address, page := st.pages.current, location := st.location }

/-- A state in which a label for the current address has been noted, with another tree. -/
def State.noted (st : State) (name : Text) (t : Symbols) : State :=
  { st.record (.labelled name st.scope (Value.ofInt st.address)) with symbols := t }

/-! ## Statements that are passed over as they are written -/

/-- The statement at a position, as it is passed over if it has not been expanded. -/
def State.written (st : State) (file : Nat) (pos : Position) : List Taking :=
  (((st.store.statementAt file pos).filter (!·.expanded)).map fun s =>
    ⟨file, pos, s.text, st.bypass⟩).toList

/-- The state in which a statement is executed. -/
def State.executing (st : State) (file : Nat) (pos : Position) : State :=
  { st with asWritten := st.written file pos ++ st.asWritten }

/-! ## Instructions -/

namespace PassM

section Instructions

variable {st : State} {file : Nat} {pos : Position} {s : Statement} {mnemonic operands : Text}

theorem findInstruction_performsFrom (hs : st.store.statementAt file pos = some s)
    (hexpanded : s.expanded = true)
    (hins : instructionOf s.text s.column0 = some (mnemonic, operands)) :
    PerformsFrom (Quiet stage failing) stage st (findInstruction file pos mnemonic operands) := by
  refine read_bind ?_
  cases hfind : stage.table.find mnemonic operands with
  | none => exact Performs.throw _ st
  | some found =>
    have hstep : Quiet stage failing st _ := ⟨.matched hs hexpanded hins hfind, rfl,
      fun id => st.store.wordings_modifyStatement file id pos fun _ => rfl⟩
    exact ReflTransGen.head hstep ((advance_serves _).performs.quiet _)

theorem encodeInstruction_serves (ins : Instruction) (args : List Text) :
    Serves (ValueStep stage) stage (encodeInstruction ins args) :=
  .bind (.mapM fun arg _ => evalInt_serves arg) fun _ =>
    .get_bind (fun _ => .ofExcept _ _) fun _ _ => rfl

/-- An instruction that can not be encoded is passed over, and fails. -/
theorem encodeOrSkip_serves (ins : Instruction) (args : List Text) :
    Serves (Act stage failing) stage (do
      match ← observe (encodeInstruction ins args) with
      | .ok bytes => emit bytes
      | .error fault =>
        advance ins.size
        throw fault) := by
  have hencode : Serves (ValueStep stage) stage (encodeInstruction ins args) :=
    encodeInstruction_serves ins args
  refine ⟨Performs.bind (Performs.observe hencode.act.performs) fun outcome => ?_,
    CarriesIf.bind (Carries.observe hencode.carries) (fun outcome st u st' hrun _ => ?_) ?_⟩
  · cases outcome with
    | ok bytes => exact (emit_serves bytes).performs
    | error fault => exact .bind (advance_serves _).performs fun _ => Performs.throw _
  · cases outcome with
    | ok bytes => exact ⟨bytes, rfl⟩
    | error fault => cases hrun
  · rintro outcome ⟨bytes, rfl⟩
    exact (show Serves (Act stage False) stage (emit bytes) from emit_serves bytes).carries

theorem emitInstruction_performsFrom (hs : st.store.statementAt file pos = some s)
    (hins : instructionOf s.text s.column0 = some (mnemonic, operands)) :
    PerformsFrom (Quiet stage failing) stage st (emitInstruction file pos mnemonic operands) := by
  refine get_bind ?_
  have hfile : (st.store.file file).statement? pos = some s := hs
  rw [hfile]
  dsimp only [Option.bind_some]
  refine modify_bind (.single ⟨.encoded hs hins, rfl, fun _ => rfl⟩) ?_
  cases settledRow s.row mnemonic operands with
  | error detail => exact Performs.throw _ _
  | ok found =>
    refine Performs.quiet (Performs.read_bind ?_) _
    cases stage.table.row? found.index with
    | none => exact .throw _
    | some ins => exact (encodeOrSkip_serves ins found.args).performs

theorem instruction_performsFrom (hs : st.store.statementAt file pos = some s)
    (hexpanded : s.expanded = true)
    (hins : instructionOf s.text s.column0 = some (mnemonic, operands)) :
    PerformsFrom (Quiet stage failing) stage st (instruction file pos mnemonic operands) := by
  refine read_bind ?_
  split
  · exact findInstruction_performsFrom hs hexpanded hins
  · exact emitInstruction_performsFrom hs hins

end Instructions

/-! ## Statements -/

theorem assign_serves (name value : Text) :
    Serves (Act stage failing) stage (assign name value) := by
  refine .bind (eval_serves value).act fun value => .get_bind (fun st => ?_) fun _ _ => rfl
  refine .bind (defineConstant_serves name value _) fun id => ?_
  exact ⟨.modify fun st => .assigned st id, Carries.record _⟩

/-- The check of an address passes or fails, and changes nothing. -/
theorem checkPhase_cases (stage : Stage) (name : Text) (address : Float) (st : State) :
    (stage.Confirms st name address ∧ checkPhase name address stage st = .ok () st) ∨
    ∃ fault, checkPhase name address stage st = .error fault st := by
  rw [checkPhase, read_bind_apply]
  by_cases hkind : (stage.kind == .assemble) = true
  · rw [if_pos hkind, PassM.get_bind_apply]
    cases hbefore : stage.previousLabel st name with
    | none =>
      refine .inl ⟨fun _ before h => ?_, rfl⟩
      rw [hbefore] at h
      cases h
    | some before =>
      dsimp only
      cases hvalue : before.value == address with
      | true =>
        rw [bne, hvalue]
        refine .inl ⟨fun _ before' h => ?_, rfl⟩
        rw [hbefore] at h
        cases h
        exact hvalue
      | false =>
        rw [bne, hvalue]
        exact .inr ⟨_, rfl⟩
  · rw [if_neg hkind]
    exact .inl ⟨fun h => absurd (beq_iff_eq.2 h) hkind, rfl⟩

/-- A label for the current address is noted and goes to the tree, and then its address is
checked. -/
theorem defineAddressLabel_apply {name : Text} (hname : ReusableRef.ofDefinition name = none)
    (st : State) : defineAddressLabel name stage st =
      match Symbols.define name st.scope st.addressLabel false st.symbols with
      | .ok _ t => checkPhase name (Value.ofInt st.address) stage (st.noted name t)
      | .error e t => .error (.symbol e) (st.noted name t) := by
  let noted := st.noted name st.symbols
  have hrun : defineAddressLabel name stage st =
      (onSymbols (Symbols.define name st.scope st.addressLabel false) >>= fun _ =>
        checkPhase name (Value.ofInt st.address)) stage noted := by
    rw [defineAddressLabel, PassM.get_bind_apply]
    dsimp only
    rw [hname]
    rfl
  have hsymbols : noted.symbols = st.symbols := rfl
  rw [hrun]
  cases hdef : Symbols.define name st.scope st.addressLabel false st.symbols with
  | error e t =>
    have hdefine : onSymbols (Symbols.define name st.scope st.addressLabel false) stage noted =
        .error (.symbol e) (st.noted name t) := by
      rw [onSymbols_apply, hsymbols, hdef]
      rfl
    rw [PassM.bind_of_error hdefine]
  | ok id t =>
    have hdefine : onSymbols (Symbols.define name st.scope st.addressLabel false) stage noted =
        .ok id (st.noted name t) := by
      rw [onSymbols_apply, hsymbols, hdef]
      rfl
    rw [PassM.bind_of_ok hdefine]

/-- The definition of a label and the note of it are made in either order.  Unless the statement
fails, the note comes last, so that the address was checked. -/
theorem defineAddressLabel_actsFrom (name : Text) (st : State) :
    ActsFrom stage st (defineAddressLabel name) := by
  rw [ActsFrom]
  cases hname : ReusableRef.ofDefinition name with
  | some target =>
    rw [defineAddressLabel, PassM.get_bind_apply]
    dsimp only
    rw [hname]
    exact ReflTransGen.single (.reached st _ _ _)
  | none =>
    -- a statement that fails may leave the note of an address that was not checked
    have hfailing : Act stage True st (st.noted name st.symbols) := .labelled (.inl trivial)
    rw [defineAddressLabel_apply hname]
    cases hdef : Symbols.define name st.scope st.addressLabel false st.symbols with
    | error e t =>
      have hrefused : Act stage True (st.noted name st.symbols) (st.noted name t) :=
        .tree (.refused hdef)
      exact (ReflTransGen.single hfailing).tail hrefused
    | ok id t =>
      have hflags : st.addressLabel.flags ≠ .permanent :=
        show ({} : LabelFlags) ≠ .permanent by decide
      rcases checkPhase_cases stage name (Value.ofInt st.address) (st.noted name t) with
        ⟨hconfirms, hcheck⟩ | ⟨fault, hcheck⟩
      · have hdefined : Act stage False st { st with symbols := t } := .tree (.defined hflags hdef)
        have hlabelled : Act stage False { st with symbols := t } (st.noted name t) :=
          .labelled (.inr hconfirms)
        dsimp only
        rw [hcheck]
        exact (ReflTransGen.single hdefined).tail hlabelled
      · have hdefined : Act stage True (st.noted name st.symbols) (st.noted name t) :=
          .tree (.defined hflags hdef)
        dsimp only
        rw [hcheck]
        exact (ReflTransGen.single hfailing).tail hdefined

theorem checkPhase_carries (name : Text) (address : Float) :
    Carries stage (checkPhase name address) := by
  refine .read_bind (iteInduction (fun _ => ?_) fun _ => Carries.pure _) fun _ => rfl
  refine Carries.get_bind (fun st => ?_) fun _ _ => rfl
  split
  · exact iteInduction (fun _ => Carries.misuse _) fun _ => Carries.pure _
  · exact Carries.pure _

theorem defineAddressLabel_carries (name : Text) : Carries stage (defineAddressLabel name) := by
  intro terms hterms st w
  rw [defineAddressLabel, PassM.get_bind_apply, PassM.get_bind_apply]
  dsimp only
  cases ReusableRef.ofDefinition name with
  | some target => exact .ok [_] rfl
  | none =>
    have hrest : Carries stage (do
        record (.labelled name st.scope (Value.ofInt st.address))
        let _ ← defineLabel name st.addressLabel false
        checkPhase name (Value.ofInt st.address)) :=
      Carries.bind (Carries.record _) fun _ =>
        Carries.bind (defineLabel_carries name _ false) fun _ => checkPhase_carries name _
    exact hrest terms hterms st w

variable {runFile : Option (Nat → PassM Bool)}
variable {pos : Position} {st : State} {file : Nat} {s : Statement}

/-- Active code may execute a statement: either its macros have been expanded, or it is passed
over. -/
def Ready (st : State) (s : Statement) : Prop :=
  st.longMacro.isSome = true ∨ 0 < st.skippedLoops ∨ st.conditionals.active = false ∨
    s.expanded = true

theorem collect_steps (st : State) (text : Text) :
    ReflTransGen (Change stage failing) st (st.collect text) := by
  unfold State.collect
  split
  · exact .refl
  · split
    · exact .single (.macros st _ _)
    · exact .single (.macros st _ _)

theorem skip_steps (hskipped : 0 < st.skippedLoops) (text : Text) :
    ReflTransGen (Change stage failing) st (st.skip text) := by
  unfold State.skip
  split
  · exact .single (.passedHead hskipped)
  · exact .single (.passedHead hskipped)
  · exact .single (.passedEnd hskipped)
  · exact .refl

/-- A statement whose macros are not to be expanded is ready. -/
theorem ready_of_unexpanded_eq_none (hs : st.store.statementAt file pos = some s)
    (h : unexpanded st file pos = none) : Ready st s := by
  have hfile : (st.store.file file).statement? pos = some s := hs
  unfold unexpanded at h
  rw [hfile] at h
  by_cases hskip : (st.longMacro.isSome || decide (0 < st.skippedLoops)) = true
  · rw [Bool.or_eq_true, decide_eq_true_eq] at hskip
    rcases hskip with hmacro | hloops
    · exact .inl hmacro
    · exact .inr (.inl hloops)
  · rw [if_neg hskip, Option.filter_some] at h
    by_cases hexpanded : s.expanded = true
    · exact .inr (.inr (.inr hexpanded))
    · refine .inr (.inr (.inl ?_))
      simp_all

/-- A statement whose macros are to be expanded is there, and they have not been expanded yet. -/
theorem statementAt_of_unexpanded (h : unexpanded st file pos = some s) :
    st.store.statementAt file pos = some s ∧ s.expanded = false := by
  unfold unexpanded at h
  split at h
  · cases h
  · obtain ⟨hs, hnew⟩ := Option.filter_eq_some_iff.1 h
    refine ⟨hs, ?_⟩
    rw [Bool.and_eq_true, Bool.not_eq_true'] at hnew
    exact hnew.1

theorem replaceStatement_performsFrom (hs : st.store.statementAt file pos = some s)
    (hnew : s.expanded = false)
    (text : Text) :
    PerformsFrom (Change stage failing) stage st (replaceStatement file pos s text) := by
  unfold replaceStatement
  split
  · exact .modify (.single (.expanded st file pos))
  · exact ReflTransGen.single (.spliced text hs hnew)

/-- What stands at the place of a statement after the expansion of its macros is expanded. -/
theorem expanded_of_replaceStatement {st st' : State} {s s' : Statement} {text : Text} {u : Unit}
    (hs : st.store.statementAt file pos = some s)
    (hrun : replaceStatement file pos s text stage st = .ok u st')
    (hs' : st'.store.statementAt file pos = some s') : s'.expanded = true := by
  unfold replaceStatement at hrun
  split at hrun
  · cases hrun
    rw [SourceStore.statementAt_modifyStatement, if_pos ⟨rfl, rfl⟩, hs] at hs'
    cases hs'
    rfl
  · cases hrun
    have hstore :
        (st.store.modifyFile file (·.splice pos text)).statementAt file pos = some s' := hs'
    rw [SourceStore.statementAt_splice _ hs] at hstore
    -- the first of the new statements takes the place of the old one
    obtain ⟨first, rest, hparts⟩ : ∃ first rest, Text.splitTopLevel '\\' text = first :: rest :=
      ⟨_, _, rfl⟩
    simp [Source.expandedStatements, hparts] at hstore
    rw [← hstore]

/-- How a statement is expanded. -/
theorem expandStatement_apply (file : Nat) (pos : Position) (st : State) :
    expandStatement file pos stage st =
      match unexpanded st file pos with
      | none => .ok () st
      | some s =>
        ((if Command.namesMacros s.text s.column0 then pure s.text else expandMacros s.text) >>=
          replaceStatement file pos s) stage st := by
  have hrun : expandStatement file pos stage st = (match unexpanded st file pos with
      | none => (pure () : PassM Unit)
      | some s => do
        let text ← if Command.namesMacros s.text s.column0 then pure s.text else expandMacros s.text
        replaceStatement file pos s text) stage st := rfl
  rw [hrun]
  cases unexpanded st file pos with
  | none => rfl
  | some s =>
    dsimp only
    split
    · rfl
    · rfl

/-- Without macros a text stays as it is. -/
theorem expandMacros_of_isEmpty (h : st.macros.isEmpty = true) (text : Text) :
    expandMacros text stage st = .ok text st := by
  rw [expandMacros_apply, if_pos h]

theorem expandedText_performs (s : Statement) : Performs (Act stage failing) stage
    (if Command.namesMacros s.text s.column0 then pure s.text else expandMacros s.text) :=
  iteInduction (fun _ => Performs.pure _) fun _ => expandMacros_performs s.text

theorem expandStatement_performs (file : Nat) (pos : Position) :
    Performs (Change stage failing) stage (expandStatement file pos) := by
  intro st
  rw [PerformsFrom, LeadsFrom, stateAfter, expandStatement_apply]
  cases h : unexpanded st file pos with
  | none => exact .refl
  | some s =>
    obtain ⟨hs, hnew⟩ := statementAt_of_unexpanded h
    have htext : Performs (Act stage failing) stage _ := expandedText_performs s
    refine PerformsFrom.bind (htext.change st) fun text st' hrun => ?_
    refine replaceStatement_performsFrom ?_ hnew text
    rw [htext.store_eq hrun]
    exact hs

theorem ready_of_expandStatement {st st' : State} {u : Unit} {s' : Statement}
    (hrun : expandStatement file pos stage st = .ok u st')
    (hs' : st'.store.statementAt file pos = some s') : Ready st' s' := by
  rw [expandStatement_apply] at hrun
  cases h : unexpanded st file pos with
  | none =>
    rw [h] at hrun
    cases hrun
    exact ready_of_unexpanded_eq_none hs' h
  | some s =>
    rw [h] at hrun
    obtain ⟨hs, hnew⟩ := statementAt_of_unexpanded h
    have htext : Performs (Act stage False) stage _ := expandedText_performs s
    dsimp only at hrun
    cases hfirst : (if Command.namesMacros s.text s.column0 then (pure s.text : PassM Text)
        else expandMacros s.text) stage st with
    | error fault st₁ =>
      rw [bind_of_error hfirst] at hrun
      cases hrun
    | ok text st₁ =>
      rw [bind_of_ok hfirst] at hrun
      refine .inr (.inr (.inr (expanded_of_replaceStatement ?_ hrun hs')))
      rw [htext.store_eq hfirst]
      exact hs

theorem reach_apply (file : Nat) (pos : Position) (st : State) :
    reach file pos stage st = match expandStatement file pos stage st with
      | .ok _ st' => .ok (st'.store.statementAt file pos) (st'.executing file pos)
      | .error fault st' => .error fault st' := by
  rw [reach]
  cases hrun : expandStatement file pos stage st with
  | error fault st' => rw [PassM.bind_of_error hrun]
  | ok u st' =>
    rw [PassM.bind_of_ok hrun]
    rfl

/-- A statement that was reached has been expanded, and stands there in this form. -/
theorem expandStatement_of_reach {st st' : State} {s : Option Statement}
    (hrun : reach file pos stage st = .ok s st') :
    ∃ st₁, expandStatement file pos stage st = .ok () st₁ ∧
      s = st₁.store.statementAt file pos ∧ st' = st₁.executing file pos := by
  rw [reach_apply] at hrun
  split at hrun
  next st₁ heq =>
    cases hrun
    exact ⟨st₁, heq, rfl, rfl⟩
  next => cases hrun

theorem reach_performs (file : Nat) (pos : Position) :
    Performs (Change stage failing) stage (reach file pos) := by
  intro st
  have hexpand : PerformsFrom (Change stage failing) stage st (expandStatement file pos) :=
    expandStatement_performs file pos st
  rw [PerformsFrom, LeadsFrom, stateAfter] at hexpand ⊢
  rw [reach_apply]
  split at hexpand
  next u st' heq =>
    rw [heq]
    exact hexpand.tail (.act (.asWritten st' (st'.written file pos)))
  next fault st' heq =>
    rw [heq]
    exact hexpand

theorem Ready.executing (h : Ready st s) (file : Nat) (pos : Position) :
    Ready (st.executing file pos) s :=
  h

end PassM

end MacroAssembler
