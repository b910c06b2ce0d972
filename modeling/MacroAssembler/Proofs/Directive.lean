import MacroAssembler.Pass.Execute
import MacroAssembler.Proofs.Carries

/-!
# What directives do

Every directive consists of changes, whatever its arguments are and whether it succeeds or fails;
the ones that neither read files nor decide what is executed consist of acts.  All of them come to
the same in other surroundings but those that read files and those that look at the open loops.  The
lemmas go through the directives in the order of their parts: the values of expressions first, then
output, symbols, control and storage.  The declaration of a variable and the end of a loop are the
only ones that make a change of their own when they fail.

An argument of a list of values that fails is observed, and the list goes on behind it; but then the
list fails in the end, so the arguments of a list that succeeds have all succeeded.
-/

namespace MacroAssembler

open Relation PassM

variable {stage : Stage} {failing : Prop}

/-! ## Expressions and macros -/

namespace PassM

theorem eval_serves (text : Text) : Serves (ValueStep stage) stage (eval text) := by
  refine ⟨fun st => ?_, eval_carries text⟩
  have hsteps : LeadsFrom (ValueStep stage) st (evaluate (stage.environment st.quiet) text) :=
    (evaluate_has Follows.closedIn (stage.environment_follows _) text st).mono fun _ _ h => .eval h
  rw [LeadsFrom, stateAfter] at hsteps
  rw [PerformsFrom, LeadsFrom, stateAfter, eval_apply]
  cases h : evaluate (stage.environment st.quiet) text st with
  | ok value st' =>
    rw [h] at hsteps
    exact hsteps
  | error e st' =>
    rw [h] at hsteps
    dsimp only
    by_cases hmissing : (stage.kind.isLabels && decide (st.unresolved < st'.unresolved)) = true
    · rw [if_pos hmissing]
      exact hsteps
    · rw [if_neg hmissing]
      exact hsteps

theorem evalInt_serves (text : Text) : Serves (ValueStep stage) stage (evalInt text) := by
  refine .bind (eval_serves text) fun value => ?_
  refine .unlessStrict (c := fun strict => strict && !Value.isWhole value) ?_ (.pure _)
  intro strict strict' hle h
  rw [Bool.and_eq_true] at h ⊢
  exact ⟨hle h.1, h.2⟩

theorem evalAddress_serves (text : Text) : Serves (ValueStep stage) stage (evalAddress text) :=
  .bind (evalInt_serves text) fun _ => iteInduction (fun _ => .pure _) fun _ => .misuse _

theorem expandMacros_apply (stage : Stage) (text : Text) (st : State) : expandMacros text stage st =
    if st.macros.isEmpty then .ok text st
    else match st.macros.expand stage.slotValue text (st.withMacros {} true) with
      | .ok text st' => .ok text (st'.withMacros st.macros st.quiet)
      | .error e st' => .error (.macroUse e) (st'.withMacros st.macros st.quiet) := by
  rw [expandMacros, read_bind_apply, PassM.get_bind_apply, EStateM.run]
  split
  · rfl
  · cases st.macros.expand stage.slotValue text (st.withMacros {} true) with
    | ok text st' => rfl
    | error e st' => rfl

/-- Expanding macros evaluates slots quietly, and does nothing else. -/
theorem expandMacros_performs_of {step : State → State → Prop}
    (hslot : ∀ text st, st.quiet = true → ReflTransGen step st (stage.slotValue text st).2)
    (hstep : ∀ st st', step st st' → st'.quiet = st.quiet ∧
      ∀ macros quiet, step (st.withMacros macros quiet) (st'.withMacros macros quiet))
    (text : Text) : Performs step stage (expandMacros text) := by
  intro st
  -- nothing is said of a slot that is not evaluated quietly, and there is none
  have hsteps : LeadsFrom (fun s s' => s.quiet = false ∨ step s s') (st.withMacros {} true)
      (st.macros.expand stage.slotValue text) := by
    refine MacroTable.expand_has (Follows.closedIn (R := Eq)).toClosed
      (fun slot => Follows.modifyGet fun s => ?_) text _
    cases hquiet : s.quiet with
    | false => exact .single (.inl hquiet)
    | true => exact ReflTransGen.mono (fun _ _ => .inr) _ _ (hslot slot s hquiet)
  have hback : ∀ s, ReflTransGen (fun s s' => s.quiet = false ∨ step s s')
      (st.withMacros {} true) s → s.quiet = true ∧
        ReflTransGen step st (s.withMacros st.macros st.quiet) := by
    intro s h
    induction h with
    | refl => exact ⟨rfl, .refl⟩
    | tail _ hlast ih =>
      rcases hlast with hquiet | hlast
      · cases ih.1.symm.trans hquiet
      · obtain ⟨hquiet, hput⟩ := hstep _ _ hlast
        exact ⟨hquiet.trans ih.1, ih.2.tail (hput _ _)⟩
  rw [LeadsFrom] at hsteps
  rw [PerformsFrom, LeadsFrom]
  by_cases hempty : st.macros.isEmpty = true
  · rw [stateAfter_of_ok ((expandMacros_apply stage text st).trans (if_pos hempty))]
  have happly := (expandMacros_apply stage text st).trans (if_neg hempty)
  cases h : st.macros.expand stage.slotValue text (st.withMacros {} true) with
  | ok expanded st' =>
    rw [h] at happly
    rw [stateAfter_of_ok h] at hsteps
    rw [stateAfter_of_ok happly]
    exact (hback st' hsteps).2
  | error e st' =>
    rw [h] at happly
    rw [stateAfter_of_error h] at hsteps
    rw [stateAfter_of_error happly]
    exact (hback st' hsteps).2

theorem expandMacros_performs (text : Text) :
    Performs (Act stage failing) stage (expandMacros text) := by
  have hslot : ∀ text st, st.quiet = true →
      ReflTransGen (EvalStep stage) st (stage.slotValue text st).2 :=
    fun text st _ => stage.slotValue_leads (stage.environment_follows _) text
  refine (expandMacros_performs_of hslot (fun st st' h => ?_) text).mono fun _ _ => EvalStep.act
  cases h with
  | reference id location => exact ⟨rfl, fun _ _ => .reference _ id location⟩
  | pending name location => exact ⟨rfl, fun _ _ => .pending _ name location⟩
  | unresolved count => exact ⟨rfl, fun _ _ => .unresolved _ count⟩
  | recalled aspect id label h => exact ⟨rfl, fun _ _ => .recalled _ aspect id label h⟩
  | anticipated hahead hvalue => exact ⟨rfl, fun _ _ => .anticipated _ hahead hvalue⟩

/-! ## Output -/

theorem report_serves (severity : Severity) (message : String) :
    Serves (Act stage failing) stage (report severity message) :=
  .modify (fun st => .report st severity message) (fun _ => rfl) fun _ _ => rfl

theorem advance_serves (count : Nat) : Serves (Act stage failing) stage (advance count) :=
  .modify (fun st => .pages (.setPc st.pages _)) (fun _ => rfl) fun _ _ => rfl

theorem emitByte_serves (value : UInt8) : Serves (Act stage failing) stage (emitByte value) := by
  refine ⟨.get_bind fun st => ?_, fun terms hterms st w => ?_⟩
  · split
    next address ps h => exact PerformsFrom.set (.single (.write h))
    next e h => exact Performs.throw _ st
  · have hpages : (st.within w).pages = st.pages := rfl
    rw [emitByte, PassM.get_bind_apply, PassM.get_bind_apply, hpages]
    cases st.pages.write value with
    | ok written => exact .ok [] rfl
    | error e => exact .error

theorem emitBytes_serves (bytes : List UInt8) :
    Serves (Act stage failing) stage (emitBytes bytes) := by
  induction bytes with
  | nil => exact .pure _
  | cons value rest ih => exact .bind (emitByte_serves value) fun _ => ih

theorem emit_serves (bytes : List UInt8) : Serves (Act stage failing) stage (emit bytes) := by
  refine .read_bind ?_ fun _ => rfl
  exact iteInduction (fun _ => advance_serves _) fun _ => emitBytes_serves bytes

theorem checkRange_serves (value : Int) (width : Nat) :
    Serves (ValueStep stage) stage (checkRange value width) := by
  refine iteInduction (fun _ => .pure _) fun _ => ?_
  refine .unlessStrict (c := fun strict => strict) (fun _ _ hle => hle) ?_
  exact .modify (fun st => .warned st _) (fun _ => rfl) fun _ _ => rfl

theorem evalCount_serves (arg : Text) : Serves (ValueStep stage) stage (evalCount arg) :=
  .bind (evalInt_serves arg) fun _ => iteInduction (fun _ => .pure _) fun _ => .misuse _

end PassM

namespace DataDirective

/-- The argument of a list has a value. -/
def Emitted.Sound (item : Emitted) : Prop :=
  item.fault = none

/-- A value that is worked out is observed, and something is put out for it. -/
theorem observed_serves {α : Type} {m : PassM α} (hm : Serves (ValueStep stage) stage m)
    {put : Except Fault α → PassM Emitted} {item : α → Emitted} {bytes : List UInt8}
    (hok : ∀ value, put (.ok value) = pure (item value))
    (herror : ∀ fault, put (.error fault) = pure ⟨bytes, some fault⟩) :
    WorksOut stage (PassM.observe m >>= put) ∧
      CarriesIf stage Emitted.Sound (PassM.observe m >>= put) := by
  refine ⟨Performs.bind (Performs.observe hm.performs) fun outcome => ?_,
    CarriesIf.bind (Carries.observe hm.carries) (fun outcome st item st' hrun hsound => ?_) ?_⟩
  · cases outcome with
    | ok value => exact hok value ▸ Performs.pure _
    | error fault => exact herror fault ▸ Performs.pure _
  · cases outcome with
    | ok value => exact ⟨value, rfl⟩
    | error fault =>
      rw [herror] at hrun
      cases hrun
      cases hsound
  · rintro outcome ⟨value, rfl⟩
    exact hok value ▸ (Carries.pure _).ofIf

theorem checked_serves (width : Nat) (arg : Text) : Serves (ValueStep stage) stage (do
    let value ← PassM.evalInt arg
    PassM.checkRange value width
    return value) :=
  .bind (evalInt_serves arg) fun value =>
    .bind (checkRange_serves value width) fun _ => .pure value

theorem integer_worksOut (width : Nat) (arg : Text) : WorksOut stage (integer width arg) := by
  unfold integer
  split
  · exact .bind Performs.get fun st => Performs.pure _
  · refine .read_bind (iteInduction (fun _ => Performs.pure _) fun _ => ?_)
    exact (observed_serves (checked_serves width arg) (fun _ => rfl) fun _ => rfl).1

theorem integer_carries (width : Nat) (arg : Text) :
    CarriesIf stage Emitted.Sound (integer width arg) := by
  unfold integer
  split
  · exact Carries.get_bind (fun _ => (Carries.pure _).ofIf) fun _ _ => rfl
  · refine Carries.read_bind (iteInduction (fun _ => (Carries.pure _).ofIf) fun _ =>
      ?_) fun _ => rfl
    exact (observed_serves (checked_serves width arg) (fun _ => rfl) fun _ => rfl).2

theorem float_worksOut (arg : Text) : WorksOut stage (float arg) :=
  Performs.read_bind (iteInduction (fun _ => Performs.pure _) fun _ =>
    (observed_serves (eval_serves arg) (fun _ => rfl) fun _ => rfl).1)

theorem float_carries (arg : Text) : CarriesIf stage Emitted.Sound (float arg) :=
  Carries.read_bind (iteInduction (fun _ => (Carries.pure _).ofIf) fun _ =>
    (observed_serves (eval_serves arg) (fun _ => rfl) fun _ => rfl).2) fun _ => rfl

theorem emitAll_serves (name : Text) (args : List Text) {item : Text → PassM Emitted}
    (hitem : ∀ arg, WorksOut stage (item arg))
    (hcarries : ∀ arg, CarriesIf stage Emitted.Sound (item arg)) :
    Serves (Act stage failing) stage (emitAll name args item) := by
  refine iteInduction (fun _ => .misuse _) fun _ => ?_
  refine .bind_of_carriesIf (Performs.closed.mapM fun arg _ => (hitem arg).performs)
    (CarriesIf.mapM fun arg _ => hcarries arg) (fun items st u st' hrun => ?_) fun items => ?_
  · obtain ⟨_, st₁, -, hrun⟩ := bind_eq_ok hrun
    cases hfault : items.findSome? Emitted.fault with
    | none => exact List.findSome?_eq_none_iff.1 hfault
    | some fault =>
      rw [hfault] at hrun
      cases hrun
  · refine .bind (emit_serves _) fun _ => ?_
    split
    · exact .throw _
    · exact .pure _

theorem emitCopies_serves (value : UInt8) (count : Nat) :
    Serves (Act stage failing) stage (emitCopies value count) := by
  induction count with
  | zero => exact .pure _
  | succ count ih => exact .bind (emitByte_serves value) fun _ => ih

theorem fillWith_serves (countArg : Text) (byteArg : Option Text) :
    Serves (Act stage failing) stage (fillWith countArg byteArg) := by
  refine .bind (evalCount_serves countArg).act fun count => ?_
  cases byteArg with
  | none => exact advance_serves count
  | some arg =>
    refine .read_bind (iteInduction (fun _ => advance_serves count) fun _ => ?_) fun _ => rfl
    refine .bind (evalInt_serves arg).act fun value => ?_
    refine .bind (checkRange_serves value 1).act fun _ => ?_
    exact emitCopies_serves _ count

theorem alignTo_serves (arg : Text) : Serves (Act stage failing) stage (alignTo arg) := by
  refine .bind (evalInt_serves arg).act fun boundary => ?_
  refine iteInduction (fun _ => .misuse _) fun _ => ?_
  exact .get_bind (fun _ => advance_serves _) fun _ _ => rfl

theorem run_serves (d : DataDirective) (name rest : Text) :
    Serves (Act stage failing) stage (d.run name rest) := by
  unfold run
  dsimp only
  split
  · exact emitAll_serves name _ (integer_worksOut _) (integer_carries _)
  · exact emitAll_serves name _ float_worksOut float_carries
  · exact fillWith_serves _ _
  · exact fillWith_serves _ _
  · exact fillWith_serves _ _
  · exact fillWith_serves _ _
  · exact .misuse _
  · exact .misuse _
  · exact alignTo_serves _
  · exact .misuse _

end DataDirective

namespace SeriesDirective

/-- A number is drawn, and it is noted that one was. -/
theorem draw_apply (min max : Int) (stage : Stage) (st : State) :
    draw min max stage st = .ok (stage.random st.drawn min max)
      ({ st with drawn := (min, max) :: st.drawn }.record .drawn) :=
  rfl

theorem draw_serves (min max : Int) : Serves (Act stage failing) stage (draw min max) := by
  refine ⟨fun st => ?_, fun terms hterms st w => ?_⟩
  · exact .single (.drawn st (min, max))
  · rw [draw_apply, draw_apply]
    rintro _ _ ⟨⟩ -
    refine ⟨[.drawn], rfl, fun hdraw => ?_⟩
    rw [show (stage.under terms).random = stage.random from hdraw List.mem_cons_self]
    rfl

theorem drawAll_serves (min max : Int) (width : Nat) (bytes : Array UInt8) (count : Nat) :
    Serves (Act stage failing) stage (drawAll min max width bytes count) := by
  induction count generalizing bytes with
  | zero => exact .pure _
  | succ count ih =>
    exact .bind (draw_serves min max) fun value => ih _

theorem randomTable_serves (width : Nat) (countArg minArg maxArg : Text) :
    Serves (Act stage failing) stage (randomTable width countArg minArg maxArg) := by
  refine .bind (evalCount_serves countArg).act fun count => ?_
  refine .read_bind (iteInduction (fun _ => ?_) fun _ => ?_) fun _ => rfl
  · exact advance_serves (count * width % addressSpace)
  refine .bind (evalInt_serves minArg).act fun min => ?_
  refine .bind (evalInt_serves maxArg).act fun max => ?_
  refine iteInduction (fun _ => .misuse _) fun _ => ?_
  refine .bind (checkRange_serves min width).act fun _ => ?_
  refine .bind (checkRange_serves max width).act fun _ => ?_
  exact .bind (drawAll_serves min max width #[] count) fun _ => emit_serves _

theorem entryBytes_serves (width : Nat) (entries : Array Int) :
    Serves (ValueStep stage) stage (entryBytes width entries) := by
  rw [entryBytes, ← Array.foldlM_toList]
  generalize entries.toList = values, #[] = bytes
  induction values generalizing bytes with
  | nil => exact .pure _
  | cons value rest ih =>
    rw [List.foldlM_cons]
    refine .bind ?_ ih
    exact .bind (checkRange_serves value width) fun _ => .pure _

theorem waveTable_serves (shape : WaveShape) (width : Nat) (args : List Text) (name : Text) :
    Serves (Act stage failing) stage (waveTable shape width args name) := by
  unfold waveTable
  split
  · refine .bind (eval_serves _).act fun angles => ?_
    refine .bind (eval_serves _).act fun amplitude => ?_
    refine .bind (eval_serves _).act fun first => ?_
    refine .bind (eval_serves _).act fun last => ?_
    refine .bind (eval_serves _).act fun step => ?_
    refine .bind (eval_serves _).act fun offset => ?_
    refine .bind (.ofExcept _ _) fun entries => ?_
    refine .read_bind (iteInduction (fun _ => advance_serves _) fun _ => ?_) fun _ => rfl
    exact .bind (entryBytes_serves width entries).act fun _ => emit_serves _
  · exact .misuse _

theorem run_serves (d : SeriesDirective) (name rest : Text) :
    Serves (Act stage failing) stage (d.run name rest) := by
  unfold run
  dsimp only
  split
  · exact randomTable_serves _ _ _ _
  · exact .misuse _
  · exact waveTable_serves _ _ _ name

end SeriesDirective

theorem mapCharacters_serves (firstArg lastArg expr : Text) :
    Serves (Act stage failing) stage (mapCharacters firstArg lastArg expr) := by
  refine .bind (evalInt_serves firstArg).act fun first => ?_
  refine .bind (evalInt_serves lastArg).act fun last => ?_
  refine iteInduction (fun _ => .misuse _) fun _ => .forM fun code _ => ?_
  refine .bind (evalInt_serves _).act fun value => ?_
  refine .bind (checkRange_serves value 1).act fun _ => ?_
  exact .control (fun _ => rfl) fun _ _ => rfl

theorem runCharMap_serves (name rest : Text) :
    Serves (Act stage failing) stage (runCharMap name rest) := by
  unfold runCharMap
  split
  · exact mapCharacters_serves _ _ _
  · exact mapCharacters_serves _ _ _
  · exact .misuse _

/-! ## Pages -/

/-- A directive that takes one argument. -/
theorem oneArgument_serves {f : Text → PassM Unit}
    (hf : ∀ arg, Serves (Act stage failing) stage (f arg)) (name : Text) (args : List Text) :
    Serves (Act stage failing) stage (match args with
      | [arg] => f arg
      | _ => PassM.misuse (.argumentCount name 1 1 args.length)) := by
  split
  · exact hf _
  · exact .misuse _

namespace PlacementDirective

/-- The pages are changed, or they are left as they were. -/
theorem changePages_serves {change : Pages → Except PageError Pages}
    (hchange : ∀ ps ps', change ps = .ok ps' → ps.Step ps') : Serves (Act stage failing) stage (do
      let ps ← PassM.ofExcept Fault.page (change (← get).pages)
      modify fun st => { st with pages := ps }) := by
  refine ⟨.get_bind fun st => ?_, Carries.get_bind (fun st => ?_) fun _ _ => rfl⟩
  · cases h : change st.pages with
    | ok ps => exact .modify_bind (.single (.pages (hchange _ _ h))) (Performs.pure _ _)
    | error e => exact Performs.throw _ st
  · exact Carries.bind (Carries.closed.ofExcept _ _) fun _ => Carries.modify []
      (fun _ => rfl) fun _ _ => rfl

theorem definePageAt_serves (numberArg originArg sizeArg : Text) (fillArg : Option Text) :
    Serves (Act stage failing) stage (definePageAt numberArg originArg sizeArg fillArg) := by
  refine .bind (evalAddress_serves numberArg).act fun number => ?_
  refine .bind (evalAddress_serves originArg).act fun origin => ?_
  refine .bind (evalAddress_serves sizeArg).act fun size => ?_
  refine .bind (Serves.closed.optionMapM (fun arg => ?_) fillArg) fun fill => ?_
  · exact .bind (evalInt_serves arg).act fun _ => .pure _
  · exact changePages_serves fun _ _ => .define

theorem run_serves (d : PlacementDirective) (name rest : Text) :
    Serves (Act stage failing) stage (d.run name rest) := by
  cases d with
  | origin =>
    refine oneArgument_serves (fun arg => ?_) name _
    refine .bind (evalAddress_serves arg).act fun address => ?_
    exact .modify (fun st => .pages (.setPc st.pages address)) (fun _ => rfl) fun _ _ => rfl
  | definePage =>
    unfold run
    dsimp only
    split
    · exact definePageAt_serves _ _ _ _
    · exact definePageAt_serves _ _ _ _
    · exact .misuse _
  | selectPage =>
    refine oneArgument_serves (fun arg => ?_) name _
    refine .bind (evalAddress_serves arg).act fun number => ?_
    exact changePages_serves fun _ _ => .select
  | emptyFill =>
    refine oneArgument_serves (fun arg => ?_) name _
    refine .bind (evalInt_serves arg).act fun value => ?_
    exact .modify (fun st => .pages (.emptyFill st.pages _)) (fun _ => rfl) fun _ _ => rfl
  | squish on =>
    exact .modify (fun st => .pages (.squish st.pages on)) (fun _ => rfl) fun _ _ => rfl
  | relocate =>
    refine oneArgument_serves (fun arg => .get_bind (fun st => ?_) fun _ _ => rfl) name _
    refine iteInduction (fun _ => .misuse _) fun _ => ?_
    refine .bind (evalInt_serves arg).act fun address => ?_
    exact .control (fun _ => rfl) fun _ _ => rfl
  | endRelocate =>
    refine .get_bind (fun st => iteInduction (fun _ => .misuse _) fun _ => ?_) fun _ _ => rfl
    exact .control (fun _ => rfl) fun _ _ => rfl
  | binaryMode =>
    refine oneArgument_serves (fun arg => ?_) name _
    exact .control (fun _ => rfl) fun _ _ => rfl

end PlacementDirective

/-! ## Names and modules -/

namespace PassM

section OnSymbols

variable {α : Type} {change : SymbolM α} {st : State}

theorem onSymbols_apply : onSymbols change stage st =
    match change st.symbols with
    | .ok a t => .ok a { st with symbols := t }
    | .error e t => .error (.symbol e) { st with symbols := t } := by
  rw [onSymbols]
  cases change st.symbols <;> rfl

theorem onSymbols_performsFrom
    (h : TreeStep stage failing st.scope st.symbols (stateAfter change st.symbols)) :
    PerformsFrom (TreeAct stage failing) stage st (onSymbols change) := by
  have hafter : stateAfter (onSymbols change stage) st =
      { st with symbols := stateAfter change st.symbols } := by
    rw [stateAfter, onSymbols_apply, stateAfter]
    cases change st.symbols with
    | ok a t => rfl
    | error e t => rfl
  rw [PerformsFrom, LeadsFrom, hafter]
  exact .single ⟨_, h, rfl⟩

theorem onSymbols_carries (change : SymbolM α) : Carries stage (onSymbols change) := by
  intro terms hterms st w
  have hsymbols : (st.within w).symbols = st.symbols := rfl
  rw [onSymbols_apply, onSymbols_apply, hsymbols]
  cases change st.symbols with
  | ok a t => exact .ok [] rfl
  | error e t => exact .error

end OnSymbols

theorem defineLabel_carries (name : Text) (info : LabelDef) (force : Bool) :
    Carries stage (defineLabel name info force) :=
  Carries.get_bind (fun _ => onSymbols_carries _) fun _ _ => rfl

/-- A definition that is not one of a permanent variable. -/
theorem defineLabel_serves (name : Text) {info : LabelDef} (hflags : info.flags ≠ .permanent)
    (force : Bool) : Serves (Act stage failing) stage (defineLabel name info force) := by
  refine ⟨.get_bind fun st => (onSymbols_performsFrom ?_).mono fun _ _ => TreeAct.act,
    defineLabel_carries name info force⟩
  cases h : Symbols.define name st.scope info force st.symbols with
  | ok id t =>
    rw [stateAfter_of_ok h]
    exact .defined hflags h
  | error e t =>
    rw [stateAfter_of_error h]
    exact .refused h

theorem defineConstant_serves (name : Text) (value : Float) (page : Nat) :
    Serves (Act stage failing) stage (defineConstant name value page) := by
  have hflags : ({ isConstant := true } : LabelFlags) ≠ .permanent := by decide
  exact .get_bind (fun _ => defineLabel_serves name hflags true) fun _ _ => rfl

theorem enterModule_serves {name : Text} (hname : '.' ∉ name) :
    Serves (Act stage failing) stage (enterModule name) := by
  refine ⟨.get_bind fun st => .set (.single (.enter st ?_ hname)), fun _ _ _ _ => .ok [] rfl⟩
  split
  · exact .inl rfl
  · exact .inr rfl

theorem leaveModule_serves : Serves (Act stage failing) stage leaveModule := by
  refine ⟨.get_bind fun st => ?_, Carries.get_bind (fun st => ?_) fun _ _ => rfl⟩
  · cases h : st.homeStack with
    | nil => exact Performs.misuse _ st
    | cons home rest => exact .modify (.single (.leave h))
  · split
    · exact Carries.misuse _
    · exact Carries.modify [] (fun _ => rfl) fun _ _ => rfl

end PassM

namespace ScopeDirective

theorem readSwitch_serves (name text : Text) :
    Serves (Act stage failing) stage (readSwitch name text) :=
  iteInduction (fun _ => .pure _) fun _ => iteInduction (fun _ => .pure _) fun _ => .misuse _

theorem importModule_serves (name : Text) :
    Serves (Act stage failing) stage (importModule name) := by
  refine ⟨.get_bind fun st => .read_bind ?_, fun terms hterms st w => ?_⟩
  · split
    · exact Performs.misuse _ st
    · exact .set (.single (.tree .imported))
  · let refuses := (st.symbols.findModule? st.home name).isNone && stage.kind == .assemble
    show Mirrors _ Anything st w
      ((if refuses then PassM.misuse (.unknownModule name)
        else set { st with symbols := st.symbols.addImport st.home name } : PassM Unit) stage st)
      ((if refuses then PassM.misuse (.unknownModule name)
        else set { st.within w with symbols := st.symbols.addImport st.home name } : PassM Unit)
        (stage.under terms) (st.within w))
    cases refuses with
    | true => exact .error
    | false => exact .ok [] rfl

theorem run_serves (d : ScopeDirective) (name rest : Text) :
    Serves (Act stage failing) stage (d.run name rest) := by
  cases d with
  | enter =>
    refine oneArgument_serves (fun arg => .check_bind fun hdot => ?_) name _
    refine .bind (.ofExcept _ _) fun _ => enterModule_serves ?_
    rwa [List.contains_iff_mem] at hdot
  | leave => exact leaveModule_serves
  | imports =>
    refine iteInduction (fun _ => .misuse _) fun _ => ?_
    exact .forM fun arg _ => importModule_serves arg
  | nest =>
    refine oneArgument_serves (fun arg => .bind (readSwitch_serves name arg) fun on => ?_) name _
    exact .control (fun _ => rfl) fun _ _ => rfl
  | allLocal => exact .control (fun _ => rfl) fun _ _ => rfl
  | allGlobal => exact .control (fun _ => rfl) fun _ _ => rfl
  | localMark =>
    refine oneArgument_serves (fun arg => ?_) name _
    exact .control (fun _ => rfl) fun _ _ => rfl
  | exports =>
    refine iteInduction (fun _ => .misuse _) fun _ => .read_bind ?_ fun _ => rfl
    refine iteInduction (fun _ => .forM fun arg _ => ?_) fun _ => .pure _
    exact ⟨.modify fun st => .exported st arg, fun _ _ _ _ => .ok [_] rfl⟩

end ScopeDirective

/-! ## Control -/

namespace NoticeDirective

theorem compose_serves (rest : Text) : Serves (ValueStep stage) stage (compose rest) := by
  refine .bind (.mapM fun arg _ => ?_) fun parts => .pure _
  unfold part
  split
  · exact .pure _
  · exact .bind (eval_serves arg) fun _ => .pure _

theorem addBreakpoint_serves : Serves (Act stage failing) stage addBreakpoint := by
  refine ⟨.get_bind fun st => ?_, fun terms hterms st w => ?_⟩
  · split
    · exact Performs.pure _ st
    · exact .set (.single (.control rfl))
  · have hlocation : (st.within w).location = st.location := rfl
    rw [addBreakpoint, PassM.get_bind_apply, PassM.get_bind_apply, hlocation]
    cases st.location with
    | none => exact .ok [] rfl
    | some location => exact .ok [] rfl

theorem run_serves (d : NoticeDirective) (rest : Text) :
    Serves (Act stage failing) stage (d.run rest) := by
  refine .read_bind (iteInduction (fun _ => .pure _) fun _ => ?_) fun _ => rfl
  cases d with
  | message => exact .bind (compose_serves rest).act fun _ => report_serves _ _
  | warning => exact .bind (compose_serves rest).act fun _ => report_serves _ _
  | failure => exact .bind (compose_serves rest).act fun _ => .misuse _
  | breakpoint => exact addBreakpoint_serves

end NoticeDirective

theorem MacroDirective.run_serves {step : State → State → Prop}
    (hstep : ∀ st longMacro macros, step st { st with longMacro := longMacro, macros := macros })
    (d : MacroDirective) (name rest : Text) : Serves step stage (d.run name rest) := by
  refine ⟨.get_bind fun st => ?_, fun terms hterms st w => ?_⟩
  · cases d with
    | define =>
      cases Replacement.ofDefinition rest with
      | ok r => exact .set (.single (hstep st _ _))
      | error e => exact Performs.throw _ st
    | extend =>
      cases st.macros.append rest with
      | ok macros => exact .set (.single (hstep st _ _))
      | error e => exact Performs.throw _ st
    | beginLong =>
      cases Replacement.ofDefinition rest with
      | ok r =>
        refine .bind (Performs.pure _ st) fun r st' hr => ?_
        cases hr
        split
        split
        · exact Performs.misuse _ st
        · exact .set (.single (hstep st _ _))
      | error e => exact Performs.throw _ st
    | endLong => exact Performs.misuse _ st
    | undefine =>
      dsimp only
      split
      · exact Performs.misuse _ st
      · cases st.macros.undefine (Text.trim rest) with
        | ok macros => exact .set (.single (hstep st _ _))
        | error e => exact Performs.throw _ st
  · have hmacros : (st.within w).macros = st.macros := rfl
    rw [run, PassM.get_bind_apply, PassM.get_bind_apply, hmacros]
    cases d with
    | define =>
      dsimp only
      cases Replacement.ofDefinition rest with
      | ok r => exact .ok [] rfl
      | error e => exact .error
    | extend =>
      dsimp only
      cases st.macros.append rest with
      | ok macros => exact .ok [] rfl
      | error e => exact .error
    | beginLong =>
      dsimp only
      cases Replacement.ofDefinition rest with
      | ok r =>
        have hpure : ∀ stage st, PassM.ofExcept Fault.macroUse (.ok r) stage st = .ok r st :=
          fun _ _ => rfl
        rw [PassM.bind_of_ok (hpure stage st), PassM.bind_of_ok (hpure _ (st.within w))]
        split
        · exact .error
        · exact .ok [] rfl
      | error e => exact .error
    | endLong => exact .error
    | undefine =>
      dsimp only
      split
      · exact .error
      · cases st.macros.undefine (Text.trim rest) with
        | ok macros => exact .ok [] rfl
        | error e => exact .error

theorem BranchTest.holds_serves (test : BranchTest) (name rest : Text) :
    Serves (Act stage failing) stage (test.holds name rest) := by
  have hdefined : Serves (Act stage failing) stage (isDefined rest) :=
    iteInduction (fun _ => .misuse _) fun _ => .get_bind (fun _ => .pure _) fun _ _ => rfl
  cases test with
  | defined => exact hdefined
  | undefined => exact .bind hdefined fun _ => .pure _
  | condition =>
    refine iteInduction (fun _ => .misuse _) fun _ => ?_
    exact .bind (eval_serves rest).act fun _ => .pure _

/-- A part that is observed may be carried over if nothing comes of its failure but another one. -/
theorem Serves.observe_bind {α : Type} {step : State → State → Prop} {m : PassM α}
    {f : Except Fault α → PassM Unit} (hm : Serves step stage m)
    (hf : ∀ outcome, Serves step stage (f outcome))
    (hfail : ∀ fault st u st', f (.error fault) stage st ≠ .ok u st') :
    Serves step stage (PassM.observe m >>= f) := by
  refine ⟨hm.performs.observe.bind fun outcome => (hf outcome).performs,
    CarriesIf.bind (Carries.observe hm.carries) (fun outcome st u st' hrun _ => ?_)
      fun outcome _ => (hf outcome).carries⟩
  cases outcome with
  | ok a => exact ⟨a, rfl⟩
  | error fault => exact absurd hrun (hfail fault st u st')

theorem PassM.putBranches_serves (result : EStateM.Result Fault Conditionals Unit) :
    Serves (Change stage failing) stage (PassM.putBranches result) := by
  have hset (after : Conditionals) :
      Serves (Change stage failing) stage (modify fun st => { st with conditionals := after }) :=
    .modify (fun st => .branches st after) (fun _ => rfl) fun _ _ => rfl
  cases result with
  | ok u after => exact hset after
  | error fault after => exact .bind (hset after) fun _ => .throw fault

theorem BranchDirective.run_serves (d : BranchDirective) (name rest : Text) :
    Serves (Change stage failing) stage (d.run name rest) := by
  refine .get_bind (fun st => ?_) fun _ _ => rfl
  have hput (result : EStateM.Result Fault Conditionals Unit) :
      Serves (Change stage failing) stage (pure result >>= PassM.putBranches) :=
    .bind (.pure _) putBranches_serves
  cases d with
  | openBlock test =>
    dsimp only
    rw [Conditionals.beginBlock, bind_assoc]
    split
    · refine .observe_bind (test.holds_serves name rest).change (fun outcome => ?_)
        fun fault st u st' h => ?_
      · cases outcome <;> exact hput _
      · cases h
    · rw [pure_bind]
      exact hput _
  | alternative test =>
    dsimp only
    rw [Conditionals.beginAlternative]
    split
    · exact hput _
    next b around _ =>
      by_cases hfinal : b.seenElse = true
      · rw [if_pos hfinal]
        exact hput _
      by_cases hpassed : (!b.parentActive || b.taken) = true
      · rw [if_neg hfinal, if_pos hpassed]
        exact hput _
      rw [if_neg hfinal, if_neg hpassed, bind_assoc]
      refine .observe_bind (test.holds_serves name rest).change (fun outcome => ?_)
        fun fault st u st' h => ?_
      · cases outcome <;> exact hput _
      · cases h
  | otherwise => exact putBranches_serves _
  | close => exact putBranches_serves _

namespace FlowDirective

theorem setCounter_serves (name : Text) (value : Float) :
    Serves (Act stage failing) stage (setCounter name value) :=
  .get_bind (fun _ => .bind (defineConstant_serves name value _) fun _ => .pure
    _) fun _ _ => rfl

end FlowDirective

/-! ## Structs and variables -/

namespace StorageDirective

theorem sizeOf_serves {step : State → State → Prop} (ty : DataType) :
    Serves step stage (sizeOf ty) :=
  .get_bind (fun _ => .ofExcept _ _) fun _ _ => rfl

theorem fieldsOf_serves {step : State → State → Prop} (ty : DataType) :
    Serves step stage (fieldsOf ty) :=
  .get_bind (fun _ => .ofExcept _ _) fun _ _ => rfl

theorem resolveType_serves (name : Text) (count : Nat) : Serves (ValueStep stage) stage (do
    match (← get).structs.resolveType name with
    | .ok ty => return (ty, count)
    | .error e =>
      if startsNumber name then
        let bytes ← PassM.evalAddress name
        return (.int 1 false, bytes * count)
      else throw (.symbol e)) := by
  refine .get_bind (fun st => ?_) fun _ _ => rfl
  cases st.structs.resolveType name with
  | ok ty => exact .pure _
  | error e =>
    refine iteInduction (fun _ => ?_) fun _ => .throw _
    exact .bind (evalAddress_serves name) fun _ => .pure _

theorem readType_serves (text : Text) : Serves (ValueStep stage) stage (readType text) := by
  unfold readType
  rcases splitArray text with ⟨name, countText⟩
  cases countText with
  | some countText =>
    exact .bind (evalAddress_serves countText) (resolveType_serves name)
  | none => exact .bind (.pure 1) (resolveType_serves name)

theorem addMember_serves (owner : StructDef) (m : Member) (isTemporary : Bool) :
    Serves (Act stage failing) stage (addMember owner m isTemporary) := by
  unfold addMember
  refine .check_bind fun _ => .bind (.ofExcept _ _) fun _ => .check_bind fun _ => ?_
  exact .control (fun _ => rfl) fun _ _ => rfl

theorem addressOf_apply (stage : Stage) (name qualified : Text) (st : State) :
    addressOf name qualified stage st = (match stage.allocation.lookup qualified with
      | some address => (pure address : PassM Nat)
      | none =>
        if stage.kind == PassKind.assemble then PassM.misuse (.neverAllocated name) else pure 0)
        stage st :=
  rfl

/-- The address of a variable is the one where it was placed.  A labels pass makes do without one,
and the assembling pass refuses the variable. -/
theorem addressOf_cases (stage : Stage) (name qualified : Text) (st : State) :
    (∃ address, stage.allocation.lookup qualified = some address ∧
      addressOf name qualified stage st = .ok address st) ∨
    (stage.kind ≠ .assemble ∧ addressOf name qualified stage st = .ok 0 st) ∨
    ∃ fault, addressOf name qualified stage st = .error fault st := by
  rw [addressOf_apply]
  cases stage.allocation.lookup qualified with
  | some address => exact .inl ⟨address, rfl, rfl⟩
  | none =>
    dsimp only
    by_cases hkind : (stage.kind == PassKind.assemble) = true
    · rw [if_pos hkind]
      exact .inr (.inr ⟨_, rfl⟩)
    · rw [if_neg hkind]
      exact .inr (.inl ⟨fun h => hkind (beq_iff_eq.2 h), rfl⟩)

theorem defineField_serves (id : LabelId) (address page : Nat) (location : Option Location)
    (flags : LabelFlags) (field : Field) :
    Serves (TreeAct stage failing) stage (defineField id address page location flags field) := by
  refine .bind (sizeOf_serves field.type) fun size => .bind ⟨fun st => ?_, ?_⟩ fun _ => .pure _
  · exact onSymbols_performsFrom (.field fun h =>
      Bool.noConfusion (congrArg LabelFlags.isMember h))
  · exact onSymbols_carries _

/-- A variable gets an address by its qualified name.  The labels passes may not have one yet. -/
def Allots (stage : Stage) (qualified : Text) (address : Nat) : Prop :=
  stage.allocation.lookup qualified = some address ∨ stage.kind ≠ .assemble ∧ address = 0

/-- What the definition of a variable comes to.  The label and its address are one step: a permanent
variable never has another value than the address where it was placed, unless its declaration
fails. -/
inductive Defines (stage : Stage) (st : State) (name : Text) (info : LabelDef) :
    EStateM.Result Fault State (LabelId × Text × Nat) → Prop
  | ok {t : Symbols} {id : LabelId} {address : Nat}
      (h : Symbols.define name st.scope info false st.symbols = .ok id t)
      (haddress : Allots stage (t.qualifiedAt id) address)
      (htree : TreeStep stage False st.scope st.symbols (t.setValue id (Float.ofNat address))) :
      Defines stage st name info (.ok (id, t.qualifiedAt id, address)
        { st with symbols := t.setValue id (Float.ofNat address) })
  | error {t : Symbols} (fault : Fault) (htree : TreeStep stage True st.scope st.symbols t) :
      Defines stage st name info (.error fault { st with symbols := t })

theorem defineVariable_defines (name : Text) (info : LabelDef) (st : State) :
    Defines stage st name info (defineVariable name info stage st) := by
  have hdefine : PassM.defineLabel name info false stage st =
      PassM.onSymbols (Symbols.define name st.scope info false) stage st := rfl
  rw [onSymbols_apply] at hdefine
  rw [defineVariable]
  cases hdef : Symbols.define name st.scope info false st.symbols with
  | error e t =>
    rw [hdef] at hdefine
    rw [PassM.bind_of_error hdefine]
    exact .error _ (.refused hdef)
  | ok id t =>
    rw [hdef] at hdefine
    rw [PassM.bind_of_ok hdefine, PassM.get_bind_apply]
    dsimp only
    rcases addressOf_cases stage name (t.qualifiedAt id) { st with symbols := t } with
      ⟨address, hlookup, haddress⟩ | ⟨hkind, haddress⟩ | ⟨fault, haddress⟩
    · rw [Symbols.qualifiedAt] at haddress
      rw [PassM.bind_of_ok haddress]
      exact .ok hdef (.inl hlookup) (.placed hdef hlookup)
    · rw [Symbols.qualifiedAt] at haddress
      rw [PassM.bind_of_ok haddress]
      exact .ok hdef (.inr ⟨hkind, rfl⟩) (.unsettled hdef hkind)
    · rw [Symbols.qualifiedAt] at haddress
      rw [PassM.bind_of_error haddress]
      exact .error fault (.unplaced hdef trivial)

/-- A variable that has its label is noted when its fields have been defined, as if it had been
noted together with the label.  If a field fails, then only the tree has changed. -/
theorem Defines.acts {st : State} {name : Text} {info : LabelDef}
    {m : PassM (LabelId × Text × Nat)} (hm : Defines stage st name info (m stage st))
    {fields : PassM (List Field)} {define : LabelId → Nat → Field → PassM PUnit}
    (hfields : Performs (TreeAct stage False) stage fields)
    (hdefine : ∀ id address field, Performs (TreeAct stage False) stage (define id address field))
    (isTemporary : Bool) (size : Nat) : ActsFrom stage st (m >>= fun placed => do
      (← fields).forM (define placed.1 placed.2.2)
      modify fun s => { s with
        varDecls := s.varDecls ++ [⟨placed.2.1, st.home, isTemporary, size⟩] }) := by
  rw [ActsFrom]
  generalize hrun : m stage st = result at hm
  cases hm with
  | error fault htree =>
    rw [PassM.bind_of_error hrun]
    exact .single (.tree htree)
  | @ok t id address h _ htree =>
    rw [PassM.bind_of_ok hrun]
    have hfail : ReflTransGen (Act stage True) st
        { st with symbols := t.setValue id (Float.ofNat address) } :=
      .single (.tree (htree.mono False.elim))
    have hact : ∀ st st', TreeAct stage False st st' → Act stage True st st' :=
      fun _ _ h => h.act.mono False.elim
    dsimp only
    have hsteps := hfields { st with symbols := t.setValue id (Float.ofNat address) }
    rw [PerformsFrom, LeadsFrom] at hsteps
    cases hrun' : fields stage { st with symbols := t.setValue id (Float.ofNat address) } with
    | error fault st' =>
      rw [stateAfter_of_error hrun'] at hsteps
      rw [PassM.bind_of_error hrun']
      exact hfail.trans (ReflTransGen.mono hact _ _ hsteps)
    | ok list st' =>
      rw [stateAfter_of_ok hrun'] at hsteps
      rw [PassM.bind_of_ok hrun']
      have hmore := Performs.forM (l := list) (fun field _ => hdefine id address field) st'
      rw [PerformsFrom, LeadsFrom] at hmore
      cases hrun'' : list.forM (define id address) stage st' with
      | error fault st'' =>
        rw [stateAfter_of_error hrun''] at hmore
        rw [PassM.bind_of_error hrun'']
        exact hfail.trans (ReflTransGen.mono hact _ _ (hsteps.trans hmore))
      | ok _ st'' =>
        rw [stateAfter_of_ok hrun''] at hmore
        rw [PassM.bind_of_ok hrun'']
        obtain ⟨t', htree', rfl⟩ := exists_of_treeActs (hsteps.trans hmore)
        -- the fields come after the variable was noted, instead of before
        have hdeclared : Act stage False st { st with
            symbols := t.setValue id (Float.ofNat address)
            varDecls := st.varDecls ++ [⟨t.qualifiedAt id, st.home, isTemporary, size⟩] } :=
          .declared h htree rfl rfl
        exact ReflTransGen.head hdeclared (Act.ofTree htree')

theorem declareVariable_acts (ty : DataType) (count : Nat) (name : Text) (isTemporary : Bool) :
    Acts stage (declareVariable ty count name isTemporary) := by
  refine Acts.bind (.ofPerforms (sizeOf_serves ty).performs) fun size => ?_
  refine Acts.check_bind fun _ => Acts.get_bind fun st => ?_
  have hdefine : Defines stage st name _ _ := defineVariable_defines name
    { value := 0, page := st.pages.current, location := st.location, type := some ty,
      count := count, size := size * count,
      flags := { isVariable := true, isTemporary := isTemporary } } st
  exact hdefine.acts (fieldsOf_serves ty).performs (fun id address field =>
    (defineField_serves id address st.pages.current st.location
      { isVariable := true, isTemporary := isTemporary } field).performs) isTemporary (size * count)

theorem declareVariable_carries (ty : DataType) (count : Nat) (name : Text) (isTemporary : Bool) :
    Carries stage (declareVariable ty count name isTemporary) := by
  have hsize : Serves (Act stage False) stage (sizeOf ty) := sizeOf_serves ty
  have hfields : Serves (Act stage False) stage (fieldsOf ty) := fieldsOf_serves ty
  have hfield (id : LabelId) (address page : Nat) (location : Option Location) (flags : LabelFlags)
      (field : Field) :
      Serves (TreeAct stage False) stage (defineField id address page location flags field) :=
    defineField_serves id address page location flags field
  refine .bind hsize.carries fun size => Carries.closed.check_bind fun _ => ?_
  refine .get_bind (fun st => Carries.bind ?_ fun placed => ?_) fun _ _ => rfl
  · refine .bind (defineLabel_carries name _ false) fun id => ?_
    refine Carries.get_bind (fun st => Carries.bind ?_ fun address => ?_) fun _ _ => rfl
    · refine Carries.read_bind ?_ fun _ => rfl
      split
      · exact Carries.pure _
      · exact iteInduction (fun _ => Carries.misuse _) fun _ => Carries.pure _
    · exact Carries.bind (Carries.modify [] (fun _ => rfl) fun _ _ => rfl) fun _ => Carries.pure _
  · refine Carries.bind hfields.carries fun fields => ?_
    refine Carries.bind
      (Carries.closed.forM fun field _ => (hfield _ _ _ _ _ field).carries) fun _ => ?_
    exact Carries.modify [] (fun _ => rfl) fun _ _ => rfl

theorem finishStruct_serves : Serves (Act stage failing) stage finishStruct := by
  refine .get_bind (fun st => ?_) fun _ _ => rfl
  split
  · exact .misuse _
  · refine .bind (.control (fun _ => rfl) fun _ _ => rfl) fun _ => ?_
    refine .get_bind (fun st => .bind (.ofExcept _ _) fun structs => ?_) fun _ _ => rfl
    refine .bind (.control (fun _ => rfl) fun _ _ => rfl) fun _ => ?_
    refine .bind (fieldsOf_serves _) fun fields => .forM fun field _ => ?_
    refine .bind (sizeOf_serves field.type) fun size => .get_bind (fun st => ?_) fun _ _ => rfl
    have hflags : ({ isMember := true } : LabelFlags) ≠ .permanent := by decide
    exact .bind (defineLabel_serves _ hflags true) fun _ => .pure _

/-- All directives on structs and variables but the declaration of a variable serve. -/
theorem run_cases (d : StorageDirective) (name rest : Text) :
    (∀ failing, Serves (Act stage failing) stage (d.run name rest)) ∨
      ∃ typeText label isTemporary, d.run name rest = declareName typeText label isTemporary := by
  unfold run
  dsimp only
  split
  · refine .inl fun _ => .get_bind (fun st => ?_) fun _ _ => rfl
    split
    · exact .misuse _
    · exact .bind (.ofExcept _ _) fun _ => .control (fun _ => rfl) fun _ _ => rfl
  · exact .inl fun _ => .misuse _
  · exact .inl fun _ => finishStruct_serves
  · exact .inr ⟨_, _, _, rfl⟩
  · refine .inl fun _ => .bind (evalAddress_serves _).act fun start => ?_
    refine .bind (evalAddress_serves _).act fun size => ?_
    exact .modify (fun st => .area st start size) (fun _ => rfl) fun _ _ => rfl
  · exact .inl fun _ => .misuse _
  · exact .inl fun _ => .misuse _

theorem run_acts (d : StorageDirective) (name rest : Text) : Acts stage (d.run name rest) := by
  rcases d.run_cases name rest with h | ⟨typeText, label, isTemporary, h⟩
  · exact .ofPerforms (h False).performs
  · rw [h]
    refine Acts.bind (.ofPerforms (readType_serves typeText).act.performs) fun type => ?_
    refine Acts.bind (.ofPerforms Performs.get) fun st => ?_
    split
    · exact .ofPerforms (addMember_serves _ _ _).performs
    · exact declareVariable_acts _ _ _ _

theorem run_carries (d : StorageDirective) (name rest : Text) :
    Carries stage (d.run name rest) := by
  rcases d.run_cases name rest with h | ⟨typeText, label, isTemporary, h⟩
  · exact (h False).carries
  · have hmember (owner : StructDef) (m : Member) :
        Serves (Act stage False) stage (addMember owner m isTemporary) := addMember_serves owner m _
    rw [h]
    refine .bind (readType_serves typeText).carries fun type => ?_
    refine Carries.get_bind (fun st => ?_) fun _ _ => rfl
    split
    · exact (hmember _ _).carries
    · exact declareVariable_carries _ _ _ _

end StorageDirective

end MacroAssembler
