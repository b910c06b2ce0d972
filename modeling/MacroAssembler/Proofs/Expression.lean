import MacroAssembler.Pass.Evaluate
import MacroAssembler.Proofs.Follows

/-!
# Expressions and macros have no effects of their own

An expression reaches the program only through its environment, and the expansion of a text only
through the evaluation of macro slots.  So whatever is closed and holds of those holds of the whole
evaluation and of the whole expansion: that they consist of certain steps, or that they come to the
same in related states.

In a pass the environment takes five kinds of steps, `EvalStep`.  None of them touches anything that
decides what is executed next.
-/

namespace MacroAssembler

open Relation

variable {σ : Type}

/-! ## Expressions -/

/-- What an environment does has a property, and what it shows is the same in related states. -/
structure Environment.Has (R : σ → σ → Prop) (P : ∀ {α : Type}, EvalM σ α → Prop)
    (env : Environment σ) : Prop where
  label : ∀ name, P (env.label name)
  page : ∀ name, P (env.page name)
  reusable : ∀ target, P (env.reusable target)
  sizeOf : ∀ name, P (env.sizeOf name)
  address_eq : ∀ s t, R s t → env.address s = env.address t
  isDefined_eq : ∀ s t, R s t → ∀ name, env.isDefined name s = env.isDefined name t
  charByte_eq : ∀ s t, R s t → env.charByte s = env.charByte t

section

variable {R : σ → σ → Prop} {P : ∀ {α : Type}, EvalM σ α → Prop} {env : Environment σ}
variable (hP : ClosedIn R P)
include hP

theorem replaceBraces_has (henv : env.Has R P) (text : Text) : P (replaceBraces env text) := by
  rw [replaceBraces]
  refine hP.bind (hP.mapM fun chunk _ => ?_) fun parts => hP.pure _
  cases chunk with
  | plain part => exact hP.pure _
  | unclosed => exact hP.throw _
  | reference inner =>
    dsimp only
    split
    · exact hP.bind (henv.reusable _) fun _ => hP.pure _
    · exact hP.throw _

theorem replaceLiterals_has (henv : env.Has R P) (text : Text) : P (replaceLiterals env text) := by
  rw [replaceLiterals]
  refine hP.get_bind (fun s => ?_) fun s t h => by rw [henv.charByte_eq s t h]
  refine hP.bind (hP.mapM fun piece _ => ?_) fun parts => hP.pure _
  cases piece with
  | literal quote body => exact hP.pure _
  | unclosed quote => exact hP.throw _
  | char c => exact hP.pure _

theorem replaceGroups_has {call : (name inner : Text) → EvalM σ Float}
    (hcall : ∀ name inner, P (call name inner)) (done text : Text) :
    P (replaceGroups call done text) := by
  induction text generalizing done with
  | nil =>
    rw [replaceGroups]
    exact iteInduction (fun _ => hP.throw _) fun _ => hP.pure _
  | cons c rest ih =>
    rw [replaceGroups]
    refine iteInduction (fun _ => ?_) fun _ => ih _
    split
    · exact hP.throw _
    · exact hP.bind (hcall _ _) fun value => ih _

theorem callGroup_has (henv : env.Has R P) {eval : Text → EvalM σ Float}
    (heval : ∀ text, P (eval text)) (name inner : Text) : P (callGroup env eval name inner) := by
  rw [callGroup]
  refine iteInduction (fun _ => heval _) fun _ => ?_
  refine iteInduction (fun _ => henv.sizeOf _) fun _ => ?_
  refine iteInduction (fun _ => hP.get_bind (fun _ => hP.pure _) fun s t h => ?_) fun _ => ?_
  · rw [henv.isDefined_eq s t h]
  split
  · exact hP.bind (heval _) fun _ => hP.pure _
  · exact hP.bind (heval _) fun _ => hP.pure _
  · exact hP.throw _

theorem evalTerm_has (henv : env.Has R P) (term : Term) : P (evalTerm env term) := by
  rw [evalTerm]
  refine hP.bind ?_ fun _ => hP.pure _
  cases term.operand with
  | number value => exact hP.pure _
  | address => exact hP.get_bind (fun _ => hP.pure _) fun s t h => by rw [henv.address_eq s t h]
  | page name => exact henv.page name
  | label name => exact henv.label name
  | badNumeral text => exact hP.throw _

theorem evalChain_has (henv : env.Has R P) (text : Text) : P (evalChain env text) := by
  rw [evalChain]
  split
  · exact hP.throw _
  · refine hP.bind (evalTerm_has hP henv _) fun first => ?_
    refine hP.bind (hP.mapM fun link _ => ?_) fun chain => ?_
    · exact hP.bind (evalTerm_has hP henv _) fun _ => hP.pure _
    · cases reduce first chain with
      | ok value =>
        refine iteInduction (fun _ => ?_) fun _ => hP.pure value
        exact hP.bind (hP.throw _) fun _ => hP.pure value
      | error e =>
        refine iteInduction (fun _ => ?_) fun _ => hP.throw e
        exact hP.bind (hP.throw _) fun _ => hP.throw e

theorem evalNested_has (henv : env.Has R P) (nesting : Nat) (text : Text) :
    P (evalNested env nesting text) := by
  induction nesting generalizing text with
  | zero =>
    rw [evalNested]
    exact iteInduction (fun _ => hP.throw _) fun _ => hP.throw _
  | succ nesting ih =>
    rw [evalNested]
    refine iteInduction (fun _ => hP.throw _) fun _ => ?_
    refine hP.bind (replaceBraces_has hP henv _) fun text => ?_
    refine hP.bind (replaceLiterals_has hP henv _) fun text => ?_
    refine hP.bind (replaceGroups_has hP (callGroup_has hP henv ih) _ _) fun text => ?_
    split
    · exact hP.bind (ih _) fun cond => ih _
    · exact evalChain_has hP henv _

/-- **An expression sees and does nothing but through its environment.** -/
theorem evaluate_has (henv : env.Has R P) (text : Text) : P (evaluate env text) :=
  evalNested_has hP henv _ text

end

/-! ## Macros -/

namespace MacroTable

/-- A relation between computations and families of computations that is kept by everything they are
put together from. -/
structure Accompanied {σ τ ι : Type} (R : ∀ {α : Type}, ExpandM σ α → (ι → ExpandM τ α) →
    Prop) : Prop where
  pure : ∀ {α : Type} (a : α), R (pure a : ExpandM σ α) fun _ => pure a
  throw : ∀ {α : Type} (e : MacroError), R (throw e : ExpandM σ α) fun _ => throw e
  bind : ∀ {α β : Type} {m : ExpandM σ α} {n : ι → ExpandM τ α} {f : α → ExpandM σ β}
    {g : ι → α → ExpandM τ β}, R m n → (∀ a, R (f a) fun i => g i a) →
      R (m >>= f) fun i => n i >>= g i

section accompanied

variable {τ ι : Type} {R : ∀ {α : Type}, ExpandM σ α → (ι → ExpandM τ α) →
  Prop} {table : MacroTable}
variable {eval : Text → StateM σ (Option Float)} {eval' : Text → StateM τ (Option Float)}
variable {expandArg : Text → ExpandM σ Text} {expandArg' : ι → Text → ExpandM τ Text}
variable {expandBody : (word body : Text) → ExpandM σ Text}
variable {expandBody' : ι → (word body : Text) → ExpandM τ Text} {ok : Text → Prop}
variable (hR : Accompanied R) (heval : ∀ text, R (evalSlot eval text) fun _ => evalSlot eval' text)
variable (harg : ∀ arg, ok arg → R (expandArg arg) fun i => expandArg' i arg)
include hR heval harg

theorem slotsMatch_accompanied (slots : List Slot) {args : List Text}
    (hargs : ∀ arg ∈ args, ok arg) :
    R (slotsMatch eval expandArg slots args) fun i => slotsMatch eval'
      (expandArg' i) slots args := by
  induction slots generalizing args with
  | nil => exact hR.pure _
  | cons slot slots ih =>
    cases args with
    | nil => exact hR.pure _
    | cons arg args =>
      obtain ⟨hok, hargs⟩ := List.forall_mem_cons.1 hargs
      simp only [slotsMatch]
      refine hR.bind ?_ fun fits => ?_
      · cases slot with
        | wildcard name => exact hR.pure _
        | text text => exact hR.pure _
        | value expected =>
          refine hR.bind (harg _ hok) fun arg => hR.bind (heval _) fun a => hR.bind
            (heval _) fun b => ?_
          cases a <;> cases b <;> exact hR.pure _
      · cases fits with
        | false => exact hR.pure _
        | true => exact ih hargs

theorem selectCall_accompanied {args : List Text} (hargs : ∀ arg ∈ args, ok arg)
    (list : List Replacement) :
    R (selectCall eval expandArg args list) fun i => selectCall eval' (expandArg' i) args list := by
  induction list with
  | nil => exact hR.pure _
  | cons r rest ih =>
    simp only [selectCall]
    cases r.slots with
    | none => exact ih
    | some slots =>
      refine hR.bind ?_ fun fits => ?_
      · by_cases hlength : slots.length = args.length
        · simp only [if_pos hlength]
          exact slotsMatch_accompanied hR heval harg slots hargs
        · simp only [if_neg hlength]
          exact hR.pure _
      · cases fits with
        | false => exact ih
        | true => exact hR.pure _

theorem select_accompanied (list : List Replacement) {args : Option (List Text)}
    (hargs : ∀ arg ∈ args.getD [], ok arg) :
    R (select eval expandArg list args) fun i => select eval' (expandArg' i) list args := by
  unfold select
  cases args with
  | some args =>
    refine hR.bind (selectCall_accompanied hR heval harg hargs list) fun chosen => ?_
    cases chosen <;> exact hR.pure _
  | none =>
    refine hR.bind (hR.pure none) fun chosen => ?_
    cases chosen <;> exact hR.pure _

variable (hbody : ∀ word body, R (expandBody word body) fun i => expandBody' i word body)
include hbody

/-- What is done with a word and its argument list, wherever that comes from. -/
theorem expandCall_accompanied {word : Text} {expandRest : (skip : Nat) → ExpandM σ Text}
    {expandRest' : ι → (skip : Nat) → ExpandM τ Text}
    (hrest : ∀ skip, R (expandRest skip) fun i => expandRest' i skip) (list : List Replacement)
    (args : Option (List Text)) (hargs : ∀ arg ∈ args.getD [], ok arg) (length : Nat) : R
      (do
        match ← select eval expandArg list args with
        | none => return word ++ (← expandRest 0)
        | some (r, consumed) =>
          let expanded ← expandBody word (r.substitute (args.getD []) table.caseSensitive)
          let rest ← expandRest (if consumed then length else 0)
          return expanded ++ rest)
      fun i => do
        match ← select eval' (expandArg' i) list args with
        | none => return word ++ (← expandRest' i 0)
        | some (r, consumed) =>
          let expanded ← expandBody' i word (r.substitute (args.getD []) table.caseSensitive)
          let rest ← expandRest' i (if consumed then length else 0)
          return expanded ++ rest := by
  refine hR.bind (select_accompanied hR heval harg list hargs) fun chosen => ?_
  cases chosen with
  | none => exact hR.bind (hrest 0) fun _ => hR.pure _
  | some chosen =>
    refine hR.bind (hbody _ _) fun expanded => ?_
    exact hR.bind (hrest _) fun _ => hR.pure _

/-- **The words of a text are expanded alike** if their templates are, and their arguments as far as
they are such as may stand behind these words. -/
theorem expandTokens_accompanied (whole : Text) (skip : Nat) {tokens : List MacroToken}
    (hread : ∀ behind, behind <:+ tokens → ∀ args length,
      CallArguments.read (MacroToken.textOf behind) = .list args length → ∀ arg ∈ args, ok arg) :
    R (expandTokens table eval expandArg expandBody whole skip tokens) fun i =>
      expandTokens table eval' (expandArg' i) (expandBody' i) whole skip tokens := by
  induction tokens generalizing skip with
  | nil =>
    simp only [expandTokens]
    exact hR.pure _
  | cons token tokens ih =>
    have hrest := fun skip => ih skip fun behind h => hread behind (h.trans (List.suffix_cons ..))
    cases skip with
    | succ skip =>
      simp only [expandTokens]
      exact hrest _
    | zero =>
      cases token with
      | other text =>
        simp only [expandTokens]
        exact hR.bind (hrest 0) fun _ => hR.pure _
      | word word =>
        simp only [expandTokens]
        cases table.macros.lookup (table.key word) with
        | none => exact hR.bind (hrest 0) fun _ => hR.pure _
        | some list =>
          cases hargs : CallArguments.read (MacroToken.textOf tokens) with
          | none =>
            exact expandCall_accompanied hR heval harg hbody hrest list none
              (List.forall_mem_nil _) 0
          | unclosed => exact hR.throw _
          | list args length =>
            exact expandCall_accompanied hR heval harg hbody hrest list (some args)
              (hread tokens (List.suffix_cons ..) args length hargs) length

end accompanied

variable {P : ∀ {α : Type}, ExpandM σ α → Prop} {table : MacroTable}
variable {eval : Text → StateM σ (Option Float)} {expandArg : Text → ExpandM σ Text}
variable {expandBody : (word body : Text) → ExpandM σ Text}
variable (hP : Closed (ExpandM σ) P) (heval : ∀ text, P (evalSlot eval text))
include hP heval

theorem expandTokens_has (harg : ∀ text, P (expandArg text))
    (hbody : ∀ word body, P (expandBody word body)) (whole : Text) (tokens : List MacroToken) :
    P (expandTokens table eval expandArg expandBody whole 0 tokens) := by
  -- a property is a relation that leaves the other side free
  obtain ⟨R, hiff⟩ : ∃ R : ∀ {α : Type}, ExpandM σ α → (Unit → ExpandM σ α) → Prop,
      ∀ {α : Type} {m : ExpandM σ α} {n : Unit → ExpandM σ α}, R m n ↔
        P m := ⟨fun m _ => P m, Iff.rfl⟩
  have hR : Accompanied R := ⟨fun a => hiff.2 (hP.pure a), fun e => hiff.2 (hP.throw e),
    fun hm hf => hiff.2 (hP.bind (hiff.1 hm) fun a => hiff.1 (hf a))⟩
  have htokens : R (expandTokens table eval expandArg expandBody whole 0 tokens)
      fun _ => expandTokens table eval expandArg expandBody whole 0 tokens :=
    expandTokens_accompanied hR (fun text => hiff.2 (heval text))
      (fun arg (_ : True) => hiff.2 (harg arg))
      (fun word body => hiff.2 (hbody word body)) whole 0 fun _ _ _ _ _ _ _ => trivial
  exact hiff.1 htokens

/-- **The expansion of a text sees and does nothing but through the evaluation of slots.** -/
theorem expand_has (text : Text) : P (expand table eval text) := by
  have hflat : ∀ text, P (expandFlat table eval text) := by
    intro text
    induction text using expandFlat.induct with
    | case1 text ih =>
      rw [expandFlat]
      refine expandTokens_has hP heval (fun arg => ?_) (fun word body => hP.throw _) _ _
      exact iteInduction (fun h => ih arg h) fun _ => hP.pure _
  have hat : ∀ levels text, P (expandAt table eval levels text) := by
    intro levels
    induction levels with
    | zero => exact hflat
    | succ levels ih => exact fun text => expandTokens_has hP heval ih (fun _ body => ih body) _ _
  rw [expand]
  exact iteInduction (fun _ => hP.pure _) fun _ => hat _ _

end MacroTable

/-! ## The environment of a pass -/

/-- A step of the evaluation of an expression in a pass. -/
inductive EvalStep (stage : Stage) : State → State → Prop
  /-- A use of a label of this pass is noted with the label. -/
  | reference (st : State) (id : LabelId) (location : Location) :
      EvalStep stage st { st with symbols := st.symbols.modifyLabel id fun label =>
        { label with references := label.references.push location } }
  /-- A use of a label that is not defined yet is noted for later. -/
  | pending (st : State) (name : Text) (location : Location) :
      EvalStep stage st
        ({ st with pendingReferences := st.pendingReferences.push ⟨name, st.home, location⟩ }.record
          (.awaited name st.scope location))
  /-- A missing name is counted. -/
  | unresolved (st : State) (count : Nat) :
      EvalStep stage st { st with unresolved := count }
  /-- A number is taken from a label of the pass before. -/
  | recalled (st : State) (aspect : Aspect) (id : LabelId) (label : Label)
      (hlabel : stage.previous.label? id = some label) :
      EvalStep stage st (st.record (.recalled aspect id (label.number aspect)))
  /-- The value of a reusable label that lies ahead is taken from the pass before. -/
  | anticipated (st : State) {target : ReusableRef} {index : Nat} {value : Float}
      (hahead : st.reusable.ahead? target = some index)
      (hvalue : (stage.previousReusable.instances target.polarity target.run)[index]? =
        some value) :
      EvalStep stage st (st.record (.anticipated target index value))

theorem ReusableLabels.ahead?_eq_some_iff {labels : ReusableLabels} {target : ReusableRef}
    {index : Nat} : labels.ahead? target = some index ↔ labels.ordinal target = some index ∧
      (labels.instances target.polarity target.run).length ≤ index := by
  rw [ahead?, Option.filter_eq_some_iff, decide_eq_true_eq]

/-- What lies ahead has its value from the pass before. -/
theorem ReusableLabels.resolve_of_ahead? {current : ReusableLabels} (previous : ReusableLabels)
    {target : ReusableRef} {index : Nat} (h : current.ahead? target = some index) :
    current.resolve previous target =
      (previous.instances target.polarity target.run)[index]? := by
  obtain ⟨hordinal, hlength⟩ := ahead?_eq_some_iff.1 h
  rw [resolve, hordinal, Option.bind_some, List.getElem?_eq_none hlength]
  rfl

namespace Stage

variable (stage : Stage) (quiet : Bool)

theorem recordReference_steps (st : State) (id : LabelId) :
    ReflTransGen (EvalStep stage) st (stage.recordReference quiet st id) := by
  unfold recordReference
  split
  · exact .single (.reference st id _)
  · exact .refl

theorem recordPending_steps (st : State) (name : Text) :
    ReflTransGen (EvalStep stage) st (stage.recordPending quiet st name) := by
  unfold recordPending
  split
  · exact .single (.pending st name _)
  · exact .refl

/-- What is found in the pass before is a label of it. -/
theorem label?_of_previousEntry {st : State} {name : Text} {id : LabelId} {label : Label}
    (h : stage.previousEntry st name = some (id, label)) :
    stage.previous.label? id = some label := by
  unfold previousEntry at h
  obtain ⟨id', -, hid'⟩ := Option.bind_eq_some_iff.1 h
  obtain ⟨label', hlabel', heq⟩ := Option.map_eq_some_iff.1 hid'
  cases heq
  exact hlabel'

theorem lookup_steps (aspect : Aspect) (name : Text) (st : State) :
    ReflTransGen (EvalStep stage) st (stage.lookup quiet aspect name st).2 := by
  unfold lookup
  split
  · exact stage.recordReference_steps quiet st _
  · split
    next id label hentry =>
      exact (stage.recordPending_steps quiet st name).tail
        (.recalled _ aspect id label (stage.label?_of_previousEntry hentry))
    next => exact .refl

theorem lookupReusable_steps (target : ReusableRef) (st : State) :
    ReflTransGen (EvalStep stage) st (stage.lookupReusable target st).2 := by
  unfold lookupReusable
  split
  next hvalue hahead =>
    rw [ReusableLabels.resolve_of_ahead? _ hahead] at hvalue
    exact .single (.anticipated st hahead hvalue)
  next => exact .refl

/-- **The environment of a pass sees and does nothing but look up labels and count the missing
ones.** -/
theorem environment_has {R : State → State → Prop} {P : ∀ {α : Type}, EvalM State α → Prop}
    (hP : ClosedIn R P)
    (hlookup : ∀ aspect name,
      P (modifyGet (stage.lookup quiet aspect name) : EvalM State (Option Float)))
    (hreusable : ∀ target, P (modifyGet (stage.lookupReusable target) : EvalM State (Option Float)))
    (hcount : stage.kind.isLabels = true → quiet = false →
      P (modify fun st => { st with unresolved := st.unresolved + 1 } : EvalM State PUnit))
    (hstructs : ∀ st s, R st s → st.structs = s.structs)
    (haddress : ∀ st s, R st s → st.address = s.address)
    (hresolve : ∀ st s, R st s → ∀ name, st.resolveLabel name = s.resolveLabel name)
    (hchar : ∀ st s, R st s → st.charByte = s.charByte) : (stage.environment quiet).Has R P := by
  have hmissing (cause : ExprError) : P (stage.unresolved quiet cause) := by
    refine iteInduction (fun h => ?_) fun _ => hP.throw _
    rw [Bool.and_eq_true, Bool.not_eq_true'] at h
    exact hP.bind (hcount h.1 h.2) fun _ => hP.pure _
  have hlabel (aspect : Aspect) (name : Text) : P (stage.fromLabel quiet aspect name) := by
    refine hP.bind (hlookup aspect name) fun found => ?_
    cases found with
    | some number => exact hP.pure _
    | none => exact hmissing _
  refine ⟨hlabel .value, hlabel .page, fun target => ?_, fun name => ?_, fun st s h => ?_,
    fun st s h name => ?_, hchar⟩
  · refine hP.bind (hreusable target) fun found => ?_
    cases found with
    | some value => exact hP.pure _
    | none => exact hmissing _
  · refine hP.get_bind (fun st => ?_) fun st s h => by rw [hstructs st s h]
    dsimp only
    split
    · split
      · exact hP.pure _
      · exact hP.throw _
    · exact hlabel .size name
  · exact congrArg Value.ofInt (haddress st s h)
  · exact congrArg Option.isSome (hresolve st s h name)

theorem environment_follows : (stage.environment quiet).Has Eq (Follows (EvalStep stage)) :=
  stage.environment_has quiet Follows.closedIn
    (fun aspect name => Follows.modifyGet (stage.lookup_steps quiet aspect name))
    (fun target => Follows.modifyGet (stage.lookupReusable_steps target))
    (fun _ _ => Follows.modifyGet fun st => .single (.unresolved st _))
    (fun _ _ h => h ▸ rfl) (fun _ _ h => h ▸ rfl) (fun _ _ h _ => h ▸ rfl) fun _ _ h => h ▸ rfl

/-- The evaluation of a slot takes no steps but those of what it sees of the pass. -/
theorem slotValue_leads {step : State → State → Prop} {st : State}
    (henv : (stage.environment st.quiet).Has Eq (Follows step)) (text : Text) :
    ReflTransGen step st (stage.slotValue text st).2 := by
  have h := evaluate_has Follows.closedIn henv text st
  unfold LeadsFrom stateAfter at h
  unfold slotValue
  split
  next value st' heq =>
    rw [EStateM.run] at heq
    rwa [heq] at h
  next e st' heq =>
    rw [EStateM.run] at heq
    rwa [heq] at h

end Stage

end MacroAssembler
