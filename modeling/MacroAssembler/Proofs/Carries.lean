import MacroAssembler.Proofs.Advance
import MacroAssembler.Proofs.Respects

/-!
# Parts of a pass in other surroundings

Most parts of a statement have no use for the sources, for the place in them, for the open loops or
for what was noted before: these are the `Surroundings` of the rest of the state.  A part that
`Carries` over comes to the same in all surroundings.  If it succeeds, it succeeds in any others as
well, with the same result and the same rest of the state, and it adds the same steps to the
history.

It need not come to the same when it fails, so it may also be carried over to an assembly that is
less strict: there only the failures are fewer.  Nor need the other run have the same random
numbers, unless the part draws one.

Such a part also consists of certain steps, from any state and with any outcome.  A part `Serves` if
it does both, and both are shown for it at once.
-/

namespace MacroAssembler

variable {α β ε : Type}

/-- What most parts of a statement have no use for. -/
structure Surroundings where
  store : SourceStore
  file : Option Nat
  loops : List OpenLoop
  history : List Event
  asWritten : List Taking

/-- The surroundings after some more steps have been noted. -/
def Surroundings.after (w : Surroundings) (new : List Event) : Surroundings :=
  { w with history := new ++ w.history }

theorem Surroundings.after_after (w : Surroundings) (new new' : List Event) :
    (w.after new).after new' = w.after (new' ++ new) := by
  rw [after, after, after, List.append_assoc]

namespace State

/-- The surroundings of a state. -/
def surroundings (st : State) : Surroundings where
  store := st.store
  file := st.file
  loops := st.loops
  history := st.history
  asWritten := st.asWritten

/-- A state in other surroundings. -/
def within (st : State) (w : Surroundings) : State :=
  { st with
    store := w.store, file := w.file, loops := w.loops, history := w.history,
    asWritten := w.asWritten }

end State

/-- What another run of a pass has of its own: whether it is strict, and the numbers it draws. -/
structure Terms where
  strict : Bool
  random : Generator

namespace Stage

/-- The terms of a pass. -/
def terms (stage : Stage) : Terms where
  strict := stage.strict
  random := stage.random

/-- What is fixed in a pass, on other terms. -/
def under (stage : Stage) (terms : Terms) : Stage :=
  { stage with strict := terms.strict, random := terms.random }

end Stage

/-- What comes of a run from a state, if it satisfies `Q`, also comes of a run in other
surroundings, where random numbers may be drawn on a condition only. -/
def Mirrors (mayDraw : Prop) (Q : α → Prop) (st : State) (w : Surroundings)
    (r r' : EStateM.Result Fault State α) : Prop :=
  ∀ a st', r = .ok a st' → Q a → ∃ new, st'.history = new ++ st.history ∧
    ((Event.drawn ∈ new → mayDraw) → r' = .ok a (st'.within (w.after new)))

/-- Where a part of a pass succeeds with a result that satisfies `Q`, it comes to the same in all
surroundings, in a pass that is no more strict and has the same random numbers if any are drawn. -/
def CarriesIf (stage : Stage) (Q : α → Prop) (m : PassM α) : Prop :=
  ∀ terms : Terms, (terms.strict = true → stage.strict = true) → ∀ st w,
    Mirrors (terms.random = stage.random) Q st w (m stage st)
      (m (stage.under terms) (st.within w))

/-- Where a part of a pass succeeds, it comes to the same in all surroundings and on all such
terms. -/
abbrev Carries (stage : Stage) (m : PassM α) : Prop :=
  CarriesIf stage Anything m

variable {stage : Stage} {Q : α → Prop} {P : β → Prop}

namespace Mirrors

variable {mayDraw : Prop} {st : State} {w : Surroundings}

theorem ok {a : α} {st' : State} (new : List Event) (hnew : st'.history = new ++ st.history) :
    Mirrors mayDraw Q st w (.ok a st') (.ok a (st'.within (w.after new))) := by
  rintro _ _ ⟨⟩ -
  exact ⟨new, hnew, fun _ => rfl⟩

theorem error {fault : Fault} {st' : State} {r : EStateM.Result Fault State α} :
    Mirrors mayDraw Q st w (.error fault st') r := by
  rintro _ _ ⟨⟩

/-- What follows may rely on what the result of the first part is if the whole succeeds. -/
theorem bind {m m' : EStateM Fault State β} {f f' : β → EStateM Fault State α} {s : State}
    (hm : Mirrors mayDraw P st w (m st) (m' s))
    (hP : ∀ b st₁ a st', f b st₁ = .ok a st' → Q a → P b)
    (hf : ∀ b st₁ w₁, P b → Mirrors mayDraw Q st₁ w₁ (f b st₁) (f' b (st₁.within w₁))) :
    Mirrors mayDraw Q st w ((m >>= f) st) ((m' >>= f') s) := by
  intro a st' hrun ha
  obtain ⟨b, st₁, hfirst, hrest⟩ := bind_eq_ok hrun
  have hb : P b := hP b st₁ a st' hrest ha
  obtain ⟨new, hnew, hfirst'⟩ := hm b st₁ hfirst hb
  obtain ⟨new', hnew', hrest'⟩ := hf b st₁ (w.after new) hb a st' hrest ha
  refine ⟨new' ++ new, ?_, fun hdraw => ?_⟩
  · rw [hnew', hnew, List.append_assoc]
  · rw [bind_of_ok (hfirst' fun h => hdraw (List.mem_append_right _ h)),
      hrest' fun h => hdraw (List.mem_append_left _ h), Surroundings.after_after]

end Mirrors

namespace CarriesIf

/-- What a part does not look at, it does not change. -/
theorem unchanged {m : PassM α} (h : CarriesIf stage Q m) {st st' : State} {a : α}
    (hrun : m stage st = .ok a st') (ha : Q a) :
    st'.store = st.store ∧ st'.file = st.file ∧ st'.loops = st.loops ∧
      st'.asWritten = st.asWritten := by
  obtain ⟨new, -, hrun'⟩ := h stage.terms id st st.surroundings a st' hrun ha
  have heq : st' = st'.within (st.surroundings.after new) := by
    have hsame : m stage st = .ok a (st'.within (st.surroundings.after new)) := hrun' fun _ => rfl
    rw [hrun] at hsame
    injection hsame
  rw [heq]
  exact ⟨rfl, rfl, rfl, rfl⟩

theorem bind {m : PassM β} {f : β → PassM α} (hm : CarriesIf stage P m)
    (hP : ∀ b st a st', f b stage st = .ok a st' → Q a → P b)
    (hf : ∀ b, P b → CarriesIf stage Q (f b)) : CarriesIf stage Q (m >>= f) := by
  intro terms hterms st w
  exact (hm terms hterms st w).bind hP fun b st₁ w₁ hb => hf b hb terms hterms st₁ w₁

theorem mapM {f : α → PassM β} :
    ∀ {l : List α}, (∀ a ∈ l, CarriesIf stage P (f a)) →
      CarriesIf stage (fun bs => ∀ b ∈ bs, P b) (l.mapM f)
  | [], _ => by
    rw [List.mapM_nil]
    exact fun _ _ _ _ => .ok [] rfl
  | a :: l, h => by
    rw [List.mapM_cons]
    intro terms hterms st w
    have hrest := mapM fun b hb => h b (List.mem_cons_of_mem a hb)
    intro bs st' hrun hbs
    obtain ⟨b, st₁, hfirst, hrun⟩ := bind_eq_ok hrun
    obtain ⟨bs', st₂, htail, hrun⟩ := bind_eq_ok hrun
    cases hrun
    obtain ⟨hb, hbs'⟩ := List.forall_mem_cons.1 hbs
    obtain ⟨new, hnew, hfirst'⟩ := h a List.mem_cons_self terms hterms st w b st₁ hfirst hb
    obtain ⟨new', hnew', htail'⟩ := hrest terms hterms st₁ (w.after new) bs' st' htail hbs'
    refine ⟨new' ++ new, ?_, fun hdraw => ?_⟩
    · rw [hnew', hnew, List.append_assoc]
    · rw [PassM.bind_of_ok (hfirst' fun h => hdraw (List.mem_append_right _ h)),
        PassM.bind_of_ok (htail' fun h => hdraw (List.mem_append_left _ h)),
        Surroundings.after_after]
      rfl

end CarriesIf

namespace Carries

theorem ofIf {m : PassM α} (h : Carries stage m) : CarriesIf stage Q m :=
  fun terms hterms st w a st' hrun _ => h terms hterms st w a st' hrun trivial

theorem pure (a : α) : Carries stage (Pure.pure a) :=
  fun _ _ _ _ => .ok [] rfl

theorem throw (fault : Fault) : Carries stage (throw fault : PassM α) :=
  fun _ _ _ _ => .error

theorem misuse (cause : DirectiveError) : Carries stage (PassM.misuse cause : PassM α) :=
  fun _ _ _ _ => .error

theorem bind {m : PassM β} {f : β → PassM α} (hm : Carries stage m)
    (hf : ∀ b, CarriesIf stage Q (f b)) : CarriesIf stage Q (m >>= f) :=
  CarriesIf.bind hm (fun _ _ _ _ _ _ => trivial) fun b _ => hf b

/-- A part may look at what is fixed in the pass, if it does the same on other terms. -/
theorem read_bind {f : Stage → PassM α} (h : CarriesIf stage Q (f stage))
    (heq : ∀ terms, f (stage.under terms) = f stage) : CarriesIf stage Q (read >>= f) := by
  intro terms hterms st w
  have hrun : (read >>= f) (stage.under terms) (st.within w) =
      f stage (stage.under terms) (st.within w) :=
    congrFun (congrFun (heq terms) _) _
  rw [hrun]
  exact h terms hterms st w

/-- A part may look at a state, if it does the same in other surroundings. -/
theorem get_bind {f : State → PassM α} (h : ∀ st, CarriesIf stage Q (f st))
    (heq : ∀ st w, f (State.within st w) = f st) : CarriesIf stage Q (get >>= f) := by
  intro terms hterms st w
  have hrun : (get >>= f) (stage.under terms) (st.within w) =
      f st (stage.under terms) (st.within w) :=
    congrFun (congrFun (heq st w) _) _
  rw [hrun]
  exact h st terms hterms st w

theorem modify {f : State → State} (new : List Event)
    (hnew : ∀ st, (f st).history = new ++ st.history)
    (hf : ∀ st w, f (State.within st w) = (f st).within (w.after new)) :
    Carries stage (modify f : PassM PUnit) := by
  intro terms hterms st w
  show Mirrors _ Anything st w (.ok PUnit.unit (f st)) (.ok PUnit.unit (f (st.within w)))
  rw [hf]
  exact .ok new (hnew st)

theorem record (event : Event) : Carries stage (PassM.record event) :=
  modify [event] (fun _ => rfl) fun _ _ => rfl

theorem closed : Closed PassM (Carries stage) :=
  ⟨pure, throw, bind⟩

/-- A check that stops the statement in a strict assembly, or else what comes after it. -/
theorem unlessStrict {c : Bool → Bool}
    (hc : ∀ strict strict', (strict = true → strict' = true) → c strict = true → c strict' = true)
    {fault : Fault} {m : PassM α} (hm : CarriesIf stage Q m) :
    CarriesIf stage Q (do if c (← read).strict then MonadExcept.throw fault else m) := by
  intro terms hterms st w
  show Mirrors _ Q st w ((if c stage.strict then MonadExcept.throw fault else m) stage st)
    ((if c terms.strict then MonadExcept.throw fault else m) (stage.under terms) (st.within w))
  by_cases h : c stage.strict = true
  · rw [if_pos h]
    exact .error
  · rw [if_neg h, if_neg fun h' => h (hc terms.strict stage.strict hterms h')]
    exact hm terms hterms st w

/-- A part may fail and be observed, if nothing comes of it then. -/
theorem observe {m : PassM α} (h : Carries stage m) :
    CarriesIf stage (fun outcome => ∃ a, outcome = Except.ok a) (PassM.observe m) := by
  rintro terms hterms st w _ st' hrun ⟨a, rfl⟩
  have hm : m stage st = .ok a st' := by
    cases hm : m stage st with
    | ok b st₁ =>
      rw [PassM.observe_of_ok hm] at hrun
      cases hrun
      rfl
    | error fault st₁ =>
      rw [PassM.observe_of_error hm] at hrun
      cases hrun
  obtain ⟨new, hnew, hm'⟩ := h terms hterms st w a st' hm trivial
  exact ⟨new, hnew, fun hdraw => PassM.observe_of_ok (hm' hdraw)⟩

end Carries

/-! ## Expressions -/

/-- Two states in different surroundings, after the same steps have been noted. -/
def InStep (base : List Event) (w : Surroundings) (st s : State) : Prop :=
  ∃ new, st.history = new ++ base ∧ s = st.within (w.after new)

section

variable {base : List Event} {w : Surroundings}

/-- What does the same in all surroundings leaves states in step in step. -/
theorem InStep.change {f : State → State} (new : List Event)
    (hnew : ∀ st, (f st).history = new ++ st.history)
    (hf : ∀ st w, f (State.within st w) = (f st).within (w.after new)) {st s : State}
    (h : InStep base w st s) : InStep base w (f st) (f s) := by
  obtain ⟨old, hold, rfl⟩ := h
  refine ⟨new ++ old, ?_, ?_⟩
  · rw [hnew, hold, List.append_assoc]
  · rw [hf, Surroundings.after_after]

namespace Stage

variable (stage : Stage) (quiet : Bool)
variable {st s : State}

theorem recordReference_inStep (id : LabelId) (h : InStep base w st s) :
    InStep base w (stage.recordReference quiet st id) (stage.recordReference quiet s id) := by
  refine h.change (f := fun st => stage.recordReference quiet st id) []
    (fun st => ?_) fun st w => ?_
  · unfold recordReference
    split
    · rfl
    · rfl
  · have hlocation : (st.within w).location = st.location := rfl
    unfold recordReference
    rw [hlocation]
    split
    · rfl
    · rfl

theorem recordPending_inStep (name : Text) (h : InStep base w st s) :
    InStep base w (stage.recordPending quiet st name) (stage.recordPending quiet s name) := by
  obtain ⟨old, hold, rfl⟩ := h
  have hlocation : (st.within (w.after old)).location = st.location := rfl
  unfold recordPending
  rw [hlocation]
  split
  · exact ⟨_ :: old, congrArg (List.cons _) hold, rfl⟩
  · exact ⟨old, hold, rfl⟩

theorem record_inStep (event : Event) (h : InStep base w st s) :
    InStep base w (st.record event) (s.record event) :=
  h.change (f := fun st => st.record event) [event] (fun _ => rfl) fun _ _ => rfl

theorem lookup_inStep (aspect : Aspect) (name : Text) (h : InStep base w st s) :
    (stage.lookup quiet aspect name st).1 = (stage.lookup quiet aspect name s).1 ∧
      InStep base w (stage.lookup quiet aspect name st).2
        (stage.lookup quiet aspect name s).2 := by
  have hresolve : s.resolveLabel name = st.resolveLabel name := by
    obtain ⟨new, -, rfl⟩ := h
    rfl
  have hprevious : stage.previousEntry s name = stage.previousEntry st name := by
    obtain ⟨new, -, rfl⟩ := h
    rfl
  unfold lookup
  rw [hresolve, hprevious]
  cases st.resolveLabel name with
  | some id =>
    have hreference := stage.recordReference_inStep quiet id h
    refine ⟨?_, hreference⟩
    obtain ⟨new, -, heq⟩ := hreference
    dsimp only
    rw [heq]
    rfl
  | none =>
    cases stage.previousEntry st name with
    | none => exact ⟨rfl, h⟩
    | some entry => exact ⟨rfl, record_inStep _ (stage.recordPending_inStep quiet name h)⟩

theorem lookupReusable_inStep (target : ReusableRef) (h : InStep base w st s) :
    (stage.lookupReusable target st).1 = (stage.lookupReusable target s).1 ∧
      InStep base w (stage.lookupReusable target st).2 (stage.lookupReusable target s).2 := by
  have hreusable : s.reusable = st.reusable := by
    obtain ⟨new, -, rfl⟩ := h
    rfl
  unfold lookupReusable
  rw [hreusable]
  split
  · exact ⟨rfl, record_inStep _ h⟩
  · exact ⟨rfl, h⟩

/-- The environment of a pass shows nothing of the surroundings. -/
theorem environment_inStep :
    (stage.environment quiet).Has (InStep base w) (Respects (InStep base w) Anything Anything) := by
  refine stage.environment_has quiet Respects.closedIn ?_ ?_ ?_ ?_ ?_ ?_ ?_
  · exact fun aspect name => Respects.modifyGet
      (fun _ _ h => ⟨(stage.lookup_inStep quiet aspect name h).1, trivial⟩)
      fun _ _ h => (stage.lookup_inStep quiet aspect name h).2
  · exact fun target => Respects.modifyGet
      (fun _ _ h => ⟨(stage.lookupReusable_inStep target h).1, trivial⟩)
      fun _ _ h => (stage.lookupReusable_inStep target h).2
  · exact fun _ _ => Respects.modifyGet (fun _ _ _ => ⟨rfl, trivial⟩) fun st s h =>
      h.change (f := fun st => { st with unresolved := st.unresolved + 1 }) [] (fun _ => rfl)
        fun _ _ => rfl
  all_goals
    rintro st s ⟨new, -, rfl⟩
    intros
    rfl

end Stage

end

namespace PassM

theorem eval_apply (text : Text) (st : State) : eval text stage st =
    match evaluate (stage.environment st.quiet) text st with
    | .ok value st' => .ok value st'
    | .error e st' =>
      if stage.kind.isLabels && st.unresolved < st'.unresolved then .ok 0 st'
      else .error (Fault.expr e) st' := by
  have hrun : eval text stage st =
      (match evaluate (stage.environment st.quiet) text st with
      | .ok value st' => (do set st'; return value : PassM Float)
      | .error e st' => (do
        set st'
        if stage.kind.isLabels && st.unresolved < st'.unresolved then return 0
        else throw (Fault.expr e) : PassM Float)) stage st := rfl
  rw [hrun]
  cases evaluate (stage.environment st.quiet) text st with
  | ok value st' => rfl
  | error e st' =>
    dsimp only
    cases stage.kind.isLabels && decide (st.unresolved < st'.unresolved) with
    | true => rfl
    | false => rfl

theorem eval_carries (text : Text) : Carries stage (eval text) := by
  intro terms hterms st w a st' hrun _
  have henv : (stage.under terms).environment (st.within w).quiet =
      stage.environment st.quiet := rfl
  have hkind : (stage.under terms).kind = stage.kind := rfl
  have hbefore : (st.within w).unresolved = st.unresolved := rfl
  have hstart : InStep st.history w st (st.within w) := ⟨[], rfl, rfl⟩
  have hagree := evaluate_has Respects.closedIn (stage.environment_inStep st.quiet) text st _ hstart
  rw [eval_apply] at hrun ⊢
  rw [henv, hkind, hbefore]
  generalize evaluate (stage.environment st.quiet) text st = r,
    evaluate (stage.environment st.quiet) text (st.within w) = r' at hagree hrun
  cases hagree with
  | ok _ h' =>
    cases hrun
    obtain ⟨new, hnew, rfl⟩ := h'
    exact ⟨new, hnew, fun _ => rfl⟩
  | @error e st₁ s₁ _ h' =>
    obtain ⟨new, hnew, rfl⟩ := h'
    have hcount : (st₁.within (w.after new)).unresolved = st₁.unresolved := rfl
    dsimp only at hrun ⊢
    rw [hcount]
    split at hrun
    next hcond =>
      cases hrun
      rw [if_pos hcond]
      exact ⟨new, hnew, fun _ => rfl⟩
    next => cases hrun

end PassM

/-! ## Parts that consist of steps -/

/-- A part of a pass that consists of steps, and comes to the same in other surroundings. -/
structure Serves (step : State → State → Prop) (stage : Stage) (m : PassM α) : Prop where
  performs : Performs step stage m
  carries : Carries stage m

namespace Serves

variable {step : State → State → Prop}
variable {m : PassM α} {failing : Prop} {f : α → PassM β}

theorem mono {step' : State → State → Prop} (hstep : ∀ s s', step s s' → step' s s')
    (h : Serves step stage m) : Serves step' stage m :=
  ⟨h.performs.mono hstep, h.carries⟩

theorem act (h : Serves (ValueStep stage) stage m) :
    Serves (Act stage failing) stage m :=
  h.mono fun _ _ => ValueStep.act

theorem change (h : Serves (Act stage failing) stage m) :
    Serves (Change stage failing) stage m :=
  h.mono fun _ _ => .act

theorem pure (a : α) : Serves step stage (Pure.pure a) :=
  ⟨.pure a, Carries.pure a⟩

theorem throw (fault : Fault) : Serves step stage (throw fault : PassM α) :=
  ⟨.throw fault, Carries.throw fault⟩

theorem misuse (cause : DirectiveError) : Serves step stage (PassM.misuse cause : PassM α) :=
  throw _

theorem bind (hm : Serves step stage m) (hf : ∀ a, Serves step stage (f a)) :
    Serves step stage (m >>= f) :=
  ⟨hm.performs.bind fun a => (hf a).performs, Carries.bind hm.carries fun a => (hf a).carries⟩

/-- The first part need only come to the same if its result lets the rest succeed. -/
theorem bind_of_carriesIf {P : α → Prop} (hm : Performs step stage m)
    (hcarries : CarriesIf stage P m) (hP : ∀ a st b st', f a stage st = .ok b st' → P a)
    (hf : ∀ a, Serves step stage (f a)) : Serves step stage (m >>= f) :=
  ⟨hm.bind fun a => (hf a).performs,
    CarriesIf.bind hcarries (fun a st b st' hrun _ => hP a st b st' hrun) fun a _ => (hf a).carries⟩

theorem closed : Closed PassM (Serves step stage) :=
  ⟨pure, throw, bind⟩

theorem read_bind {f : Stage → PassM α} (h : Serves step stage (f stage))
    (heq : ∀ terms, f (stage.under terms) = f stage) : Serves step stage (read >>= f) :=
  ⟨.read_bind h.performs, Carries.read_bind h.carries heq⟩

theorem get_bind {f : State → PassM α} (h : ∀ st, Serves step stage (f st))
    (heq : ∀ st w, f (State.within st w) = f st) : Serves step stage (get >>= f) :=
  ⟨.get_bind fun st => (h st).performs st, Carries.get_bind (fun st => (h st).carries) heq⟩

/-- A change of what only the statements after it depend on. -/
theorem control {f : State → State} (h : ∀ st, (f st).tracked = st.tracked)
    (heq : ∀ st w, f (State.within st w) = (f st).within w) :
    Serves (Act stage failing) stage (modify f : PassM PUnit) :=
  ⟨.modify fun st => .control (h st),
    Carries.modify [] (fun st => congrArg Tracked.history (h st)) heq⟩

/-- A change that is not noted, made to the rest of the state. -/
theorem modify {f : State → State} (hstep : ∀ st, step st (f st))
    (hhistory : ∀ st, (f st).history = st.history)
    (heq : ∀ st w, f (State.within st w) = (f st).within w) :
    Serves step stage (modify f : PassM PUnit) :=
  ⟨.modify hstep, Carries.modify [] hhistory heq⟩

theorem unlessStrict {c : Bool → Bool}
    (hc : ∀ strict strict', (strict = true → strict' = true) → c strict = true → c strict' = true)
    {fault : Fault} (hm : Serves step stage m) :
    Serves step stage (do if c (← read).strict then MonadExcept.throw fault else m) :=
  ⟨.read_bind (iteInduction (fun _ => .throw fault) fun _ => hm.performs),
    Carries.unlessStrict hc hm.carries⟩

theorem check_bind {c : Prop} [Decidable c] {cause : DirectiveError} {f : PUnit → PassM α}
    (hf : ¬c → Serves step stage (f ⟨⟩)) :
    Serves step stage (if c then PassM.misuse cause >>= f else f ⟨⟩) :=
  closed.check_bind hf

/-- An optional part, and what comes after it. -/
theorem when_bind {c : Prop} [Decidable c] {m : PassM PUnit} {f : PUnit → PassM α}
    (hm : Serves step stage m) (hf : Serves step stage (f ⟨⟩)) :
    Serves step stage (if c then m >>= f else f ⟨⟩) :=
  iteInduction (fun _ => bind hm fun _ => hf) fun _ => hf

theorem ofExcept (fault : ε → Fault) (result : Except ε α) :
    Serves step stage (PassM.ofExcept fault result) :=
  closed.ofExcept fault result

theorem forM {f : α → PassM PUnit} {l : List α} (h : ∀ a ∈ l, Serves step stage (f a)) :
    Serves step stage (l.forM f) :=
  closed.forM h

theorem mapM {l : List α} (h : ∀ a ∈ l, Serves step stage (f a)) :
    Serves step stage (l.mapM f) :=
  closed.mapM h

end Serves

end MacroAssembler
