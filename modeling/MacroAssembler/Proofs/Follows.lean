import Mathlib.Logic.Relation
import MacroAssembler.Pass.State

/-!
# Computations as sequences of steps

Every computation of the assembler runs on a state that survives its failures.  What such a
computation can do to the state is said once, by a relation of single steps; `Follows step m` says
that every run of `m`, from any state and with any outcome, is a sequence of such steps.  Like other
properties of computations it is `Closed` under everything that they are put together from, so it is
shown for a computation by going through its parts, and an invariant of the steps is then an
invariant of the computation.

A part that relies on what was done before it is treated from the state that it starts in:
`LeadsFrom step s m` is about the one run of `m` from `s`.
-/

namespace MacroAssembler

open Relation

/-! ## Parts of a computation -/

section

variable {ε : Type} (M : Type → Type) [Monad M] [MonadExcept ε M]

/-- A property that a computation has if its parts have it. -/
structure Closed (P : ∀ {α : Type}, M α → Prop) : Prop where
  pure : ∀ {α : Type} (a : α), P (Pure.pure a : M α)
  throw : ∀ {α : Type} (e : ε), P (throw e : M α)
  bind : ∀ {α β : Type} {m : M α} {f : α → M β}, P m → (∀ a, P (f a)) → P (m >>= f)

namespace Closed

variable {M} {P : ∀ {α : Type}, M α → Prop} {α β : Type} (hP : Closed M P)
include hP

theorem forM {f : α → M PUnit} : ∀ {l : List α}, (∀ a ∈ l, P (f a)) → P (l.forM f)
  | [], _ => hP.pure _
  | _ :: _, h =>
    hP.bind (h _ List.mem_cons_self) fun _ => forM fun c hc => h c (List.mem_cons_of_mem _ hc)

theorem mapM [LawfulMonad M] {f : α → M β} : ∀ {l : List α}, (∀ a ∈ l, P (f a)) → P (l.mapM f)
  | [], _ => by
    rw [List.mapM_nil]
    exact hP.pure _
  | a :: l, h => by
    rw [List.mapM_cons]
    refine hP.bind (h a List.mem_cons_self) fun b => ?_
    refine hP.bind (mapM fun c hc => h c (List.mem_cons_of_mem _ hc)) fun bs => ?_
    exact hP.pure _

end Closed

end

variable {ε σ α β : Type}
variable {m : EStateM ε σ α} {f : α → EStateM ε σ β}

/-- A closed property that also a look at the state has, if what is done with it has, and does not
depend on more than related states have in common. -/
structure ClosedIn (R : σ → σ → Prop) (P : ∀ {α : Type}, EStateM ε σ α → Prop) : Prop extends
    Closed (EStateM ε σ) P where
  get_bind : ∀ {α : Type} {f : σ → EStateM ε σ α}, (∀ s, P (f s)) →
    (∀ s t, R s t → f s = f t) → P (get >>= f)

/-- The state that a computation leaves behind, whether it succeeds or fails. -/
def stateAfter (m : EStateM ε σ α) (s : σ) : σ :=
  match m s with
  | .ok _ s => s
  | .error _ s => s

theorem stateAfter_of_ok {s s' : σ} {a : α} (h : m s = .ok a s') : stateAfter m s = s' := by
  rw [stateAfter, h]

theorem stateAfter_of_error {s s' : σ} {e : ε} (h : m s = .error e s') : stateAfter m s = s' := by
  rw [stateAfter, h]

/-- The run of a computation from a state is a sequence of steps. -/
def LeadsFrom (step : σ → σ → Prop) (s : σ) (m : EStateM ε σ α) : Prop :=
  ReflTransGen step s (stateAfter m s)

/-- Every run of a computation is a sequence of steps. -/
def Follows (step : σ → σ → Prop) (m : EStateM ε σ α) : Prop :=
  ∀ s, LeadsFrom step s m

theorem bind_of_ok {s s' : σ} {a : α} (h : m s = .ok a s') : (m >>= f) s = f a s' := by
  simp only [Bind.bind, EStateM.bind, h]

theorem bind_of_error {s s' : σ} {e : ε} (h : m s = .error e s') : (m >>= f) s = .error e s' := by
  simp only [Bind.bind, EStateM.bind, h]

theorem get_bind_apply {f : σ → EStateM ε σ α} (s : σ) :
    ((get : EStateM ε σ σ) >>= f) s = f s s :=
  rfl

/-- A sequence of two computations succeeds only if both do. -/
theorem bind_eq_ok {s s' : σ} {b : β} (h : (m >>= f) s = .ok b s') :
    ∃ a s₁, m s = .ok a s₁ ∧ f a s₁ = .ok b s' := by
  cases hm : m s with
  | ok a s₁ =>
    rw [bind_of_ok hm] at h
    exact ⟨a, s₁, rfl, h⟩
  | error e s₁ =>
    rw [bind_of_error hm] at h
    cases h

theorem tryCatch_of_ok {handler : ε → EStateM ε σ α} {s s' : σ} {a : α} (h : m s = .ok a s') :
    tryCatch m handler s = .ok a s' := by
  change EStateM.tryCatch m handler s = .ok a s'
  delta EStateM.tryCatch
  simp only [h]

theorem tryCatch_of_error {handler : ε → EStateM ε σ α} {s s' : σ} {e : ε} (h : m s = .error e s') :
    tryCatch m handler s = handler e s' := by
  change EStateM.tryCatch m handler s = handler e s'
  delta EStateM.tryCatch
  simp only [h]
  rfl

/-! ## From one state -/

variable {step : σ → σ → Prop} {s : σ}

theorem stateAfter_bind_of_ok {s' : σ} {a : α} (h : m s = .ok a s') :
    stateAfter (m >>= f) s = stateAfter (f a) s' := by
  rw [stateAfter, bind_of_ok h, stateAfter]

theorem stateAfter_bind_of_error {s' : σ} {e : ε} (h : m s = .error e s') :
    stateAfter (m >>= f) s = s' := by
  rw [stateAfter, bind_of_error h]

theorem LeadsFrom.bind (hm : LeadsFrom step s m)
    (hf : ∀ a s', m s = .ok a s' → LeadsFrom step s' (f a)) : LeadsFrom step s (m >>= f) := by
  cases h : m s with
  | ok a s' =>
    rw [LeadsFrom, stateAfter_of_ok h] at hm
    rw [LeadsFrom, stateAfter_bind_of_ok h]
    exact hm.trans (hf a s' h)
  | error e s' =>
    rw [LeadsFrom, stateAfter_of_error h] at hm
    rw [LeadsFrom, stateAfter_bind_of_error h]
    exact hm

theorem LeadsFrom.get_bind {f : σ → EStateM ε σ α} (h : LeadsFrom step s (f s)) :
    LeadsFrom step s (get >>= f) :=
  h

/-- A computation that leads along steps leads along steps of a larger relation. -/
theorem LeadsFrom.mono {step' : σ → σ → Prop} (hstep : ∀ s s', step s s' → step' s s')
    (h : LeadsFrom step s m) : LeadsFrom step' s m :=
  ReflTransGen.mono hstep _ _ h

/-! ## From every state -/

namespace Follows

variable {m : EStateM ε σ α}

theorem pure (a : α) : Follows step (Pure.pure a : EStateM ε σ α) :=
  fun _ => ReflTransGen.refl

theorem throw (e : ε) : Follows step (throw e : EStateM ε σ α) :=
  fun _ => ReflTransGen.refl

theorem bind {f : α → EStateM ε σ β} (hm : Follows step m) (hf : ∀ a, Follows step (f a)) :
    Follows step (m >>= f) :=
  fun s => (hm s).bind fun a s' _ => hf a s'

theorem get : Follows step (MonadState.get : EStateM ε σ σ) :=
  fun _ => ReflTransGen.refl

theorem closedIn {R : σ → σ → Prop} : ClosedIn R (Follows (ε := ε) step) :=
  ⟨⟨pure, throw, bind⟩, fun hf _ => bind get hf⟩

theorem modifyGet {f : σ → α × σ} (h : ∀ s, ReflTransGen step s (f s).2) :
    Follows step (MonadState.modifyGet f : EStateM ε σ α) := by
  intro s
  have hs : stateAfter (MonadState.modifyGet f : EStateM ε σ α) s = (f s).2 := rfl
  rw [LeadsFrom, hs]
  exact h s

theorem tryCatch {handler : ε → EStateM ε σ α} (hm : Follows step m)
    (hh : ∀ e, Follows step (handler e)) : Follows step (tryCatch m handler) := by
  intro s
  cases h : m s with
  | ok a s' =>
    have hs : ReflTransGen step s s' := stateAfter_of_ok h ▸ hm s
    rw [LeadsFrom, stateAfter_of_ok (tryCatch_of_ok h)]
    exact hs
  | error e s' =>
    have hs : ReflTransGen step s s' := stateAfter_of_error h ▸ hm s
    rw [LeadsFrom, stateAfter, tryCatch_of_error h]
    exact hs.trans (hh e s')

theorem mono {step' : σ → σ → Prop} (hstep : ∀ s s', step s s' → step' s s') (h : Follows step m) :
    Follows step' m :=
  fun s => (h s).mono hstep

end Follows

/-! ## Invariants -/

/-- What every step keeps, a sequence of steps keeps. -/
theorem keeps_of_steps {P : σ → Prop} (hstep : ∀ s s', step s s' → P s → P s') {s s' : σ}
    (h : ReflTransGen step s s') (hs : P s) : P s' := by
  induction h with
  | refl => exact hs
  | tail _ hlast ih => exact hstep _ _ hlast ih

/-! ## Parts of a pass -/

/-- The run of a part of a pass from a state is a sequence of steps. -/
def PerformsFrom (step : State → State → Prop) (stage : Stage) (st : State) (m : PassM α) : Prop :=
  LeadsFrom step st (m stage)

/-- Every run of a part of a pass is a sequence of steps. -/
def Performs (step : State → State → Prop) (stage : Stage) (m : PassM α) : Prop :=
  ∀ st, PerformsFrom step stage st m

variable {stage : Stage} {step : State → State → Prop} {st : State}

theorem PassM.bind_of_ok {m : PassM α} {f : α → PassM β} {a : α} {st' : State}
    (h : m stage st = .ok a st') : (m >>= f) stage st = f a stage st' :=
  MacroAssembler.bind_of_ok h

theorem PassM.bind_of_error {m : PassM α} {f : α → PassM β} {fault : Fault} {st' : State}
    (h : m stage st = .error fault st') : (m >>= f) stage st = .error fault st' :=
  MacroAssembler.bind_of_error h

theorem PassM.get_bind_apply {f : State → PassM α} (stage : Stage) (st : State) :
    ((get : PassM State) >>= f) stage st = f st stage st :=
  rfl

theorem PassM.read_bind_apply {f : Stage → PassM α} (stage : Stage) (st : State) :
    ((read : PassM Stage) >>= f) stage st = f stage stage st :=
  rfl

theorem PassM.observe_of_ok {m : PassM α} {a : α} {st' : State} (h : m stage st = .ok a st') :
    PassM.observe m stage st = .ok (.ok a) st' := by
  refine tryCatch_of_ok (m := Except.ok <$> m stage) ?_
  simp only [Functor.map, EStateM.map, h]

theorem PassM.observe_of_error {m : PassM α} {fault : Fault} {st' : State}
    (h : m stage st = .error fault st') : PassM.observe m stage st = .ok (.error fault) st' := by
  refine tryCatch_of_error (m := Except.ok <$> m stage) ?_
  simp only [Functor.map, EStateM.map, h]

namespace PerformsFrom

theorem bind {m : PassM α} {f : α → PassM β} (hm : PerformsFrom step stage st m)
    (hf : ∀ a st', m stage st = .ok a st' → PerformsFrom step stage st' (f a)) :
    PerformsFrom step stage st (m >>= f) :=
  LeadsFrom.bind hm hf

/-- A part that starts by asking for the stage is about the one stage that it runs in. -/
theorem read_bind {f : Stage → PassM α} (h : PerformsFrom step stage st (f stage)) :
    PerformsFrom step stage st (read >>= f) :=
  h

theorem get_bind {f : State → PassM α} (h : PerformsFrom step stage st (f st)) :
    PerformsFrom step stage st (MonadState.get >>= f) :=
  h

theorem set {st' : State} (h : ReflTransGen step st st') :
    PerformsFrom step stage st (MonadStateOf.set st') :=
  h

theorem modify_bind {f : State → State} {g : PUnit → PassM α} (hf : ReflTransGen step st (f st))
    (h : PerformsFrom step stage (f st) (g ⟨⟩)) : PerformsFrom step stage st (modify f >>= g) :=
  hf.trans h

theorem modify {f : State → State} (h : ReflTransGen step st (f st)) :
    PerformsFrom step stage st (modify f : PassM PUnit) :=
  h

end PerformsFrom

namespace Closed

variable {P : ∀ {α : Type}, PassM α → Prop} (hP : Closed PassM P)
include hP

/-- A check that stops the statement, and what comes after it. -/
theorem check_bind {c : Prop} [Decidable c] {cause : DirectiveError} {f : PUnit → PassM α}
    (hf : ¬c → P (f ⟨⟩)) : P (if c then PassM.misuse cause >>= f else f ⟨⟩) :=
  iteInduction (fun _ => hP.throw (α := α) (.directive cause)) hf

theorem ofExcept (fault : ε → Fault) (result : Except ε α) : P (PassM.ofExcept fault result) := by
  cases result with
  | ok a => exact hP.pure a
  | error e => exact hP.throw _

theorem optionMapM {f : α → PassM β} (h : ∀ a, P (f a)) (o : Option α) : P (o.mapM f) := by
  cases o with
  | none => exact hP.pure none
  | some a => exact hP.bind (h a) fun b => hP.pure (some b)

end Closed

namespace Performs

theorem pure (a : α) : Performs step stage (Pure.pure a) :=
  Follows.pure a

theorem throw (fault : Fault) : Performs step stage (throw fault : PassM α) :=
  Follows.throw fault

theorem misuse (cause : DirectiveError) : Performs step stage (PassM.misuse cause : PassM α) :=
  Follows.throw _

theorem bind {m : PassM α} {f : α → PassM β} (hm : Performs step stage m)
    (hf : ∀ a, Performs step stage (f a)) : Performs step stage (m >>= f) :=
  Follows.bind hm hf

theorem closed : Closed PassM (Performs step stage) :=
  ⟨pure, throw, bind⟩

theorem get : Performs step stage (MonadState.get : PassM State) :=
  Follows.get

theorem read_bind {f : Stage → PassM α} (h : Performs step stage (f stage)) :
    Performs step stage (read >>= f) :=
  h

theorem get_bind {f : State → PassM α} (h : ∀ st, PerformsFrom step stage st (f st)) :
    Performs step stage (MonadState.get >>= f) :=
  h

theorem modify {f : State → State} (h : ∀ st, step st (f st)) :
    Performs step stage (modify f : PassM Unit) :=
  Follows.modifyGet fun st => .single (h st)

theorem check_bind {c : Prop} [Decidable c] {cause : DirectiveError} {f : PUnit → PassM α}
    (hf : ¬c → Performs step stage (f ⟨⟩)) :
    Performs step stage (if c then PassM.misuse cause >>= f else f ⟨⟩) :=
  closed.check_bind hf

theorem ofExcept (fault : ε → Fault) (result : Except ε α) :
    Performs step stage (PassM.ofExcept fault result) :=
  closed.ofExcept fault result

theorem observe {m : PassM α} (h : Performs step stage m) :
    Performs step stage (PassM.observe m) :=
  Follows.tryCatch (Follows.bind h fun _ => Follows.pure _) fun _ => Follows.pure _

theorem forM {f : α → PassM PUnit} {l : List α} (h : ∀ a ∈ l, Performs step stage (f a)) :
    Performs step stage (l.forM f) :=
  closed.forM h

theorem mono {step' : State → State → Prop} (hstep : ∀ s s', step s s' → step' s s')
    {m : PassM α} (h : Performs step stage m) : Performs step' stage m :=
  Follows.mono hstep h

end Performs

end MacroAssembler
