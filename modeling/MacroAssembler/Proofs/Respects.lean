import MacroAssembler.Proofs.Follows

/-!
# Two runs of a computation

That a computation does not depend on a part of the state is a statement about two of its runs, from
states that differ in that part.  `Respects R F Q m` says that from states related by `R` the two
runs of `m` have the same outcome and lead to related states, that the values among the outcomes
satisfy `Q` and the failures `F`.  If nothing is asked of these, it is closed under everything that
computations are put together from.
-/

namespace MacroAssembler

variable {ε σ α β : Type}

/-- Nothing is asked of a value. -/
abbrev Anything {α : Type} : α → Prop :=
  fun _ => True

/-- Two results that differ in their states only. -/
inductive Agree (R : σ → σ → Prop) (F : ε → Prop) (Q : α → Prop) :
    EStateM.Result ε σ α → EStateM.Result ε σ α → Prop
  | ok {a : α} {s t : σ} (ha : Q a) (h : R s t) : Agree R F Q (.ok a s) (.ok a t)
  | error {e : ε} {s t : σ} (he : F e) (h : R s t) : Agree R F Q (.error e s) (.error e t)

/-- From related states, a computation has the same outcome and leads to related states. -/
def Respects (R : σ → σ → Prop) (F : ε → Prop) (Q : α → Prop) (m : EStateM ε σ α) : Prop :=
  ∀ s t, R s t → Agree R F Q (m s) (m t)

variable {R : σ → σ → Prop} {F : ε → Prop} {Q : α → Prop} {P : β → Prop}

theorem Agree.bind {m n : EStateM ε σ α} {f g : α → EStateM ε σ β} {s t : σ}
    (h : Agree R F Q (m s) (n t))
    (hf : ∀ a s' t', Q a → R s' t' → Agree R F P (f a s') (g a t')) :
    Agree R F P ((m >>= f) s) ((n >>= g) t) := by
  generalize hm : m s = r, hn : n t = r' at h
  cases h with
  | ok ha hR =>
    rw [bind_of_ok hm, bind_of_ok hn]
    exact hf _ _ _ ha hR
  | error he hR =>
    rw [bind_of_error hm, bind_of_error hn]
    exact .error he hR

namespace Respects

theorem pure {a : α} (ha : Q a) : Respects R F Q (Pure.pure a : EStateM ε σ α) :=
  fun _ _ h => .ok ha h

theorem throw {e : ε} (he : F e) : Respects R F Q (throw e : EStateM ε σ α) :=
  fun _ _ h => .error he h

theorem bind {m : EStateM ε σ α} {f : α → EStateM ε σ β} (hm : Respects R F Q m)
    (hf : ∀ a, Q a → Respects R F P (f a)) : Respects R F P (m >>= f) :=
  fun s t h => (hm s t h).bind fun a s' t' ha h' => hf a ha s' t' h'

/-- A look at the state does not matter if what is done with it is the same for related states. -/
theorem get_bind {f : σ → EStateM ε σ α} (hf : ∀ s, Respects R F Q (f s))
    (heq : ∀ s t, R s t → f s = f t) : Respects R F Q (get >>= f) := by
  intro s t h
  have hs : Agree R F Q (f s s) (f s t) := hf s s t h
  rw [congrFun (heq s t h) t] at hs
  exact hs

theorem modifyGet {f : σ → α × σ} (ha : ∀ s t, R s t → (f s).1 = (f t).1 ∧ Q (f s).1)
    (hR : ∀ s t, R s t → R (f s).2 (f t).2) :
    Respects R F Q (MonadState.modifyGet f : EStateM ε σ α) := by
  intro s t h
  have hs : (MonadState.modifyGet f : EStateM ε σ α) s = .ok (f s).1 (f s).2 := rfl
  have ht : (MonadState.modifyGet f : EStateM ε σ α) t = .ok (f t).1 (f t).2 := rfl
  rw [hs, ht, ← (ha s t h).1]
  exact .ok (ha s t h).2 (hR s t h)

theorem closedIn : ClosedIn R (Respects (ε := ε) R Anything Anything) :=
  ⟨⟨fun _ => pure trivial, fun _ => throw trivial, fun hm hf => bind hm fun a _ => hf a⟩, get_bind⟩

end Respects

/-! ## Parts of a pass -/

/-- An outcome whose value satisfies `Q` or whose failure satisfies `F`. -/
def Either (F : ε → Prop) (Q : α → Prop) : Except ε α → Prop
  | .ok a => Q a
  | .error e => F e

/-- What is fixed in a pass, with another limit for its steps. -/
def Stage.limited (stage : Stage) (limit : Nat) : Stage :=
  { stage with maxSteps := limit }

/-- From related states, a part of a pass has the same outcome and leads to related states, whatever
limit for the steps the first run has. -/
def RespectsIn (stage : Stage) (R : State → State → Prop) (F : Fault → Prop) (Q : α → Prop)
    (m : PassM α) : Prop :=
  ∀ limit st s, R st s → Agree R F Q (m (stage.limited limit) st) (m stage s)

namespace RespectsIn

variable {stage : Stage} {R : State → State → Prop} {F : Fault → Prop}

theorem pure {a : α} (ha : Q a) : RespectsIn stage R F Q (Pure.pure a) :=
  fun _ _ _ h => .ok ha h

theorem throw {fault : Fault} (h : F fault) : RespectsIn stage R F Q (throw fault) :=
  fun _ _ _ h' => .error h h'

theorem misuse {cause : DirectiveError} (h : F (.directive cause)) :
    RespectsIn stage R F Q (PassM.misuse cause) :=
  throw h

theorem bind {m : PassM α} {f : α → PassM β} (hm : RespectsIn stage R F Q m)
    (hf : ∀ a, Q a → RespectsIn stage R F P (f a)) : RespectsIn stage R F P (m >>= f) :=
  fun limit st s h => (hm limit st s h).bind fun a st' s' ha h' => hf a ha limit st' s' h'

/-- A look at what is fixed does not matter, unless it is at the limit for the steps. -/
theorem read_bind {f : Stage → PassM α} (h : RespectsIn stage R F Q (f stage))
    (heq : ∀ limit, f (stage.limited limit) = f stage) : RespectsIn stage R F Q (read >>= f) := by
  intro limit st s h'
  rw [PassM.read_bind_apply, PassM.read_bind_apply, heq]
  exact h limit st s h'

theorem get_bind {f : State → PassM α} (hf : ∀ st, RespectsIn stage R F Q (f st))
    (heq : ∀ st s, R st s → f st = f s) : RespectsIn stage R F Q (get >>= f) := by
  intro limit st s h
  rw [PassM.get_bind_apply, PassM.get_bind_apply, ← heq st s h]
  exact hf st limit st s h

theorem modify {f : State → State} (h : ∀ st s, R st s → R (f st) (f s)) :
    RespectsIn stage R F Anything (modify f : PassM PUnit) :=
  fun _ st s h' => .ok trivial (h st s h')

theorem mapM {f : α → PassM β} :
    ∀ {l : List α}, (∀ a ∈ l, RespectsIn stage R F P (f a)) →
      RespectsIn stage R F (fun bs => ∀ b ∈ bs, P b) (l.mapM f)
  | [], _ => by
    rw [List.mapM_nil]
    exact pure fun _ h => nomatch h
  | a :: l, h => by
    rw [List.mapM_cons]
    refine bind (h a List.mem_cons_self) fun b hb => ?_
    refine bind (mapM fun c hc => h c (List.mem_cons_of_mem _ hc)) fun bs hbs => ?_
    exact pure (List.forall_mem_cons.2 ⟨hb, hbs⟩)

/-- What comes of a part that is observed is a value or a fault of it. -/
theorem observe {F' : Fault → Prop} {m : PassM α} (h : RespectsIn stage R F Q m) :
    RespectsIn stage R F' (Either F Q) (PassM.observe m) := by
  intro limit st s h'
  have hagree := h limit st s h'
  generalize hst : m (stage.limited limit) st = r, hs : m stage s = r' at hagree
  cases hagree with
  | ok ha hR =>
    rw [PassM.observe_of_ok hst, PassM.observe_of_ok hs]
    exact .ok ha hR
  | error he hR =>
    rw [PassM.observe_of_error hst, PassM.observe_of_error hs]
    exact .ok he hR

end RespectsIn

end MacroAssembler
