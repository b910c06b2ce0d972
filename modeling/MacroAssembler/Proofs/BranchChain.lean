import MacroAssembler.Proofs.Directive

/-!
# One branch of a conditional chain

The stack of open blocks keeps three flags for each block, and a call on the stack looks only at
the innermost one.  What the flags mean is a matter of the whole history: which branches a chain
has begun so far, and which of them were assembled.  This module keeps that history beside the
stack, and shows after any sequence of calls, with any outcomes of their conditions, that the flags
say what the history says.

A `Call` comes with the outcome that its condition would have.  It is run by the operations of the
stack themselves, in a monad that notes whether the condition was consulted.

* `Recorded` is the invariant: block by block, the flags `Records` the chain of the block.
* `Recorded.step` is one call, and `recorded_afterCalls` a sequence of them.
* `BranchDirective.run_cases` says that a directive around branches is one such call in a pass.
-/

namespace MacroAssembler

namespace Conditionals

/-! ## Calls -/

/-- A call on the stack, with the outcome of its condition, which is `none` if the condition
fails. -/
inductive Call where
  | openBlock (outcome : Option Bool)
  | alternative (outcome : Option Bool)
  | otherwise
  | close
  deriving DecidableEq, Repr

/-- Why a call fails. -/
inductive Refusal where
  | condition
  | misplaced (cause : ConditionalError)
  deriving DecidableEq, Repr

/-- A condition with a given outcome, which notes that it was consulted. -/
def consult (outcome : Option Bool) : StateM Bool (Except Refusal Bool) := do
  set true
  return outcome.elim (.error .condition) .ok

namespace Call

/-- What comes of a call on a stack, and whether its condition was consulted. -/
def probe (call : Call) (s : Conditionals) :
    StateM Bool (EStateM.Result Refusal Conditionals Unit) :=
  match call with
  | openBlock outcome => s.beginBlock (consult outcome)
  | alternative outcome => s.beginAlternative .misplaced (consult outcome)
  | otherwise => pure (beginFinal .misplaced s)
  | close => pure (endBlock .misplaced s)

/-- Makes a call. -/
def run (call : Call) : EStateM Refusal Conditionals Unit :=
  fun s => (call.probe s false).1

/-- The stack after a call. -/
def after (call : Call) (s : Conditionals) : Conditionals :=
  stateAfter call.run s

/-- Whether a call consults its condition. -/
def consults (call : Call) (s : Conditionals) : Bool :=
  (call.probe s false).2

/-- Whether a call succeeds. -/
def succeeds (call : Call) (s : Conditionals) : Bool :=
  match call.run s with
  | .ok _ _ => true
  | .error _ _ => false

/-- What a call can come to: whether its condition is consulted, whether it succeeds, and the stack
after it. -/
inductive Comes : Call → Conditionals → Bool → Bool → Conditionals → Prop
  | opened {s : Conditionals} (h : s.active = true) (holds : Bool) :
      Comes (openBlock (some holds)) s true true ⟨⟨holds, holds, true, false⟩ :: s.branches⟩
  | notOpened {s : Conditionals} (h : s.active = true) : Comes (openBlock none) s true false s
  | openedInside {s : Conditionals} (h : s.active = false) (outcome : Option Bool) :
      Comes (openBlock outcome) s false true ⟨⟨false, false, false, false⟩ :: s.branches⟩
  | passed {b : Branch} {rest : List Branch} (hfinal : b.seenElse = false)
      (h : b.parentActive = false ∨ b.taken = true) (outcome : Option Bool) :
      Comes (alternative outcome) ⟨b :: rest⟩ false true ⟨{ b with active := false } :: rest⟩
  | tried {b : Branch} {rest : List Branch} (hfinal : b.seenElse = false)
      (hparent : b.parentActive = true) (htaken : b.taken = false) (holds : Bool) :
      Comes (alternative (some holds)) ⟨b :: rest⟩ true true
        ⟨{ b with active := holds, taken := holds } :: rest⟩
  | notTried {b : Branch} {rest : List Branch} (hfinal : b.seenElse = false)
      (hparent : b.parentActive = true) (htaken : b.taken = false) :
      Comes (alternative none) ⟨b :: rest⟩ true false ⟨b :: rest⟩
  | noAlternative {s : Conditionals} (h : s.branches.head?.all Branch.seenElse = true)
      (outcome : Option Bool) : Comes (alternative outcome) s false false s
  | final {b : Branch} {rest : List Branch} (hfinal : b.seenElse = false) :
      Comes otherwise ⟨b :: rest⟩ false true
        ⟨⟨b.parentActive && !b.taken, true, b.parentActive, true⟩ :: rest⟩
  | notFinal {s : Conditionals} (h : s.branches.head?.all Branch.seenElse = true) :
      Comes otherwise s false false s
  | closed (b : Branch) (rest : List Branch) : Comes close ⟨b :: rest⟩ false true ⟨rest⟩
  | notClosed : Comes close ⟨[]⟩ false false ⟨[]⟩

theorem probe_openBlock (outcome : Option Bool) (s : Conditionals) :
    (openBlock outcome).probe s false =
      if s.active then
        match outcome with
        | some holds => (.ok () ⟨⟨holds, holds, true, false⟩ :: s.branches⟩, true)
        | none => (.error .condition s, true)
      else (.ok () ⟨⟨false, false, false, false⟩ :: s.branches⟩, false) := by
  rw [probe, beginBlock]
  cases s.active with
  | false => rfl
  | true =>
    cases outcome with
    | some holds => rfl
    | none => rfl

theorem comes (call : Call) (s : Conditionals) :
    Comes call s (call.consults s) (call.succeeds s) (call.after s) := by
  obtain ⟨branches⟩ := s
  cases call with
  | openBlock outcome =>
    rw [consults, succeeds, after, stateAfter, run, probe_openBlock]
    cases hactive : active ⟨branches⟩ with
    | false => exact .openedInside hactive outcome
    | true =>
      cases outcome with
      | some holds => exact .opened hactive holds
      | none => exact .notOpened hactive
  | alternative outcome =>
    cases branches with
    | nil => exact .noAlternative rfl outcome
    | cons b rest =>
      obtain ⟨active, taken, parentActive, seenElse⟩ := b
      cases seenElse with
      | true => exact .noAlternative rfl outcome
      | false =>
        cases parentActive with
        | false => exact .passed rfl (Or.inl rfl) outcome
        | true =>
          cases taken with
          | true => exact .passed rfl (Or.inr rfl) outcome
          | false =>
            cases outcome with
            | some holds => exact .tried rfl rfl rfl holds
            | none => exact .notTried rfl rfl rfl
  | otherwise =>
    cases branches with
    | nil => exact .notFinal rfl
    | cons b rest =>
      obtain ⟨active, taken, parentActive, seenElse⟩ := b
      cases seenElse with
      | true => exact .notFinal rfl
      | false => exact .final rfl
  | close =>
    cases branches with
    | nil => exact .notClosed
    | cons b rest => exact .closed b rest

/-- A call that fails leaves the stack as it was. -/
theorem after_of_not_succeeds {call : Call} {s : Conditionals} (h : call.succeeds s = false) :
    call.after s = s := by
  have hcomes := call.comes s
  rw [h] at hcomes
  generalize call.consults s = consulted, call.after s = s' at hcomes ⊢
  cases hcomes with
  | notOpened _ => rfl
  | notTried _ _ _ => rfl
  | noAlternative _ _ => rfl
  | notFinal _ => rfl
  | notClosed => rfl

end Call

/-! ## The history of the open blocks -/

/-- A branch that was begun. -/
structure Begun where
  /-- Whether it is the final branch of its chain. -/
  isFinal : Bool
  /-- Whether it is assembled. -/
  active : Bool
  deriving DecidableEq, Repr

/-- The branches that an open block has begun, the latest first. -/
abbrev Chain := List Begun

/-- The chains of the open blocks after a call that succeeds, when what follows it is assembled or
not. -/
def Call.extend (call : Call) (active : Bool) (chains : List Chain) : List Chain :=
  match call, chains with
  | openBlock _, chains => [⟨false, active⟩] :: chains
  | alternative _, chain :: around => (⟨false, active⟩ :: chain) :: around
  | otherwise, chain :: around => (⟨true, active⟩ :: chain) :: around
  | close, _ :: around => around
  | _, [] => []

/-- The stack with the chains of its blocks. -/
structure Progress where
  stack : Conditionals := {}
  chains : List Chain := []
  deriving DecidableEq, Repr

namespace Progress

/-- Makes a call.  One that fails begins no branch. -/
def step (p : Progress) (call : Call) : Progress where
  stack := call.after p.stack
  chains :=
    if call.succeeds p.stack then call.extend (call.after p.stack).active p.chains else p.chains

/-- What a sequence of calls comes to, from no open block. -/
def afterCalls (calls : List Call) : Progress :=
  calls.foldl step {}

end Progress

/-- Whether the latest branch of the innermost block is assembled; outside of all blocks
everything is. -/
def assembling (chains : List Chain) : Bool :=
  chains.head?.all fun chain => chain.head?.any Begun.active

/-- Whether the outcome of a call's condition matters: the block around is assembled, and the chain
that the call goes on with has neither an assembled branch nor the final one yet. -/
def Call.decides (call : Call) (chains : List Chain) : Bool :=
  match call, chains with
  | openBlock _, chains => assembling chains
  | alternative _, chain :: around =>
    assembling around && !chain.any Begun.active && !chain.any Begun.isFinal
  | _, _ => false

/-! ## The flags -/

/-- The flags of a block say what its chain says. -/
structure Records (b : Branch) (around : Bool) (chain : Chain) : Prop where
  parentActive_eq : b.parentActive = around
  active_eq : chain.head?.map Begun.active = some b.active
  taken_eq : b.taken = (chain.any Begun.active || chain.any Begun.isFinal)
  seenElse_eq : b.seenElse = chain.any Begun.isFinal
  countP_eq : chain.countP Begun.active = (around && b.taken).toNat

/-- The flags of all open blocks say what their chains say. -/
inductive Recorded : List Branch → List Chain → Prop
  | nil : Recorded [] []
  | cons {b : Branch} {chain : Chain} {branches : List Branch} {chains : List Chain}
      (h : Records b (active ⟨branches⟩) chain) (hrest : Recorded branches chains) :
      Recorded (b :: branches) (chain :: chains)

namespace Records

variable {b : Branch} {around : Bool} {chain : Chain}

theorem countP_le_one (h : Records b around chain) : chain.countP Begun.active ≤ 1 := by
  rw [h.countP_eq]
  exact Bool.toNat_le _

/-- The current branch is assembled only inside of assembled code, and then it is taken. -/
theorem of_active (h : Records b around chain) (hactive : b.active = true) :
    b.parentActive = true ∧ b.taken = true := by
  have hhead := h.active_eq
  cases chain with
  | nil => cases hhead
  | cons current earlier =>
    have hcurrent : current.active = true := by
      rw [List.head?_cons, Option.map_some, Option.some.injEq] at hhead
      rw [hhead, hactive]
    have hpos : 0 < (current :: earlier).countP Begun.active :=
      List.countP_pos_iff.2 ⟨current, List.mem_cons_self, hcurrent⟩
    have hflags : (around && b.taken) = true := by
      rw [h.countP_eq] at hpos
      cases hand : (around && b.taken) with
      | true => rfl
      | false =>
        rw [hand] at hpos
        exact absurd hpos (Nat.lt_irrefl 0)
    rw [Bool.and_eq_true] at hflags
    exact ⟨h.parentActive_eq.trans hflags.1, hflags.2⟩

/-- With its final branch, a chain inside of assembled code has one that is assembled. -/
theorem countP_eq_one (h : Records b around chain) (hparent : b.parentActive = true)
    (hfinal : chain.any Begun.isFinal = true) : chain.countP Begun.active = 1 := by
  rw [h.countP_eq, h.taken_eq, hfinal, ← h.parentActive_eq, hparent, Bool.or_true]
  rfl

/-! ### The next branch -/

/-- Whether an alternative would consult its condition. -/
theorem pending_eq (h : Records b around chain) :
    (around && !chain.any Begun.active && !chain.any Begun.isFinal) =
      (b.parentActive && !b.taken && !b.seenElse) := by
  rw [h.taken_eq, h.seenElse_eq, h.parentActive_eq]
  cases chain.any Begun.isFinal with
  | true => rw [Bool.not_true, Bool.and_false, Bool.and_false]
  | false => rw [Bool.or_false]

theorem begin_passed (h : Records b around chain) :
    Records { b with active := false } around (⟨false, false⟩ :: chain) :=
  ⟨h.parentActive_eq, rfl, h.taken_eq, h.seenElse_eq, h.countP_eq⟩

theorem begin_tried (h : Records b around chain) (hparent : b.parentActive = true)
    (htaken : b.taken = false) (holds : Bool) :
    Records { b with active := holds, taken := holds } around (⟨false, holds⟩ :: chain) := by
  have hnone := h.taken_eq
  rw [htaken, eq_comm, Bool.or_eq_false_iff] at hnone
  have hcount := h.countP_eq
  rw [htaken, Bool.and_false] at hcount
  refine ⟨h.parentActive_eq, rfl, ?_, h.seenElse_eq, ?_⟩
  · simp [hnone]
  · simp [← h.parentActive_eq, hparent, List.countP_cons, hcount]
    cases holds <;> rfl

theorem begin_final (h : Records b around chain) :
    Records ⟨b.parentActive && !b.taken, true, b.parentActive, true⟩ around
      (⟨true, b.parentActive && !b.taken⟩ :: chain) := by
  refine ⟨h.parentActive_eq, rfl, ?_, rfl, ?_⟩
  · simp
  · have hcount := h.countP_eq
    simp [List.countP_cons, hcount, h.parentActive_eq]
    cases around <;> cases b.taken <;> rfl

end Records

namespace Recorded

variable {s : Conditionals} {branches : List Branch} {chains : List Chain}

theorem length_eq (h : Recorded branches chains) : branches.length = chains.length := by
  induction h with
  | nil => rfl
  | cons _ _ ih => rw [List.length_cons, List.length_cons, ih]

/-- The flags of the block at a depth, and the chain at that depth. -/
theorem records (h : Recorded branches chains) {i : Nat} {b : Branch} {chain : Chain}
    (hb : branches[i]? = some b) (hchain : chains[i]? = some chain) :
    Records b (active ⟨branches.drop (i + 1)⟩) chain := by
  induction h generalizing i with
  | nil => cases hb
  | cons h _ ih =>
    cases i with
    | zero =>
      cases hb
      cases hchain
      exact h
    | succ i => exact ih hb hchain

theorem active_eq_assembling (h : Recorded branches chains) :
    active ⟨branches⟩ = assembling chains := by
  cases h with
  | nil => rfl
  | @cons b chain branches chains h _ =>
    have hhead := h.active_eq
    cases chain with
    | nil => cases hhead
    | cons current earlier =>
      rw [List.head?_cons, Option.map_some, Option.some.injEq] at hhead
      exact hhead.symm

/-- Whether the condition of an alternative decides something, by the flags of its block. -/
theorem decides_alternative {b : Branch} {chain : Chain} (h : Records b (active ⟨branches⟩) chain)
    (hrest : Recorded branches chains) (outcome : Option Bool) :
    (Call.alternative outcome).decides (chain :: chains) =
      (b.parentActive && !b.taken && !b.seenElse) := by
  rw [Call.decides, ← hrest.active_eq_assembling, h.pending_eq]

/-- **The step**: a call leaves the flags and the chains in agreement, and consults its condition
exactly if that decides something. -/
theorem step (h : Recorded s.branches chains) (call : Call) :
    let p := Progress.step ⟨s, chains⟩ call
    Recorded p.stack.branches p.chains ∧ call.consults s = call.decides chains := by
  have hcomes := call.comes s
  have hassembling := h.active_eq_assembling
  unfold Progress.step
  dsimp only
  generalize call.consults s = consulted, call.succeeds s = ok, call.after s = s' at hcomes ⊢
  cases hcomes with
  | opened hactive holds =>
    refine ⟨.cons ?_ h, hactive.symm.trans hassembling⟩
    rw [hactive]
    cases holds with
    | true => exact ⟨rfl, rfl, rfl, rfl, rfl⟩
    | false => exact ⟨rfl, rfl, rfl, rfl, rfl⟩
  | notOpened hactive => exact ⟨h, hactive.symm.trans hassembling⟩
  | openedInside hactive outcome =>
    refine ⟨.cons ?_ h, hactive.symm.trans hassembling⟩
    rw [hactive]
    exact ⟨rfl, rfl, rfl, rfl, rfl⟩
  | passed hfinal hclosed outcome =>
    cases h with
    | cons hb hrest =>
      refine ⟨.cons hb.begin_passed hrest, ?_⟩
      rw [decides_alternative hb hrest]
      rcases hclosed with hparent | htaken
      · rw [hparent, Bool.false_and, Bool.false_and]
      · rw [htaken, Bool.not_true, Bool.and_false, Bool.false_and]
  | tried hfinal hparent htaken holds =>
    cases h with
    | cons hb hrest =>
      refine ⟨.cons (hb.begin_tried hparent htaken holds) hrest, ?_⟩
      rw [decides_alternative hb hrest, hparent, htaken, hfinal]
      rfl
  | notTried hfinal hparent htaken =>
    refine ⟨h, ?_⟩
    cases h with
    | cons hb hrest =>
      rw [decides_alternative hb hrest, hparent, htaken, hfinal]
      rfl
  | noAlternative hhead outcome =>
    refine ⟨h, ?_⟩
    obtain ⟨branches⟩ := s
    cases h with
    | nil => rfl
    | cons hb hrest =>
      have hfinal : Branch.seenElse _ = true := hhead
      rw [decides_alternative hb hrest, hfinal, Bool.not_true, Bool.and_false]
  | final hfinal =>
    cases h with
    | cons hb hrest => exact ⟨.cons hb.begin_final hrest, rfl⟩
  | notFinal hhead => exact ⟨h, rfl⟩
  | closed b rest =>
    cases h with
    | cons _ hrest => exact ⟨hrest, rfl⟩
  | notClosed =>
    cases h with
    | nil => exact ⟨.nil, rfl⟩

end Recorded

/-- **The run**: after any sequence of calls the flags say what the chains say. -/
theorem recorded_afterCalls (calls : List Call) :
    Recorded (Progress.afterCalls calls).stack.branches (Progress.afterCalls calls).chains := by
  have hrun : ∀ (calls : List Call) (p : Progress), Recorded p.stack.branches p.chains →
      Recorded (calls.foldl Progress.step p).stack.branches
        (calls.foldl Progress.step p).chains := by
    intro calls
    induction calls with
    | nil => exact fun p h => h
    | cons call rest ih => exact fun p h => ih (p.step call) (h.step call).1
  exact hrun calls {} .nil

end Conditionals

/-! ## In a pass -/

namespace BranchDirective

open Conditionals

/-- The outcome of a directive's condition, if it were consulted. -/
def outcome (d : BranchDirective) (name rest : Text) (stage : Stage) (st : State) : Option Bool :=
  match d with
  | .openBlock test | .alternative test =>
    match test.holds name rest stage st with
    | .ok holds _ => some holds
    | .error _ _ => none
  | .otherwise | .close => none

/-- The call that a directive makes. -/
def call (d : BranchDirective) (outcome : Option Bool) : Call :=
  match d with
  | .openBlock _ => .openBlock outcome
  | .alternative _ => .alternative outcome
  | .otherwise => .otherwise
  | .close => .close

section

variable (stage : Stage) (st : State)

/-- The test of a condition leaves the course and the sources as they were. -/
theorem holds_keeps (test : BranchTest) (name rest : Text) :
    (stateAfter (test.holds name rest stage) st).course = st.course ∧
      (stateAfter (test.holds name rest stage) st).store = st.store := by
  have hacts : Performs (Act stage False) stage (test.holds name rest) :=
    (test.holds_serves name rest).performs
  exact ⟨course_eq_of_acts (hacts st), store_eq_of_acts (hacts st)⟩

/-- A result of a directive in `st` is that of making `call` on the stack `s`: it succeeds if the
call does, and the stack is the one after the call.  Apart from that it leaves the course and the
sources as they were. -/
def Makes (s : Conditionals) (call : Call) (result : EStateM.Result Fault State Unit) : Prop :=
  ∃ st' : State, st'.course = st.course ∧ st'.store = st.store ∧
    if call.succeeds s then result = .ok () { st' with conditionals := call.after s }
    else ∃ fault, result = .error fault { st' with conditionals := call.after s }

variable (s : Conditionals)

/-- A change of the stack comes to what a call comes to. -/
def Matches (call : Call) : EStateM.Result Fault Conditionals Unit → Prop
  | .ok _ after => call.succeeds s = true ∧ call.after s = after
  | .error _ after => call.succeeds s = false ∧ call.after s = after

theorem makes_put {call : Call} (result : EStateM.Result Fault Conditionals Unit) {st₁ : State}
    (h : Matches s call result) (hcourse : st₁.course = st.course) (hstore : st₁.store = st.store) :
    Makes st s call (PassM.putBranches result stage st₁) := by
  refine ⟨st₁, hcourse, hstore, ?_⟩
  cases result with
  | ok u after =>
    rw [if_pos h.1, h.2]
    rfl
  | error fault after =>
    rw [if_neg (Bool.eq_false_iff.1 h.1), h.2]
    exact ⟨fault, rfl⟩

/-- The change that an outcome leads to. -/
def follow (next : Bool → Conditionals) :
    Except Fault Bool → EStateM.Result Fault Conditionals Unit
  | .ok holds => .ok () (next holds)
  | .error fault => .error fault s

/-- A stack that depends on a condition is put if the condition has an outcome. -/
theorem makes_of_holds {call : Option Bool → Call} (next : Bool → Conditionals)
    {put : Except Fault Bool → PassM Unit} (d : BranchDirective) {test : BranchTest}
    {name rest : Text}
    (houtcome : d.outcome name rest stage st = match test.holds name rest stage st with
      | .ok holds _ => some holds
      | .error _ _ => none)
    (hput : ∀ outcome, put outcome = PassM.putBranches (follow s next outcome))
    (hsome : ∀ holds, (call (some holds)).succeeds s = true ∧
      (call (some holds)).after s = next holds)
    (hnone : (call none).succeeds s = false) :
    Makes st s (call (d.outcome name rest stage st))
      ((PassM.observe (test.holds name rest) >>= put) stage st) := by
  obtain ⟨hcourse, hstore⟩ := holds_keeps stage st test name rest
  rw [houtcome]
  cases hholds : test.holds name rest stage st with
  | ok holds st' =>
    rw [stateAfter_of_ok hholds] at hcourse hstore
    rw [PassM.bind_of_ok (PassM.observe_of_ok hholds), hput]
    exact makes_put stage st s (.ok () (next holds)) (hsome holds) hcourse hstore
  | error fault st' =>
    rw [stateAfter_of_error hholds] at hcourse hstore
    rw [PassM.bind_of_ok (PassM.observe_of_error hholds), hput]
    exact makes_put stage st s (.error fault s) ⟨hnone, Call.after_of_not_succeeds hnone⟩ hcourse
      hstore

theorem makes_openBlock (test : BranchTest) (name rest : Text) :
    Makes st s (.openBlock ((openBlock test).outcome name rest stage st))
      ((s.beginBlock (PassM.observe (test.holds name rest)) >>= PassM.putBranches) stage st) := by
  rw [Conditionals.beginBlock, bind_assoc]
  cases hactive : s.active with
  | false =>
    refine makes_put stage st s (.ok () _) ?_ rfl rfl
    rw [Matches, Call.succeeds, Call.after, stateAfter, Call.run, Call.probe_openBlock, hactive]
    exact ⟨rfl, rfl⟩
  | true =>
    refine makes_of_holds stage st s (fun holds => ⟨⟨holds, holds, true, false⟩ :: s.branches⟩)
      (openBlock test) rfl (fun outcome => ?_) (fun holds => ?_) ?_
    · cases outcome <;> rfl
    · rw [Call.succeeds, Call.after, stateAfter, Call.run, Call.probe_openBlock, hactive]
      exact ⟨rfl, rfl⟩
    · rw [Call.succeeds, Call.run, Call.probe_openBlock, hactive]
      rfl

theorem makes_alternative (test : BranchTest) (name rest : Text) :
    Makes st s (.alternative ((alternative test).outcome name rest stage st))
      ((s.beginAlternative (fun cause => .directive (.conditional cause))
        (PassM.observe (test.holds name rest)) >>= PassM.putBranches) stage st) := by
  obtain ⟨branches⟩ := s
  cases branches with
  | nil => exact makes_put stage st _ (.error _ _) ⟨rfl, rfl⟩ rfl rfl
  | cons b around =>
    obtain ⟨active, taken, parentActive, seenElse⟩ := b
    cases seenElse with
    | true => exact makes_put stage st _ (.error _ _) ⟨rfl, rfl⟩ rfl rfl
    | false =>
      cases parentActive with
      | false => exact makes_put stage st _ (.ok () _) ⟨rfl, rfl⟩ rfl rfl
      | true =>
        cases taken with
        | true => exact makes_put stage st _ (.ok () _) ⟨rfl, rfl⟩ rfl rfl
        | false =>
          rw [beginAlternative]
          simp only [Bool.false_eq_true, if_false, Bool.not_true, Bool.or_self, bind_assoc]
          refine makes_of_holds stage st _ (fun holds => ⟨⟨holds, holds, true, false⟩ :: around⟩)
            (alternative test) rfl (fun outcome => ?_) (fun _ => ?_) ?_
          · cases outcome <;> rfl
          · exact ⟨rfl, rfl⟩
          · rfl

/-- **A directive around branches makes its call.** -/
theorem makes_run (d : BranchDirective) (name rest : Text) :
    Makes st st.conditionals (d.call (d.outcome name rest stage st))
      (d.run name rest stage st) := by
  have hfinal (s : Conditionals) : Matches s .otherwise
      (beginFinal (fun cause => .directive (.conditional cause)) s) := by
    obtain ⟨_ | ⟨⟨active, taken, parentActive, seenElse⟩, around⟩⟩ := s
    · exact ⟨rfl, rfl⟩
    · cases seenElse <;> exact ⟨rfl, rfl⟩
  have hclose (s : Conditionals) : Matches s .close
      (endBlock (fun cause => .directive (.conditional cause)) s) := by
    obtain ⟨_ | ⟨b, around⟩⟩ := s <;> exact ⟨rfl, rfl⟩
  cases d with
  | openBlock test => exact makes_openBlock stage st st.conditionals test name rest
  | alternative test => exact makes_alternative stage st st.conditionals test name rest
  | otherwise => exact makes_put stage st _ _ (hfinal _) rfl rfl
  | close => exact makes_put stage st _ _ (hclose _) rfl rfl

/-- A directive around branches makes its call, and apart from that it leaves the course and the
sources as they were. -/
theorem stateAfter_run (d : BranchDirective) (name rest : Text) :
    ∃ st' : State, st'.course = st.course ∧ st'.store = st.store ∧
      stateAfter (d.run name rest stage) st = { st' with
        conditionals := (d.call (d.outcome name rest stage st)).after st.conditionals } := by
  obtain ⟨st', hcourse, hstore, hrun⟩ := makes_run stage st d name rest
  refine ⟨st', hcourse, hstore, ?_⟩
  split at hrun
  · exact stateAfter_of_ok hrun
  · obtain ⟨fault, hrun⟩ := hrun
    exact stateAfter_of_error hrun

theorem succeeds_of_run_eq_ok {d : BranchDirective} {name rest : Text} {u : Unit} {st' : State}
    (h : d.run name rest stage st = .ok u st') :
    (d.call (d.outcome name rest stage st)).succeeds st.conditionals = true := by
  obtain ⟨_, _, _, hrun⟩ := makes_run stage st d name rest
  split at hrun
  · assumption
  · obtain ⟨_, hrun⟩ := hrun
    rw [h] at hrun
    cases hrun

/-- A directive around branches that fails leaves the stack as it was. -/
theorem conditionals_of_run_eq_error {d : BranchDirective} {name rest : Text} {fault : Fault}
    {st' : State} (h : d.run name rest stage st = .error fault st') :
    st'.conditionals = st.conditionals := by
  obtain ⟨_, _, _, hrun⟩ := makes_run stage st d name rest
  rw [h] at hrun
  split at hrun
  · cases hrun
  next hfails =>
    obtain ⟨_, hrun⟩ := hrun
    cases hrun
    exact Call.after_of_not_succeeds (Bool.eq_false_iff.2 hfails)

end

end BranchDirective

/-! ## The law -/

/-- **One branch of each chain.**  After any calls on the stack, with any outcomes of their
conditions, there is one chain for each open block, and for each block:

* its flag for the block around says whether that is assembled;
* its current branch is the latest of the chain, and it is assembled only if the block around is
  and if it is marked as taken;
* at most one branch of the chain is assembled, and exactly one if the block around is assembled and
  the chain has its final branch.

The next call consults its condition exactly if the block around is assembled, no earlier branch of
the chain was and the final one has not begun; and if it fails, it leaves the stack as it was, which
a directive in a pass does as well. -/
theorem Conditionals.one_branch_per_chain (calls : List Call) :
    let p := Progress.afterCalls calls
    p.stack.branches.length = p.chains.length ∧
    (∀ (i : Nat) (b : Branch) (chain : Chain),
      p.stack.branches[i]? = some b → p.chains[i]? = some chain →
        b.parentActive = active ⟨p.stack.branches.drop (i + 1)⟩ ∧
        chain.head?.map Begun.active = some b.active ∧
        (b.active = true → b.parentActive = true ∧ b.taken = true) ∧
        chain.countP Begun.active ≤ 1 ∧
        (b.parentActive = true → chain.any Begun.isFinal = true →
          chain.countP Begun.active = 1)) ∧
    (∀ call : Call, call.consults p.stack = call.decides p.chains ∧
      (call.succeeds p.stack = false → call.after p.stack = p.stack)) ∧
    ∀ (d : BranchDirective) (name rest : Text) (stage : Stage) (st st' : State) (fault : Fault),
      d.run name rest stage st = .error fault st' → st'.conditionals = st.conditionals := by
  intro p
  have hp : Recorded p.stack.branches p.chains := recorded_afterCalls calls
  refine ⟨hp.length_eq, fun i b chain hb hchain => ?_, fun call => ⟨(hp.step call).2, ?_⟩, ?_⟩
  · have hrecords := hp.records hb hchain
    exact ⟨hrecords.parentActive_eq, hrecords.active_eq, hrecords.of_active,
      hrecords.countP_le_one, hrecords.countP_eq_one⟩
  · exact Call.after_of_not_succeeds
  · intro d name rest stage st st' fault
    exact BranchDirective.conditionals_of_run_eq_error stage st

/-- A block inside of a passed branch, and a chain whose second branch is taken. -/
example : (Conditionals.Progress.afterCalls [.openBlock (some false), .openBlock (some true),
      .close, .alternative (some true), .otherwise]).chains =
    [[⟨true, false⟩, ⟨false, true⟩, ⟨false, false⟩]] := by
  decide

end MacroAssembler
