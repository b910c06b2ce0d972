import MacroAssembler.Proofs.Bypass
import MacroAssembler.Proofs.Growth

/-!
# Runs beside each other

Two runs of a pass over different sources come to the same if the sources are the same wherever the
first run looks at them.  What "the same" means depends on the sources: a `Companion` says it, and
says why it stays so, for the few parts of a pass that look at the sources at all.  Everything else
is done here once: whatever the first run does, the second one does beside it, statement by
statement, loop by loop and file by file.

The first run is one that succeeds without errors.  So a companion may use what is still ahead of a
state of the first run, all the way to its end.

Whoever follows a run has to go through all of its parts, and that is also what it takes to see that
the run advances.  So the two are said together (`TracksFrom`), and a companion that follows nothing
(`Companion.idle`) is left with the latter.
-/

namespace MacroAssembler

open Relation

/-- The position behind a statement. -/
abbrev Position.next (pos : Position) : Position :=
  ⟨pos.line, pos.statement + 1⟩

namespace SourceStore

/-- Whether a position is at the end of its line, if there is such a line. -/
def atLineEnd (store : SourceStore) (file : Nat) (pos : Position) : Option Bool :=
  (store.lengthAt file pos.line).map fun length => decide (length ≤ pos.statement)

/-- The sources with a row left with a statement. -/
def leaveRow (store : SourceStore) (file : Nat) (pos : Position) (row : FoundRow) : SourceStore :=
  store.modifyFile file fun source => source.modifyStatement pos fun s => { s with row := some row }

end SourceStore

/-- What it takes to follow a run beside it, in other surroundings. -/
structure Companion (stage : Stage) (terms : Terms) where
  /-- A state on the way to the end of the first run. -/
  Ahead : State → Prop
  /-- The surroundings of the second run beside those of the first. -/
  Beside : Surroundings → Surroundings → Prop
  /-- Up to this position, the line is the same in both runs. -/
  Common : Surroundings → Nat → Position → Prop
  strict_le : terms.strict = true → stage.strict = true
  random_eq : ∀ {st : State}, Ahead st → Event.drawn ∈ st.history → terms.random = stage.random
  ahead_of_steps : ∀ {st st' : State}, ReflTransGen (Change stage True) st st' →
    Ahead st' → Ahead st
  errorCount_eq : ∀ {st : State}, Ahead st → st.diagnostics.errorCount = 0
  common_of_steps : ∀ {st st' : State} {file : Nat} {pos : Position},
    ReflTransGen (Change stage True) st st' → Ahead st' → Common st.surroundings file pos →
      Common st'.surroundings file pos
  common_start : ∀ {v : Surroundings} {file : Nat} {pos : Position} (line : Nat),
    Common v file pos → Common v file ⟨line, 0⟩
  file_eq : ∀ {v w : Surroundings}, Beside v w → w.file = v.file
  loops_eq : ∀ {v w : Surroundings}, Beside v w → w.loops = v.loops
  common_file : ∀ {v w : Surroundings} {file : Nat}, Beside v w → v.file = some file →
    Common v file ⟨0, 0⟩
  common_loop : ∀ {v w : Surroundings} {loop : OpenLoop}, Beside v w → loop ∈ v.loops →
    Common v loop.file loop.resume
  /-- What is done without the sources is done beside it. -/
  carry : ∀ {st st' : State} {w : Surroundings} (new : List Event),
    ReflTransGen (Change stage True) st st' → Ahead st' → Beside st.surroundings w →
    st'.store = st.store → st'.asWritten = st.asWritten → st'.history = new ++ st.history →
    (∀ file, st'.file = some file → Common st'.surroundings file ⟨0, 0⟩) →
    (∀ loop ∈ st'.loops, Common st'.surroundings loop.file loop.resume) →
      Beside st'.surroundings
        { w with file := st'.file, loops := st'.loops, history := new ++ w.history }
  path_eq : ∀ {st : State} {w : Surroundings} {file : Nat}, Ahead st → Beside st.surroundings w →
    Common st.surroundings file ⟨0, 0⟩ → (w.store.file file).path = (st.store.file file).path
  resolve_eq : ∀ {st : State} {w : Surroundings}, Ahead st → Beside st.surroundings w →
    ∀ name, w.store.resolve name w.file = st.store.resolve name st.file
  load : ∀ {st : State} {w : Surroundings} {path : Text} {file : Nat} {store : SourceStore},
    SourceStore.load path st.store = .ok file store → Ahead { st with store := store } →
    Beside st.surroundings w → ∃ store', SourceStore.load path w.store = .ok file store' ∧
      Beside { st.surroundings with store := store } { w with store := store' } ∧
      Common { st.surroundings with store := store } file ⟨0, 0⟩
  binary : ∀ {st : State} {w : Surroundings} {path : Text} {bytes : List UInt8}
    {store : SourceStore}, SourceStore.binary path st.store = .ok bytes store →
    Ahead { st with store := store } → Beside st.surroundings w →
      ∃ store', SourceStore.binary path w.store = .ok bytes store' ∧
        Beside { st.surroundings with store := store } { w with store := store' }
  atLineEnd_eq : ∀ {st : State} {w : Surroundings} {file : Nat} {pos : Position}, Ahead st →
    Beside st.surroundings w → Common st.surroundings file pos →
      w.store.atLineEnd file pos = st.store.atLineEnd file pos
  /-- A statement is reached that comes to the same. -/
  reach :
    ∀ {st st' : State} {w : Surroundings} {file : Nat} {pos : Position} {s : Option Statement},
    PassM.reach file pos stage st = .ok s st' → Ahead st' → Beside st.surroundings w →
    Common st.surroundings file pos → ∃ s' w',
      PassM.reach file pos (stage.under terms) (st.within w) = .ok s' (st'.within w') ∧
      Option.Rel (PassM.SameIn st') s s' ∧ Beside st'.surroundings w' ∧
      Common st'.surroundings file pos.next
  statement_eq : ∀ {st : State} {w : Surroundings} {file : Nat} {pos : Position} {s : Statement},
    Ahead st → Beside st.surroundings w → Common st.surroundings file pos.next →
    st.store.statementAt file pos = some s → s.expanded = true →
      w.store.statementAt file pos = some s
  leaveRow : ∀ {st st' : State} {w : Surroundings} {file : Nat} {pos : Position} {s : Statement}
    {row : FoundRow} (new : List Event), ReflTransGen (Change stage True) st st' → Ahead st' →
    Beside st.surroundings w → Common st.surroundings file pos.next →
    st.store.statementAt file pos = some s → s.expanded = true →
    st'.surroundings = { st.surroundings with
      store := st.store.leaveRow file pos row, history := new ++ st.history } →
      Beside st'.surroundings
        { w with store := w.store.leaveRow file pos row, history := new ++ w.history }

namespace Companion

variable {stage : Stage} {terms : Terms} (c : Companion stage terms) {α β : Type}
  {pre : Prop} {st : State} {Q : α → State → Prop} {P : β → State → Prop}

/-- A companion that follows no run. -/
def idle (stage : Stage) : Companion stage stage.terms where
  Ahead _ := False
  Beside _ _ := False
  Common _ _ _ := True
  strict_le := id
  random_eq h := h.elim
  ahead_of_steps _ h := h
  errorCount_eq h := h.elim
  common_of_steps _ h := h.elim
  common_start _ _ := trivial
  file_eq h := h.elim
  loops_eq h := h.elim
  common_file h := h.elim
  common_loop h := h.elim
  carry _ _ h := h.elim
  path_eq h := h.elim
  resolve_eq h := h.elim
  load _ h := h.elim
  binary _ h := h.elim
  atLineEnd_eq h := h.elim
  reach _ h := h.elim
  statement_eq h := h.elim
  leaveRow _ _ h := h.elim

/-- From a state, a part of the pass advances.  If `pre` holds there, it is done by the second run
beside the first, and then its result and the state satisfy `Q`. -/
structure TracksFrom (pre : Prop) (st : State) (Q : α → State → Prop) (m : PassM α) : Prop where
  advances : AdvancesFrom stage st m
  beside : ∀ {a st'}, m stage st = .ok a st' → pre → c.Ahead st' →
    ∀ {w}, c.Beside st.surroundings w →
      ∃ w', m (stage.under terms) (st.within w) = .ok a (st'.within w') ∧
        c.Beside st'.surroundings w' ∧ Q a st'

/-- What lasts until the end of the first run once it holds. -/
def Lasts (S : State → Prop) : Prop :=
  ∀ st st', ReflTransGen (Change stage True) st st' → c.Ahead st' → S st → S st'

variable {c}

theorem lasts_true : c.Lasts fun _ => True :=
  fun _ _ _ _ _ => trivial

theorem lasts_common (file : Nat) (pos : Position) :
    c.Lasts fun st => c.Common st.surroundings file pos :=
  fun _ _ hsteps hahead h => c.common_of_steps hsteps hahead h

namespace TracksFrom

variable {m : PassM α} {S : State → Prop}

theorem pure {a : α} (ha : pre → Q a st) : c.TracksFrom pre st Q (Pure.pure a) := by
  refine ⟨ReflTransGen.refl, ?_⟩
  rintro _ _ ⟨⟩ hpre _ w hw
  exact ⟨w, rfl, hw, ha hpre⟩

theorem throw (fault : Fault) : c.TracksFrom pre st Q (throw fault) := by
  refine ⟨ReflTransGen.refl, ?_⟩
  rintro _ _ ⟨⟩

theorem misuse (cause : DirectiveError) : c.TracksFrom pre st Q (PassM.misuse cause) :=
  throw _

theorem bind {m : PassM β} {f : β → PassM α} (hm : c.TracksFrom pre st P m)
    (hf : ∀ b st₁, m stage st = .ok b st₁ → c.TracksFrom (P b st₁) st₁ Q (f b)) :
    c.TracksFrom pre st Q (m >>= f) where
  advances := hm.advances.bind fun b st₁ hrun => (hf b st₁ hrun).advances
  beside hrun hpre hahead w hw := by
    obtain ⟨b, st₁, hfirst, hrest⟩ := bind_eq_ok hrun
    have hnext := hf b st₁ hfirst
    obtain ⟨w₁, hfirst', hw₁, hb⟩ :=
      hm.beside hfirst hpre (c.ahead_of_steps (hnext.advances.steps hrest) hahead) hw
    obtain ⟨w', hrest', hw', ha⟩ := hnext.beside hrest hb hahead hw₁
    exact ⟨w', (PassM.bind_of_ok hfirst').trans hrest', hw', ha⟩

theorem mono {pre' : Prop} {Q' : α → State → Prop} (h : c.TracksFrom pre st Q m) (hpre : pre' → pre)
    (hQ : ∀ a st', m stage st = .ok a st' → Q a st' → Q' a st') :
    c.TracksFrom pre' st Q' m where
  advances := h.advances
  beside hrun hpre' hahead w hw := by
    obtain ⟨w', hrun', hw', ha⟩ := h.beside hrun (hpre hpre') hahead hw
    exact ⟨w', hrun', hw', hQ _ _ hrun ha⟩

/-- **A part that carries over is done beside the first run**, and what lasts still holds. -/
theorem ofCarries (hS : c.Lasts S) (hm : Carries stage m) (hsteps : AdvancesFrom stage st m) :
    c.TracksFrom (S st) st (fun _ => S) m where
  advances := hsteps
  beside {a st'} hrun hst hahead w hw := by
    have hlead := hsteps.steps hrun
    obtain ⟨hstore, hfile, hloops, htaken⟩ := hm.unchanged hrun trivial
    obtain ⟨new, hnew, hrun'⟩ := hm terms c.strict_le st w a st' hrun trivial
    have hw' := c.carry new hlead hahead hw hstore htaken hnew (fun file h => ?_) fun loop h => ?_
    · refine ⟨_, ?_, hw', hS st st' hlead hahead hst⟩
      have hdraw : Event.drawn ∈ new → terms.random = stage.random := fun h =>
        c.random_eq hahead (hnew ▸ List.mem_append_left _ h)
      rw [hrun' hdraw, hfile, hloops, ← show w.file = st.file from c.file_eq hw,
        ← show w.loops = st.loops from c.loops_eq hw]
      rfl
    · exact c.common_of_steps hlead hahead (c.common_file hw (hfile.symm.trans h))
    · rw [hloops] at h
      exact c.common_of_steps hlead hahead (c.common_loop hw h)

/-- Acts that carry over, and what comes after them on the same course. -/
theorem act_bind (hS : c.Lasts S) {m : PassM β} {f : β → PassM α}
    (hm : Serves (Act stage False) stage m)
    (hf : ∀ b st₁, st₁.course = st.course → c.TracksFrom (S st₁) st₁ Q (f b)) :
    c.TracksFrom (S st) st Q (m >>= f) :=
  bind (ofCarries hS hm.carries (hm.change.performs.advances st)) fun b st₁ hrun =>
    hf b st₁ (hm.performs.course_eq hrun)

/-- What a part comes to in the surroundings of a state may be said in another way. -/
theorem congr {n : PassM α} (hfirst : m stage st = n stage st)
    (h : ∀ w, pre → c.Ahead st → c.Beside st.surroundings w →
      m (stage.under terms) (st.within w) = n (stage.under terms) (st.within w))
    (hn : c.TracksFrom pre st Q n) : c.TracksFrom pre st Q m where
  advances := by
    rw [AdvancesFrom, hfirst]
    exact hn.advances
  beside hrun hpre hahead w hw := by
    rw [hfirst] at hrun
    rw [h w hpre (c.ahead_of_steps (hn.advances.steps hrun) hahead) hw]
    exact hn.beside hrun hpre hahead hw

theorem ofEq {n : PassM α} (h : ∀ stage w, m stage (st.within w) = n stage (st.within w))
    (hn : c.TracksFrom pre st Q n) : c.TracksFrom pre st Q m :=
  congr (h stage st.surroundings) (fun w _ _ _ => h _ w) hn

/-- A part may look at the state, if it does the same beside it. -/
theorem get_bind {f : State → PassM α} (h : c.TracksFrom pre st Q (f st))
    (heq : ∀ w, pre → c.Ahead st → c.Beside st.surroundings w → f (st.within w) = f st) :
    c.TracksFrom pre st Q (get >>= f) :=
  congr (n := f st) rfl
    (fun w hpre hahead hw => by rw [PassM.get_bind_apply, heq w hpre hahead hw]) h

/-- A part may look at what is fixed in the pass, if it does the same on other terms. -/
theorem read_bind {f : Stage → PassM α} (h : c.TracksFrom pre st Q (f stage))
    (heq : ∀ terms, f (stage.under terms) = f stage) :
    c.TracksFrom pre st Q (read >>= f) :=
  congr (n := f stage) rfl (fun _ _ _ _ => by rw [PassM.read_bind_apply, heq]) h

/-- Loops are opened, moved on or left. -/
theorem ofLoops (a : α) (loops : List OpenLoop) (new : List Event)
    (hm : ∀ (stage : Stage) (s : State), s.loops = st.loops →
      m stage s = .ok a { s with loops := loops, history := new ++ s.history }) 
    (hstep : Change stage False st { st with loops := loops, history := new ++ st.history })
    (hloops : pre → (∀ loop ∈ st.loops, c.Common st.surroundings loop.file loop.resume) →
      ∀ loop ∈ loops, c.Common st.surroundings loop.file loop.resume)
    (hQ : pre → (∀ loop ∈ st.loops, c.Common st.surroundings loop.file loop.resume) →
      c.Ahead { st with loops := loops, history := new ++ st.history } →
        Q a { st with loops := loops, history := new ++ st.history }) :
    c.TracksFrom pre st Q m := by
  have hrun := hm stage st rfl
  have hadvances : AdvancesFrom stage st m := by
    rw [AdvancesFrom, hrun]
    exact ReflTransGen.single (.change hstep)
  have hlead := hadvances.steps hrun
  refine ⟨hadvances, fun {b st'} hrun' hpre hahead w hw => ?_⟩
  rw [hrun] at hrun'
  cases hrun'
  have hopen : ∀ loop ∈ st.loops, c.Common st.surroundings loop.file loop.resume :=
    fun loop h => c.common_loop hw h
  have hfile : w.file = st.file := c.file_eq hw
  refine ⟨_, ?_, c.carry new hlead hahead hw rfl rfl rfl (fun file h => ?_) fun loop h => ?_,
    hQ hpre hopen hahead⟩
  · rw [hm _ _ (c.loops_eq hw), ← hfile]
    rfl
  · exact c.common_of_steps hlead hahead (c.common_file hw h)
  · exact c.common_of_steps hlead hahead (hloops hpre hopen loop h)

/-- The sources are used. -/
theorem ofStore (hS : c.Lasts S) {use : StoreM α}
    (hsteps : Performs (Change stage False) stage (PassM.onStore use))
    (huse : ∀ a store w, use st.store = .ok a store → c.Ahead { st with store := store } →
      c.Beside st.surroundings w → ∃ store', use w.store = .ok a store' ∧
        c.Beside { st.surroundings with store := store } { w with store := store' } ∧
        Q a { st with store := store }) :
    c.TracksFrom (S st) st (fun a st' => S st' ∧ Q a st') (PassM.onStore use) := by
  refine ⟨hsteps.advances st, fun {a st'} hrun hst hahead w hw => ?_⟩
  have hlead := (hsteps.advances st).steps hrun
  rw [PassM.onStore_apply] at hrun
  cases hstore : use st.store with
  | error e store =>
    rw [hstore] at hrun
    cases hrun
  | ok b store =>
    rw [hstore] at hrun
    cases hrun
    obtain ⟨store', huse', hw', hQ⟩ := huse a store w hstore hahead hw
    refine ⟨{ w with store := store' }, ?_, hw', hS _ _ hlead hahead hst, hQ⟩
    have hstore' : use (st.within w).store = .ok a store' := huse'
    rw [PassM.onStore_apply, hstore']
    rfl

end TracksFrom

/-- From every state, a part of the pass is done by the second run beside the first. -/
def Tracks (c : Companion stage terms) (m : PassM α) : Prop :=
  ∀ st, c.TracksFrom True st (fun _ _ => True) m

namespace Tracks

theorem bind {m : PassM β} {f : β → PassM α} (hm : c.Tracks m) (hf : ∀ b, c.Tracks (f b)) :
    c.Tracks (m >>= f) :=
  fun st => (hm st).bind fun b st₁ _ => hf b st₁

theorem ofServes {m : PassM α} (hm : Serves (Change stage False) stage m) : c.Tracks m :=
  fun st => .ofCarries lasts_true hm.carries (hm.performs.advances st)

theorem closed : Closed PassM c.Tracks :=
  ⟨fun _ _ => .pure fun _ => trivial, fun fault _ => .throw fault, bind⟩

end Tracks

/-! ## Files -/

theorem resolvePath_tracks (arg : Text) : c.Tracks (PassM.resolvePath arg) := by
  intro st
  have happly : ∀ (stage : Stage) (st : State), PassM.resolvePath arg stage st =
      PassM.ofExcept Fault.file (st.store.resolve (Text.unquoted arg) st.file) stage st :=
    fun _ _ => rfl
  refine (Tracks.ofServes (.ofExcept _ _) st).congr (happly stage st) fun w _ hahead hw => ?_
  have hsame : (st.within w).store.resolve (Text.unquoted arg) (st.within w).file =
      st.store.resolve (Text.unquoted arg) st.file := c.resolve_eq hahead hw _
  rw [happly, hsame]

theorem readBinary_tracks (path : Text) : c.Tracks (PassM.readBinary path) := by
  intro st
  refine .mono (TracksFrom.ofStore (Q := fun _ _ => True) lasts_true
    (PassM.readBinary_performs path).ofQuiet fun bytes store w hrun hahead hw => ?_)
    id fun _ _ _ _ => trivial
  obtain ⟨store', hrun', hw'⟩ := c.binary hrun hahead hw
  exact ⟨store', hrun', hw', trivial⟩

end Companion

namespace BinaryDirective

variable {stage : Stage} {terms : Terms} {c : Companion stage terms}

theorem run_tracks (d : BinaryDirective) (name rest : Text) : c.Tracks (d.run name rest) :=
  run_has Companion.Tracks.closed
    (fun h => .ofServes h.change)
    Companion.readBinary_tracks Companion.resolvePath_tracks d name rest

end BinaryDirective

/-! ## Loops -/

variable {stage : Stage} {terms : Terms} {c : Companion stage terms} {st : State}

/-- A jump goes to a position up to which the line is the same in both runs. -/
def Companion.Lands (c : Companion stage terms) (file : Nat) (flow : Flow) (st : State) : Prop :=
  ∀ target, flow = .jump target → c.Common st.surroundings file target

theorem Companion.lands_next (file : Nat) (st : State) : c.Lands file .next st := by
  rintro _ ⟨⟩

namespace FlowDirective

open Companion

theorem skipBody_tracksFrom {pre : Prop} (hskipped : st.skippedLoops = 0) (file : Nat) :
    c.TracksFrom pre st (c.Lands file) skipBody := by
  have hsteps : AdvancesFrom stage st skipBody := ReflTransGen.single (.change (.skipped hskipped))
  have hcarries : Carries stage skipBody :=
    Carries.bind (Carries.modify [] (fun _ => rfl) fun _ _ => rfl) fun _ =>
      Carries.bind (Carries.record _) fun _ => Carries.pure _
  refine (TracksFrom.ofCarries lasts_true hcarries hsteps).mono (fun _ => trivial) ?_
  rintro flow st' ⟨⟩ -
  exact lands_next file _

theorem openLoop_tracksFrom (hskipped : st.skippedLoops = 0) (loop : OpenLoop) (file : Nat) :
    c.TracksFrom (c.Common st.surroundings loop.file loop.resume) st (c.Lands file)
      (openLoop loop) := by
  refine .ofLoops .next (loop :: st.loops) [.entered] ?_
    (.entered hskipped loop) ?_ fun _ _ _ => lands_next file _
  · intro stage s hs
    rw [← hs]
    rfl
  · intro hcommon hopen other hother
    rcases List.mem_cons.1 hother with rfl | hother
    · exact hcommon
    · exact hopen other hother

theorem beginCount_tracksFrom (file : Nat) (resume : Position) (counter startArg limitArg : Text)
    (stepArg : Option Text) (hskipped : st.course.skippedLoops = 0) :
    c.TracksFrom (c.Common st.surroundings file resume) st (c.Lands file)
      (beginCount file resume counter startArg limitArg stepArg) := by
  have hlasts := lasts_common (c := c) file resume
  have hrest : ∀ (start limit step : Float) (st : State), st.course.skippedLoops = 0 →
      c.TracksFrom (c.Common st.surroundings file resume) st (c.Lands file)
        (if step == 0 then PassM.misuse .zeroStep
        else do
          setCounter counter start
          if startsBeyond start limit step then skipBody
          else openLoop ⟨file, resume, .counting counter start limit step, 0⟩) := by
    intro start limit step st hskipped
    refine iteInduction (fun _ => .misuse _) fun _ => ?_
    refine .act_bind hlasts (setCounter_serves counter start) fun _ st' hcourse => ?_
    rw [← hcourse] at hskipped
    refine iteInduction (fun _ => ?_) fun _ => ?_
    · exact skipBody_tracksFrom hskipped file
    · exact openLoop_tracksFrom hskipped ⟨file, resume, _, 0⟩ file
  refine .act_bind hlasts (.ofExcept _ _) fun _ st₁ h₁ => ?_
  refine .act_bind hlasts (PassM.eval_serves startArg).act fun start st₂ h₂ => ?_
  refine .act_bind hlasts (PassM.eval_serves limitArg).act fun limit st₃ h₃ => ?_
  rw [← h₁, ← h₂, ← h₃] at hskipped
  cases stepArg with
  | some arg =>
    refine .act_bind hlasts (PassM.eval_serves arg).act fun step st₄ h₄ => ?_
    rw [← h₄] at hskipped
    exact hrest start limit step st₄ hskipped
  | none => exact hrest start limit _ st₃ hskipped

theorem beginRepeat_tracksFrom (file : Nat) (resume : Position) (countArg : Text)
    (hskipped : st.course.skippedLoops = 0) :
    c.TracksFrom (c.Common st.surroundings file resume) st (c.Lands file)
      (beginRepeat file resume countArg) := by
  refine .act_bind (lasts_common file resume) (PassM.evalInt_serves countArg).act
    fun count st' hcourse => ?_
  rw [← hcourse] at hskipped
  refine iteInduction (fun _ => ?_) fun _ => ?_
  · exact skipBody_tracksFrom hskipped file
  · exact openLoop_tracksFrom hskipped ⟨file, resume, _, 0⟩ file

/-- The end of a body jumps back behind the head of its loop, up to where the line is the same. -/
theorem endBody_tracksFrom {pre : Prop} (file : Nat) (hskipped : st.course.skippedLoops = 0) :
    c.TracksFrom pre st (c.Lands file) (endBody file) := by
  refine .get_bind ?_ fun w _ _ hw => ?_
  · cases hloops : st.loops with
    | nil => exact .misuse _
    | cons inner outer =>
      have hinner : inner ∈ st.loops := hloops ▸ List.mem_cons_self
      have hgiveUp : ∀ cause, c.TracksFrom pre st (c.Lands file) (do
          modify fun st => { st with loops := outer }
          PassM.misuse cause : PassM Flow) := by
        refine fun cause => ⟨ReflTransGen.single (.abandoned outer (.inl trivial)), ?_⟩
        rintro _ _ ⟨⟩
      have hleave : c.TracksFrom pre st (c.Lands file) (do
          modify fun st => { st with loops := outer }
          PassM.record .left
          return Flow.next) := by
        refine .ofLoops .next outer [.left]
          (fun _ _ _ => rfl) (.left hskipped hloops) ?_ fun _ _ _ => lands_next file _
        intro _ hopen loop hloop
        exact hopen loop (hloops ▸ List.mem_cons_of_mem _ hloop)
      -- the next round of the innermost loop resumes where the last one did
      have hgoOn : ∀ kind : LoopKind, c.TracksFrom pre st
          (fun _ st' => c.Common st'.surroundings inner.file inner.resume)
          (modify fun st => { st with
            loops := { inner with kind := kind, iterations := inner.iterations + 1 } :: outer } :
            PassM PUnit) := by
        intro kind
        refine .ofLoops ⟨⟩ _ [] (fun _ _ _ => rfl)
          (.nextRound hloops kind _) ?_ fun _ hopen hahead => ?_
        · intro _ hopen loop hloop
          rcases List.mem_cons.1 hloop with rfl | hloop
          · exact hopen inner hinner
          · exact hopen loop (hloops ▸ List.mem_cons_of_mem _ hloop)
        · exact c.common_of_steps (.single (.nextRound hloops kind _)) hahead (hopen inner hinner)
      dsimp only
      refine iteInduction (fun _ => hgiveUp _) fun hfile => ?_
      refine iteInduction (fun _ => hgiveUp _) fun _ => ?_
      have hjump : ∀ st', c.Common st'.surroundings inner.file inner.resume →
          c.Lands file (.jump inner.resume) st' := by
        rintro st' h _ ⟨⟩
        rwa [Decidable.of_not_not hfile] at h
      split
      · refine iteInduction (fun _ => ?_) fun _ => hleave
        exact (hgoOn _).bind fun _ st' _ => .pure fun h => hjump st' h
      · refine iteInduction (fun _ => ?_) fun _ => hleave
        refine (hgoOn _).bind fun _ st' _ => ?_
        exact .act_bind (lasts_common inner.file inner.resume) (setCounter_serves _ _)
          fun _ st'' _ => .pure fun h => hjump st'' h
  · have hsame : (st.within w).loops = st.loops := c.loops_eq hw
    rw [hsame]

theorem run_tracksFrom (d : FlowDirective) (file : Nat) (resume : Position) (name rest : Text)
    (hskipped : st.course.skippedLoops = 0) :
    c.TracksFrom (c.Common st.surroundings file resume) st (c.Lands file)
      (d.run file resume name rest) := by
  unfold run
  dsimp only
  split
  · exact beginCount_tracksFrom _ _ _ _ _ _ hskipped
  · exact beginCount_tracksFrom _ _ _ _ _ _ hskipped
  · exact .misuse _
  · exact beginRepeat_tracksFrom _ _ _ hskipped
  · exact .misuse _
  · exact endBody_tracksFrom file hskipped
  · refine .pure fun _ => ?_
    rintro _ ⟨⟩

end FlowDirective

/-! ## Instructions -/

namespace PassM

open Companion

section Instructions

variable {file : Nat} {pos : Position} {s : Statement} {mnemonic operands : Text}

theorem findInstruction_tracksFrom (hs : st.store.statementAt file pos = some s)
    (hexpanded : s.expanded = true)
    (hins : instructionOf s.text s.column0 = some (mnemonic, operands)) :
    c.TracksFrom (c.Common st.surroundings file pos.next) st (fun _ _ => True)
      (findInstruction file pos mnemonic operands) := by
  have hadvances : AdvancesFrom stage st _ :=
    (findInstruction_performsFrom hs hexpanded hins).ofQuiet.advances
  refine ⟨hadvances, fun {_ _} hrun hcommon hahead w hw => ?_⟩
  have hlead := hadvances.steps hrun
  have htable : (stage.under terms).table = stage.table := rfl
  rw [findInstruction, PassM.read_bind_apply] at hrun ⊢
  rw [htable]
  cases hfind : stage.table.find mnemonic operands with
  | none =>
    rw [hfind] at hrun
    cases hrun
  | some found =>
    rw [hfind] at hrun
    cases hrun
    exact ⟨_, rfl, c.leaveRow [.matched file pos] hlead hahead hw hcommon hs hexpanded rfl, trivial⟩

theorem emitInstruction_tracksFrom (hs : st.store.statementAt file pos = some s)
    (hexpanded : s.expanded = true)
    (hins : instructionOf s.text s.column0 = some (mnemonic, operands)) :
    c.TracksFrom (c.Common st.surroundings file pos.next) st (fun _ _ => True)
      (emitInstruction file pos mnemonic operands) := by
  have hfile : (st.store.file file).statement? pos = some s := hs
  refine .get_bind ?_ fun w hcommon hahead hw => ?_
  · rw [hfile]
    dsimp only [Option.bind_some]
    refine .bind (TracksFrom.ofCarries (lasts_common file pos.next) (Carries.record _)
      (ReflTransGen.single (.change (.encoded hs hins)))) fun _ st₁ _ => ?_
    cases settledRow s.row mnemonic operands with
    | error detail => exact .throw _
    | ok found =>
      refine .read_bind ?_ fun _ => rfl
      cases stage.table.row? found.index with
      | none => exact .throw _
      | some ins =>
        exact (Tracks.ofServes (encodeOrSkip_serves ins found.args).change st₁).mono
          (fun _ => trivial) fun _ _ _ _ => trivial
  · have hbeside : ((st.within w).store.file file).statement? pos = some s :=
      c.statement_eq hahead hw hcommon hs hexpanded
    rw [hbeside, hfile]
    rfl

theorem instruction_tracksFrom (hs : st.store.statementAt file pos = some s)
    (hexpanded : s.expanded = true)
    (hins : instructionOf s.text s.column0 = some (mnemonic, operands)) :
    c.TracksFrom (c.Common st.surroundings file pos.next) st (fun _ _ => True)
      (instruction file pos mnemonic operands) := by
  refine .read_bind (iteInduction (fun _ => ?_) fun _ => ?_) fun _ => rfl
  · exact findInstruction_tracksFrom hs hexpanded hins
  · exact emitInstruction_tracksFrom hs hexpanded hins

end Instructions

/-! ## Statements -/

variable {runFile : Option (Nat → PassM Bool)}

/-- The files that are included are executed beside the first run. -/
def TracksFiles (c : Companion stage terms) (runFile : Option (Nat → PassM Bool)) : Prop :=
  ∀ run ∈ runFile, ∀ file st,
    c.TracksFrom (c.Common st.surroundings file ⟨0, 0⟩) st (fun _ _ => True) (run file)

theorem includeFile_tracksFrom (hfiles : TracksFiles c runFile) {pre : Prop} (name rest : Text)
    (file : Nat) : c.TracksFrom pre st (c.Lands file) (includeFile runFile name rest) := by
  unfold includeFile
  split
  · split
    · exact .misuse _
    · refine .bind ((resolvePath_tracks _ st).mono (fun _ => trivial) fun _ _ _ h => h)
        fun path st₁ _ => ?_
      have hload : c.TracksFrom True st₁
          (fun file st' => True ∧ c.Common st'.surroundings file ⟨0, 0⟩)
          (onStore (SourceStore.load path)) :=
        TracksFrom.ofStore lasts_true
          (onStore_performs (SourceStore.load_follows path) fun _ _ => .files)
          fun _ _ _ hrun hahead hw => c.load hrun hahead hw
      refine .bind hload fun included st₂ _ => ?_
      refine .bind ((hfiles _ rfl included st₂).mono And.right fun _ _ _ h => h) ?_
      intro stopped st₃ _
      refine .pure fun _ => ?_
      cases stopped with
      | true => rintro _ ⟨⟩
      | false => rintro _ ⟨⟩
  · exact .misuse _

/-- A part after which the run goes on at the next statement. -/
theorem next_tracksFrom {pre : Prop} {m : PassM Unit}
    (hm : c.TracksFrom True st (fun _ _ => True) m) (file : Nat) :
    c.TracksFrom pre st (c.Lands file) (do m; return Flow.next) := by
  refine .bind (hm.mono (fun _ => trivial) fun _ _ _ h => h) fun _ st' _ => ?_
  exact .pure fun _ => lands_next file st'

theorem directive_tracksFrom (hfiles : TracksFiles c runFile) (file : Nat) (pos : Position)
    (d : Directive) (name rest : Text) (hskipped : st.course.skippedLoops = 0) :
    c.TracksFrom (c.Common st.surroundings file pos.next) st (c.Lands file)
      (directive runFile file pos d name rest) := by
  have hnext : ∀ {m : PassM Unit}, c.Tracks m →
      c.TracksFrom (c.Common st.surroundings file pos.next) st (c.Lands file)
        (do m; return Flow.next) :=
    fun hm => next_tracksFrom (hm st) file
  cases d with
  | branch d => exact hnext (.ofServes (d.run_serves name rest))
  | scope d => exact hnext (.ofServes (d.run_serves name rest).change)
  | data d => exact hnext (.ofServes (d.run_serves name rest).change)
  | series d => exact hnext (.ofServes (d.run_serves name rest).change)
  | charMap => exact hnext (.ofServes (runCharMap_serves name rest).change)
  | macroText d => exact hnext (.ofServes (d.run_serves .macros name rest))
  | storage d =>
    have hacts : Acts stage (d.run name rest) := d.run_acts name rest
    exact next_tracksFrom (.ofCarries lasts_true (d.run_carries name rest) (hacts.advances st)) file
  | flow d => exact d.run_tracksFrom file pos.next name rest hskipped
  | includeFile => exact includeFile_tracksFrom hfiles name rest file
  | binary d => exact hnext (d.run_tracks name rest)
  | placement d => exact hnext (.ofServes (d.run_serves name rest).change)
  | notice d => exact hnext (.ofServes (d.run_serves rest).change)
  | equate => exact .misuse _

/-- A text is executed at a statement whose macros have been expanded and that holds the same
instruction as the text, if it holds one. -/
theorem command_tracksFrom (hfiles : TracksFiles c runFile) {file : Nat} {pos : Position}
    {s : Statement} (hexpanded : s.expanded = true) (text : Text) (column0 : Bool) (st : State)
    (hs : st.store.statementAt file pos = some s)
    (hins : instructionOf text column0 = instructionOf s.text s.column0)
    (hskipped : st.course.skippedLoops = 0) :
    c.TracksFrom (c.Common st.surroundings file pos.next) st (c.Lands file)
      (command runFile file pos text column0) := by
  have hlasts := lasts_common (c := c) file pos.next
  rw [command]
  split
  next => exact .pure fun _ => lands_next file st
  next name rest h =>
    split
    · exact directive_tracksFrom hfiles file pos _ name rest hskipped
    · exact .misuse _
  next name value h =>
    exact .act_bind hlasts (assign_serves name value) fun _ st' _ =>
      .pure fun _ => lands_next file st'
  next name rest h =>
    have hlabel : ActsFrom stage st (defineAddressLabel name) :=
      defineAddressLabel_actsFrom name st
    have hshorter : rest.length < text.length := Command.length_lt_of_ofText h
    -- defining the label leaves the statement in its place
    refine .bind (.ofCarries hlasts (defineAddressLabel_carries name) hlabel.advances)
      fun _ st' hrun => ?_
    refine command_tracksFrom hfiles hexpanded rest false st' ?_ ?_ ?_
    · rw [hlabel.store_eq hrun]
      exact hs
    · rw [← instructionOf_of_label h]
      exact hins
    · rw [hlabel.course_eq hrun]
      exact hskipped
  next mnemonic operands h =>
    refine .read_bind (iteInduction (fun _ => ?_) fun _ => .throw _) fun _ => rfl
    rw [instructionOf_of_instruct h] at hins
    refine .bind (instruction_tracksFrom hs hexpanded hins.symm) fun _ st' _ => ?_
    exact .pure fun _ => lands_next file st'
termination_by text.length

theorem collect_within (st : State) (w : Surroundings) (text : Text) :
    (st.within w).collect text = (st.collect text).within w := by
  have hlong : (st.within w).longMacro = st.longMacro := rfl
  unfold State.collect
  rw [hlong]
  split
  · rfl
  · split
    · rfl
    · rfl

theorem collect_carries (text : Text) :
    Carries stage (modify fun st => st.collect text : PassM PUnit) := by
  refine .modify [] (fun st => ?_) fun st w => collect_within st w text
  unfold State.collect
  split
  · rfl
  · split
    · rfl
    · rfl

theorem skip_carries (text : Text) :
    Carries stage (modify fun st => st.skip text : PassM PUnit) := by
  unfold State.skip
  split
  · exact .modify [.passedHead] (fun _ => rfl) fun _ _ => rfl
  · exact .modify [.passedHead] (fun _ => rfl) fun _ _ => rfl
  · exact .modify [.passedEnd] (fun _ => rfl) fun _ _ => rfl
  · exact .modify [] (fun _ => rfl) fun _ _ => rfl

theorem execute_tracksFrom (hfiles : TracksFiles c runFile) {file : Nat} {pos : Position}
    {s : Statement} (hs : st.store.statementAt file pos = some s) (hready : Ready st s) :
    c.TracksFrom (c.Common st.surroundings file pos.next) st (c.Lands file)
      (execute runFile file pos s.text s.column0) := by
  have hset : ∀ {f : State → State} (_ : Carries stage (modify f : PassM PUnit)),
      ReflTransGen (Change stage False) st (f st) →
      c.TracksFrom (c.Common st.surroundings file pos.next) st (c.Lands file)
        (do modify f; return Flow.next) :=
    fun hcarries hsteps => next_tracksFrom (.ofCarries lasts_true hcarries
      (PerformsFrom.modify hsteps).advances) file
  by_cases hempty : (Text.trim s.text).isEmpty = true
  · refine .ofEq (n := pure .next) (fun stage w => ?_) (.pure fun _ => lands_next file st)
    rw [execute, PassM.get_bind_apply]
    dsimp only
    rw [if_pos hempty]
  by_cases hlong : st.longMacro.isSome = true
  · refine .ofEq (fun stage w => ?_)
      (hset (collect_carries (Text.trim s.text)) (collect_steps st _))
    have hlong' : (st.within w).longMacro.isSome = true := hlong
    rw [execute_of_collecting hlong', if_neg hempty]
    rfl
  by_cases hloops : 0 < st.skippedLoops
  · refine .ofEq (fun stage w => ?_)
      (hset (skip_carries (Text.trim s.text)) (skip_steps hloops _))
    have hloops' : 0 < (st.within w).skippedLoops := hloops
    have hlong' : ¬(st.within w).longMacro.isSome = true := hlong
    rw [execute_of_skipping hlong' hloops']
    rfl
  refine .get_bind ?_ fun w _ _ _ => ?_
  · dsimp only
    rw [if_neg hempty, if_neg hlong, if_neg hloops]
    split
    next d hd =>
      exact next_tracksFrom (Tracks.ofServes (d.run_serves _ _) st) file
    next =>
      split
      next hactive =>
        have hexpanded : s.expanded = true := by
          rcases hready with h | h | h | h
          · exact absurd h hlong
          · exact absurd h hloops
          · rw [h] at hactive
            cases hactive
          · exact h
        have hskipped : st.course.skippedLoops = 0 := Nat.eq_zero_of_not_pos hloops
        exact command_tracksFrom hfiles hexpanded s.text s.column0 st hs rfl hskipped
      next => exact .pure fun _ => lands_next file st
  · have hlong' : ¬(st.within w).longMacro.isSome = true := hlong
    have hloops' : ¬0 < (st.within w).skippedLoops := hloops
    dsimp only
    rw [if_neg hempty, if_neg hempty, if_neg hlong, if_neg hlong', if_neg hloops, if_neg hloops']
    rfl

theorem statement_tracksFrom (hfiles : TracksFiles c runFile) (file : Nat) (pos : Position)
    (st : State) : c.TracksFrom (c.Common st.surroundings file pos) st
      (fun flow st' => c.Lands file flow st' ∧ c.Common st'.surroundings file pos.next)
      (statement runFile file pos) := by
  have hreaches : AdvancesFrom stage st (reach file pos) := (reach_performs file pos).advances st
  have hexecute : ∀ {s st₁}, reach file pos stage st = .ok (some s) st₁ →
      c.TracksFrom (c.Common st₁.surroundings file pos.next) st₁ (c.Lands file)
        (execute runFile file pos s.text s.column0) := by
    intro s st₁ hreach
    obtain ⟨st₀, hexpand, hs, rfl⟩ := expandStatement_of_reach hreach
    exact execute_tracksFrom hfiles hs.symm
      ((ready_of_expandStatement hexpand hs.symm).executing file pos)
  refine ⟨hreaches.bind fun s st₁ hreach => ?_, fun {flow st'} hrun hcommon hahead w hw => ?_⟩
  · cases s with
    | none => exact ReflTransGen.refl
    | some s => exact (hexecute hreach).advances
  obtain ⟨s, st₁, hreach, hrest⟩ := bind_eq_ok hrun
  cases s with
  | none =>
    cases hrest
    obtain ⟨s', w', hreach', hsame, hw', hnext⟩ := c.reach hreach hahead hw hcommon
    cases hsame
    exact ⟨w', PassM.bind_of_ok hreach', hw', lands_next file _, hnext⟩
  | some s =>
    have hsteps := (hexecute hreach).advances.steps hrest
    obtain ⟨s', w', hreach', hsame, hw', hnext⟩ :=
      c.reach hreach (c.ahead_of_steps hsteps hahead) hw hcommon
    obtain ⟨w'', hrun'', hw'', hlands⟩ := (hexecute hreach).beside hrest hnext hahead hw'
    refine ⟨w'', ?_, hw'', hlands, c.common_of_steps hsteps hahead hnext⟩
    cases hsame with
    | @some _ s' hsame =>
      have hsame' : SameIn (st₁.within w') s s' := hsame
      rw [statement, PassM.bind_of_ok hreach']
      dsimp only
      rw [execute_of_sameIn hsame', hrun'']

end PassM

end MacroAssembler
