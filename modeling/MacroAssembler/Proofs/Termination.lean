import Mathlib.Algebra.Order.BigOperators.Group.List
import Mathlib.Algebra.Order.Group.Nat
import Mathlib.Data.DFinsupp.WellFounded
import Mathlib.Data.Finite.Prod
import Mathlib.Data.Prod.Lex
import MacroAssembler.Proofs.Growth
import MacroAssembler.Proofs.LoopStack
import MacroAssembler.Proofs.Moves

/-!
# Runs end

A run over a file can jump back, and what it jumps over may be executed again with fresh loops.  It
ends all the same.  The loops that were opened in the file resume at different positions, in the
order in which they are nested, and the run is behind all of them: `LoopsInOrder` is kept by every
step.  So give every position of the text a number: the rounds that are left to the loop that
resumes there, or more than any loop has if the position lies ahead.  A step forward makes no number
larger and the one of its target smaller.  A jump back makes the number of its target smaller and
only later ones larger.  Read from the beginning of the text the numbers decrease, and for a text of
a given size that goes on only for so long.

The text changes when a statement is replaced by those that its macros stand for.  That happens once
for every statement that is not expanded yet, and leaves no new ones of these.
-/

namespace MacroAssembler

open Relation SourceStore
variable {file : Nat} {loops : List OpenLoop} {resume : Position} {loops' : List OpenLoop}
  {jump : Option Position} {pos : Position}

/-! ## Positions -/

/-- Positions are ordered as in the text. -/
instance : LinearOrder Position :=
  LinearOrder.lift' (fun pos => toLex (pos.line, pos.statement)) fun a b h => by
    cases a
    cases b
    cases toLex.injective h
    rfl

namespace Position

variable {a b : Position}

theorem lt_iff : a < b ↔ a.line < b.line ∨ a.line = b.line ∧ a.statement < b.statement :=
  Prod.Lex.toLex_lt_toLex

theorem lt_next (pos : Position) : pos < pos.next :=
  lt_iff.2 (.inr ⟨rfl, Nat.lt_succ_self _⟩)

theorem lt_nextLine (pos : Position) : pos < ⟨pos.line + 1, 0⟩ :=
  lt_iff.2 (.inl (Nat.lt_succ_self _))

end Position

/-! ## The order of the loops -/

/-- Loops, the innermost first, resume the later the deeper they are nested, and not behind a
position. -/
structure LoopsInOrder (pos : Position) (loops : List OpenLoop) : Prop where
  ascending : loops.Pairwise fun inner outer => outer.resume < inner.resume
  behind : ∀ innermost ∈ loops.head?, innermost.resume ≤ pos

namespace LoopsInOrder

variable {pos pos' : Position} {loops : List OpenLoop}

theorem resume_le (h : LoopsInOrder pos loops) {loop : OpenLoop} (hloop : loop ∈ loops) :
    loop.resume ≤ pos := by
  cases loops with
  | nil => cases hloop
  | cons inner outer =>
    have hinner := h.behind inner rfl
    rcases List.mem_cons.1 hloop with rfl | hloop
    · exact hinner
    · exact (List.rel_of_pairwise_cons h.ascending hloop).le.trans hinner

theorem of_resume_le (hascending : loops.Pairwise fun inner outer => outer.resume < inner.resume)
    (h : ∀ loop ∈ loops, loop.resume ≤ pos) : LoopsInOrder pos loops :=
  ⟨hascending, fun loop hloop => h loop (List.mem_of_mem_head? hloop)⟩

theorem mono (h : LoopsInOrder pos loops) (hle : pos ≤ pos') : LoopsInOrder pos' loops :=
  ⟨h.ascending, fun loop hloop => (h.behind loop hloop).trans hle⟩

end LoopsInOrder

/-- **The step**: the loops stay in order. -/
theorem LoopStep.inOrder (h : LoopStep file resume loops jump loops')
    (hloops : LoopsInOrder pos loops) (hlt : pos < resume) :
    LoopsInOrder (jump.getD resume) loops' := by
  cases h with
  | kept => exact hloops.mono hlt.le
  | opened kind =>
    refine ⟨List.pairwise_cons.2 ⟨fun outer houter => ?_, hloops.ascending⟩, ?_⟩
    · exact (hloops.resume_le houter).trans_lt hlt
    · rintro innermost ⟨⟩
      exact le_rfl
  | closed inner =>
    refine .of_resume_le hloops.ascending.tail fun loop hloop => ?_
    exact (hloops.resume_le (List.mem_cons_of_mem inner hloop)).trans hlt.le
  | @repeated inner outer jump kind hfile hrounds hjump =>
    have hascending := List.pairwise_cons.1 hloops.ascending
    refine ⟨List.pairwise_cons.2 hascending, ?_⟩
    rintro innermost ⟨⟩
    cases jump with
    | none => exact (hloops.behind inner rfl).trans hlt.le
    | some target =>
      obtain rfl := hjump target rfl
      exact le_rfl

/-- The loops that were opened in a file. -/
def loopsOf (file : Nat) (loops : List OpenLoop) : List OpenLoop :=
  loops.filter (·.file = file)

theorem loopsOf_cons (file : Nat) (loop : OpenLoop) (loops : List OpenLoop) :
    loopsOf file (loop :: loops) =
      if loop.file = file then loop :: loopsOf file loops else loopsOf file loops := by
  simp [loopsOf, List.filter_cons]

/-- What is done to the open loops is done to those of the file, if it is done to them at all. -/
theorem LoopStep.ofFile (h : LoopStep file resume loops jump loops') :
    LoopStep file resume (loopsOf file loops) jump (loopsOf file loops') := by
  cases h with
  | kept => exact .kept _
  | opened kind =>
    rw [loopsOf_cons, if_pos rfl]
    exact .opened _ _
  | closed inner =>
    rw [loopsOf_cons]
    split
    · exact .closed inner _
    · exact .kept _
  | repeated outer kind hfile hrounds hjump =>
    rw [loopsOf_cons, if_pos hfile, loopsOf_cons, if_pos hfile]
    exact .repeated _ kind hfile hrounds hjump

/-! ## Rounds -/

/-- The rounds that are left to the loop that resumes at a position, if there is one. -/
def roundsLeft (loops : List OpenLoop) (at' : Position) : Nat :=
  (loops.find? (·.resume = at')).elim 0 fun loop => maxIterations - loop.iterations

/-- The number of a position in the text, while a run is at `pos`. -/
def standing (pos : Position) (loops : List OpenLoop) (at' : Position) : Nat :=
  if at' ≤ pos then roundsLeft loops at' else maxIterations + 1

theorem roundsLeft_le (loops : List OpenLoop) (at' : Position) :
    roundsLeft loops at' ≤ maxIterations := by
  rw [roundsLeft]
  cases loops.find? (·.resume = at') with
  | none => exact Nat.zero_le _
  | some loop => exact Nat.sub_le _ _

theorem roundsLeft_cons (loop : OpenLoop) (loops : List OpenLoop) (at' : Position) :
    roundsLeft (loop :: loops) at' =
      if loop.resume = at' then maxIterations - loop.iterations else roundsLeft loops at' := by
  rw [roundsLeft, List.find?_cons]
  by_cases h : loop.resume = at'
  · simp [h]
  · simp [h, roundsLeft]

theorem roundsLeft_of_forall_ne {at' : Position} (h : ∀ loop ∈ loops, loop.resume ≠ at') :
    roundsLeft loops at' = 0 := by
  rw [roundsLeft, List.find?_eq_none.2 fun loop hloop => by simpa using h loop hloop,
    Option.elim_none]

/-- No loop behind the run has more rounds left after a statement than before. -/
theorem LoopStep.roundsLeft_le (h : LoopStep file resume loops jump loops')
    (hloops : LoopsInOrder pos loops) (hlt : pos < resume) {at' : Position} (hat : at' ≤ pos) :
    roundsLeft loops' at' ≤ roundsLeft loops at' := by
  cases h with
  | kept => exact le_rfl
  | opened kind => rw [roundsLeft_cons, if_neg (hat.trans_lt hlt).ne']
  | @closed inner =>
    by_cases hinner : inner.resume = at'
    · have hother : ∀ loop ∈ loops', loop.resume ≠ at' := fun loop hloop =>
        hinner ▸ (List.rel_of_pairwise_cons hloops.ascending hloop).ne
      rw [roundsLeft_of_forall_ne hother]
      exact Nat.zero_le _
    · rw [roundsLeft_cons, if_neg hinner]
  | @repeated inner outer jump kind hfile hrounds hjump =>
    rw [roundsLeft_cons, roundsLeft_cons]
    split
    · exact Nat.sub_le_sub_left (Nat.le_succ _) _
    · exact le_rfl

/-! ## The rank of a place -/

/-- The positions of a text of a size. -/
def Room (lines width : Nat) : Type :=
  { pos : Position // pos.line < lines ∧ pos.statement < width }

instance (lines width : Nat) : LinearOrder (Room lines width) :=
  inferInstanceAs (LinearOrder { pos : Position // pos.line < lines ∧ pos.statement < width })

instance (lines width : Nat) : Finite (Room lines width) :=
  Finite.of_injective (β := Fin lines × Fin width)
    (fun room => (⟨room.1.line, room.2.1⟩, ⟨room.1.statement, room.2.2⟩)) fun a b h => by
      obtain ⟨⟨_, _⟩, _⟩ := a
      obtain ⟨⟨_, _⟩, _⟩ := b
      cases h
      rfl

/-- The numbers of all positions, those at the beginning of the text first. -/
def rank (lines width : Nat) (pos : Position) (loops : List OpenLoop) :
    Lex (Room lines width → Nat) :=
  toLex fun room => standing pos loops room.1

variable {lines width : Nat}

/-- **The rank decreases** with every step. -/
theorem LoopStep.rank_lt (h : LoopStep file resume loops jump loops')
    (hloops : LoopsInOrder pos loops) (hlt : pos < resume)
    (hroom : resume.line < lines ∧ resume.statement < width)
    (hrooms : ∀ loop ∈ loops, loop.resume.line < lines ∧ loop.resume.statement < width) :
    rank lines width (jump.getD resume) loops' < rank lines width pos loops := by
  cases hjump : jump with
  | none =>
    -- every number gets smaller or stays, and the target was ahead
    refine Pi.toLex_strictMono (Pi.lt_def.2 ⟨fun at' => ?_, ⟨resume, hroom⟩, ?_⟩)
    · dsimp only [Option.getD_none]
      unfold standing
      by_cases hat : at'.1 ≤ pos
      · rw [if_pos hat, if_pos (hat.trans hlt.le)]
        exact h.roundsLeft_le hloops hlt hat
      · rw [if_neg hat]
        split
        · exact (MacroAssembler.roundsLeft_le _ _).trans (Nat.le_succ _)
        · exact le_rfl
    · dsimp only [Option.getD_none]
      unfold standing
      rw [if_pos le_rfl, if_neg hlt.not_ge]
      exact Nat.lt_succ_of_le (MacroAssembler.roundsLeft_le _ _)
  | some target =>
    subst hjump
    cases h with
    | @repeated inner outer _ kind hfile hrounds hjump =>
      obtain rfl := hjump target rfl
      have hinner : inner.resume ≤ pos := hloops.behind inner rfl
      refine ⟨⟨inner.resume, hrooms inner List.mem_cons_self⟩, fun at' hat => ?_, ?_⟩
      · have hat : at'.1 < inner.resume := hat
        change standing inner.resume _ at'.1 = standing pos _ at'.1
        unfold standing
        rw [if_pos hat.le, if_pos (hat.le.trans hinner), roundsLeft_cons, if_neg hat.ne',
          roundsLeft_cons, if_neg hat.ne']
      · change standing inner.resume _ inner.resume < standing pos _ inner.resume
        unfold standing
        rw [if_pos le_rfl, if_pos hinner, roundsLeft_cons, if_pos rfl, roundsLeft_cons, if_pos rfl]
        exact Nat.sub_succ_lt_self _ _ hrounds

/-! ## The text -/

theorem sum_map_modify {α : Type} (weight : α → Nat) (f : α → α) {l : List α} {i : Nat} {a : α}
    (h : l[i]? = some a) :
    ((l.modify i f).map weight).sum + weight a = (l.map weight).sum + weight (f a) := by
  induction l generalizing i with
  | nil => cases h
  | cons b l ih =>
    cases i with
    | zero =>
      cases h
      simp only [List.modify_zero_cons, List.map_cons, List.sum_cons]
      omega
    | succ i =>
      have hrest := ih h
      simp only [List.modify_succ_cons, List.map_cons, List.sum_cons]
      omega

theorem sum_map_modify_le {α : Type} {weight : α → Nat} {f : α → α}
    (h : ∀ a, weight (f a) ≤ weight a) (l : List α) (i : Nat) :
    ((l.modify i f).map weight).sum ≤ (l.map weight).sum := by
  cases ha : l[i]? with
  | none => rw [List.modify_eq_self (List.getElem?_eq_none_iff.1 ha)]
  | some a =>
    have hsum := sum_map_modify weight f ha
    have hle := h a
    omega

/-- How many statements of a line are not expanded yet. -/
def unexpandedOf (line : List Statement) : Nat :=
  (line.map fun s => if s.expanded then 0 else 1).sum

/-- Where a statement is replaced by expanded ones, there is one less that is not expanded. -/
theorem unexpandedOf_replace {old new : List Statement} {i : Nat} {s : Statement}
    (hs : old[i]? = some s) (hs' : s.expanded = false) (hnew : ∀ s ∈ new, s.expanded = true) :
    unexpandedOf (old.take i ++ new ++ old.drop (i + 1)) + 1 = unexpandedOf old := by
  obtain ⟨hlt, rfl⟩ := List.getElem?_eq_some_iff.1 hs
  have hline : old = old.take i ++ old[i] :: old.drop (i + 1) := by
    rw [← List.drop_eq_getElem_cons hlt, List.take_append_drop]
  have hzero : (new.map fun s => if s.expanded then 0 else 1).sum = 0 := by
    refine List.sum_eq_zero fun n hn => ?_
    obtain ⟨s, hmem, rfl⟩ := List.mem_map.1 hn
    exact if_pos (hnew s hmem)
  nth_rewrite 3 [hline]
  simp only [unexpandedOf, List.map_append, List.map_cons, List.sum_append,
    List.sum_cons, hzero, hs', Bool.false_eq_true, if_false]
  omega

namespace SourceStore

variable {store store' store'' : SourceStore} {file : Nat}

/-- How many statements of a file are not expanded yet. -/
def unexpandedIn (store : SourceStore) (file : Nat) : Nat :=
  ((store.file file).lines.toList.map unexpandedOf).sum

/-- There are fewer statements in a file that are not expanded, or as many and the lines are as long
as before. -/
def Settles (file : Nat) (store store' : SourceStore) : Prop :=
  store'.unexpandedIn file < store.unexpandedIn file ∨
    store'.unexpandedIn file = store.unexpandedIn file ∧
      ∀ line, store'.lengthAt file line = store.lengthAt file line

theorem Settles.of_file_eq (h : store'.file file = store.file file) :
    Settles file store store' := by
  refine .inr ⟨?_, fun line => ?_⟩
  · rw [unexpandedIn, h, unexpandedIn]
  · rw [lengthAt, h, lengthAt]

theorem Settles.trans (h : Settles file store store') (h' : Settles file store' store'') :
    Settles file store store'' := by
  rcases h with h | ⟨heq, hlength⟩
  · rcases h' with h' | ⟨heq', -⟩
    · exact .inl (h'.trans h)
    · exact .inl (heq' ▸ h)
  · rcases h' with h' | ⟨heq', hlength'⟩
    · exact .inl (heq ▸ h')
    · exact .inr ⟨heq'.trans heq, fun line => (hlength' line).trans (hlength line)⟩

theorem unexpandedIn_modifyStatement_le (store : SourceStore) (id file : Nat) (pos : Position)
    {f : Statement → Statement} (hf : ∀ s, s.expanded = true → (f s).expanded = true) :
    (store.modifyFile id (·.modifyStatement pos f)).unexpandedIn file ≤
      store.unexpandedIn file := by
  have hstatement : ∀ s : Statement,
      (if (f s).expanded then 0 else 1) ≤ if s.expanded then 0 else 1 := by
    intro s
    cases hs : s.expanded with
    | true => rw [hf s hs]
    | false =>
      rw [if_neg Bool.false_ne_true]
      split
      · exact Nat.zero_le 1
      · exact le_rfl
  have hline : ∀ line, unexpandedOf (line.modify pos.statement f) ≤ unexpandedOf line :=
    fun line => sum_map_modify_le hstatement line pos.statement
  rw [unexpandedIn, file_modifyStatement, unexpandedIn]
  split
  · rw [SourceFile.modifyStatement, Array.toList_modify]
    exact sum_map_modify_le hline _ _
  · exact le_rfl

/-- A change of the sources settles what it changes. -/
theorem Edit.settles {history : List Event} (h : Edit history store store')
    (hfile : file < store.files.size) : Settles file store store' := by
  cases h with
  | same => exact .of_file_eq rfl
  | read h =>
    cases h with
    | load path text => exact .of_file_eq (file_push store _ hfile)
    | binary bytes hnew => exact .of_file_eq rfl
  | annotated id pos hwording hexpanded =>
    have hlength := fun line => store.lengthAt_modifyStatement id file line pos hwording
    rcases (store.unexpandedIn_modifyStatement_le id file pos hexpanded).lt_or_eq with hlt | heq
    · exact .inl hlt
    · exact .inr ⟨heq, hlength⟩
  | @spliced id pos s text hs hnew hnoted =>
    have hlines := store.lines_splice hs text file
    by_cases hid : id = file
    · subst hid
      rw [if_pos rfl] at hlines
      obtain ⟨line, hline, hstatement⟩ := Option.bind_eq_some_iff.1 hs
      have hexpanded : ∀ s' ∈ Source.expandedStatements s.column0 text, s'.expanded = true :=
        fun _ => Source.expanded_of_mem_expandedStatements
      have hreplace := unexpandedOf_replace hstatement hnew hexpanded
      have hsum := sum_map_modify unexpandedOf (fun old => old.take pos.statement ++
        Source.expandedStatements s.column0 text ++ old.drop (pos.statement + 1))
        (Array.getElem?_toList ▸ hline)
      left
      rw [unexpandedIn, hlines, Array.toList_modify, unexpandedIn]
      omega
    · rw [if_neg hid] at hlines
      refine .inr ⟨?_, fun line => ?_⟩
      · rw [unexpandedIn, hlines, unexpandedIn]
      · rw [lengthAt, hlines, lengthAt]

end SourceStore

theorem settles_of_changes {stage : Stage} {failing : Prop} {st st' : State}
    (h : ReflTransGen (Change stage failing) st st') (hfile : file < st.store.files.size) :
    st.store.Settles file st'.store := by
  refine (keeps_of_steps (P := fun st' => file < st'.store.files.size ∧
    st.store.Settles file st'.store) ?_ h ⟨hfile, .of_file_eq rfl⟩).2
  intro st₁ st₂ hstep hst
  have hedit := hstep.edit
  exact ⟨Nat.lt_of_lt_of_le hst.1 hedit.growsInto.size_le, hst.2.trans (hedit.settles hst.1)⟩

/-! ## Steps -/

section

variable {runFile : Option (Nat → PassM Bool)} {file : Nat} {stage : Stage} {c c' : Place}
variable {resume : Position} {jump : Option Position}

theorem visit_settles (hfiles : PassM.RunsFiles stage runFile) {pos : Position} {st : State}
    (hfile : file < st.store.files.size) :
    st.store.Settles file (visit runFile file stage pos st).after.store := by
  have hsteps := settles_of_changes
    ((PassM.statement_advances hfiles file pos).performs (st.locate file pos)) hfile
  unfold visit
  rw [stateAfter] at hsteps
  cases hrun : PassM.statement runFile file pos stage (st.locate file pos) with
  | ok flow st' =>
    rw [hrun] at hsteps
    exact hsteps
  | error fault st' =>
    rw [hrun] at hsteps
    dsimp only
    split
    · exact hsteps
    · exact hsteps

/-- A step of a run, forward to `resume` or back by a jump. -/
structure Place.Step (file : Nat) (c c' : Place) (resume : Position) (jump : Option Position) :
    Prop where
  loops : LoopStep file resume (loopsOf file c.st.loops) jump (loopsOf file c'.st.loops)
  lt : c.pos < resume
  target : c'.pos = jump.getD resume
  inText : ∃ n, c.st.store.lengthAt file c.pos.line = some n ∧ resume.line ≤ c.pos.line + 1 ∧
    resume.statement ≤ n
  settles : c.st.store.Settles file c'.st.store

theorem SourceStore.lt_size_of_lengthAt {store : SourceStore} {line n : Nat}
    (h : store.lengthAt file line = some n) : file < store.files.size := by
  refine Nat.lt_of_not_le fun hsize => ?_
  rw [lengthAt, SourceStore.file, Array.getD_eq_getD_getElem?, Array.getElem?_eq_none hsize] at h
  cases h

theorem Move.exists_step (hfiles : PassM.RunsFiles stage runFile) (h : Move runFile file stage c c')
    (hinclude : includesAt file stage c.pos c.st = false) :
    ∃ resume jump, Place.Step file c c' resume jump := by
  cases h with
  | @lineEnd pos st words hline hend =>
    have hlength : st.store.lengthAt file pos.line = some words.length := by
      rw [lengthAt_eq, hline, Option.map_some]
    exact ⟨⟨pos.line + 1, 0⟩, none, .kept _, pos.lt_nextLine, rfl,
      ⟨_, hlength, le_rfl, Nat.zero_le _⟩, .of_file_eq rfl⟩
  | @visit pos target st w v hw hv htarget =>
    subst hv
    obtain ⟨s, hs, -⟩ := Option.map_eq_some_iff.1 hw
    obtain ⟨n, hlength, hlt⟩ := st.store.lt_of_statementAt hs
    have htarget := Visit.target_eq htarget
    rw [visit_pos] at htarget
    exact ⟨pos.next, _, (visit_loopStep runFile hinclude).ofFile, pos.lt_next, htarget,
      ⟨n, hlength, Nat.le_succ _, hlt⟩,
      visit_settles hfiles (lt_size_of_lengthAt hlength)⟩

/-- **The run**: the loops of the file are in order at every place that a run comes to. -/
theorem loopsInOrder_of_moves (hfiles : PassM.RunsFiles stage runFile)
    (hinclude : ∀ c', ReflTransGen (Move runFile file stage) c c' →
      includesAt file stage c'.pos c'.st = false)
    (hloops : LoopsInOrder c.pos (loopsOf file c.st.loops))
    (h : ReflTransGen (Move runFile file stage) c c') :
    LoopsInOrder c'.pos (loopsOf file c'.st.loops) := by
  induction h with
  | refl => exact hloops
  | tail hmoves hmove ih =>
    obtain ⟨resume, jump, hstep⟩ := hmove.exists_step hfiles (hinclude _ hmoves)
    rw [hstep.target]
    exact hstep.loops.inOrder ih hstep.lt

/-! ## The end -/

theorem exists_bound {α : Type} (f : α → Nat) (l : List α) : ∃ bound, ∀ a ∈ l, f a < bound :=
  ⟨(l.map f).sum + 1, fun _ ha => Nat.lt_succ_of_le
    (List.single_le_sum (fun n _ => Nat.zero_le n) _ (List.mem_map_of_mem ha))⟩

/-- The text and the loops of a file lie in a room. -/
structure Place.Fits (file lines width : Nat) (c : Place) : Prop where
  text : ∀ line n, c.st.store.lengthAt file line = some n → line + 1 < lines ∧ n < width
  loops : ∀ loop ∈ loopsOf file c.st.loops, loop.resume.line < lines ∧ loop.resume.statement < width

theorem Place.exists_fits (file : Nat) (c : Place) : ∃ lines width, c.Fits file lines width := by
  obtain ⟨lines, hlines⟩ := exists_bound (·.resume.line) (loopsOf file c.st.loops)
  obtain ⟨width, hwidth⟩ := exists_bound (·.resume.statement) (loopsOf file c.st.loops)
  obtain ⟨longest, hlongest⟩ := exists_bound List.length (c.st.store.file file).lines.toList
  refine ⟨lines + (c.st.store.file file).lines.size + 1, width + longest, fun line n hn => ?_,
    fun loop hloop => ?_⟩
  · obtain ⟨statements, hline, rfl⟩ := Option.map_eq_some_iff.1 hn
    obtain ⟨hlt, rfl⟩ := Array.getElem?_eq_some_iff.1 hline
    have hlong := hlongest _ (Array.getElem_mem_toList hlt)
    omega
  · have hline := hlines loop hloop
    have hstatement := hwidth loop hloop
    omega

theorem LoopStep.resume_mem {loops loops' : List OpenLoop}
    (h : LoopStep file resume loops jump loops') {P : Position → Prop} (hresume : P resume)
    (hloops : ∀ loop ∈ loops, P loop.resume) :
    ∀ loop ∈ loops', P loop.resume := by
  cases h with
  | kept => exact hloops
  | opened => exact List.forall_mem_cons.2 ⟨hresume, hloops⟩
  | closed => exact (List.forall_mem_cons.1 hloops).2
  | repeated => exact List.forall_mem_cons.2 (List.forall_mem_cons.1 hloops)

/-- While the text stays, a step keeps to the room and makes the rank smaller. -/
theorem Place.Step.rank_lt (h : Place.Step file c c' resume jump)
    (hlength : ∀ line, c'.st.store.lengthAt file line = c.st.store.lengthAt file line)
    (hloops : LoopsInOrder c.pos (loopsOf file c.st.loops)) (hfits : c.Fits file lines width) :
    c'.Fits file lines width ∧
      rank lines width c'.pos (loopsOf file c'.st.loops) <
        rank lines width c.pos (loopsOf file c.st.loops) := by
  obtain ⟨n, hn, hline, hstatement⟩ := h.inText
  obtain ⟨hlines, hwidth⟩ := hfits.text _ _ hn
  have hroom : resume.line < lines ∧ resume.statement < width :=
    ⟨hline.trans_lt hlines, hstatement.trans_lt hwidth⟩
  refine ⟨⟨fun line n hn => hfits.text line n (hlength line ▸ hn), ?_⟩, ?_⟩
  · exact h.loops.resume_mem (P := fun at' => at'.line < lines ∧ at'.statement < width) hroom
      hfits.loops
  · rw [h.target]
    exact h.loops.rank_lt hloops h.lt hroom hfits.loops

/-- **A run comes to a place from which there is no step.** -/
theorem exists_last (hfiles : PassM.RunsFiles stage runFile) (c : Place)
    (hinclude : ∀ c', ReflTransGen (Move runFile file stage) c c' →
      includesAt file stage c'.pos c'.st = false)
    (hloops : LoopsInOrder c.pos (loopsOf file c.st.loops)) :
    ∃ last, ReflTransGen (Move runFile file stage) c last ∧
      ∀ c', ¬Move runFile file stage last c' := by
  induction hcount : c.st.store.unexpandedIn file using Nat.strong_induction_on generalizing c with
  | _ count ih =>
    obtain ⟨lines, width, hfits⟩ := c.exists_fits file
    induction hrank : rank lines width c.pos (loopsOf file c.st.loops)
      using WellFoundedLT.induction generalizing c with
    | _ r ihrank =>
      by_cases hmove : ∃ c', Move runFile file stage c c'
      · obtain ⟨c', hmove⟩ := hmove
        obtain ⟨resume, jump, hstep⟩ := hmove.exists_step hfiles (hinclude c .refl)
        have hinclude' : ∀ c'', ReflTransGen (Move runFile file stage) c' c'' →
            includesAt file stage c''.pos c''.st = false :=
          fun c'' hmoves => hinclude c'' (.head hmove hmoves)
        have hloops' := loopsInOrder_of_moves hfiles hinclude hloops (.single hmove)
        have hlast : ∃ last, ReflTransGen (Move runFile file stage) c' last ∧
            ∀ c'', ¬Move runFile file stage last c'' := by
          rcases hstep.settles with hlt | ⟨heq, hlength⟩
          · exact ih _ (hcount ▸ hlt) c' hinclude' hloops' rfl
          · obtain ⟨hfits', hless⟩ := hstep.rank_lt hlength hloops hfits
            exact ihrank _ (hrank ▸ hless) c' hinclude' hloops' (heq.trans hcount) hfits' rfl
        obtain ⟨last, hmoves, hend⟩ := hlast
        exact ⟨last, .head hmove hmoves, hend⟩
      · exact ⟨c, .refl, fun c' hc' => hmove ⟨c', hc'⟩⟩

/-- A place where a run ends, and how: behind the last line, or with a statement behind which it
does not go on. -/
inductive Place.Ends (runFile : Option (Nat → PassM Bool)) (file : Nat) (stage : Stage) :
    Place → EStateM.Result Fault State Bool → Prop
  | lastLine {pos : Position} {st : State} (h : (st.store.wordings file)[pos.line]? = none) :
      Ends runFile file stage ⟨pos, st⟩ (.ok false st)
  | visit {pos : Position} {st : State} {w : Wording} {v : Visit}
      (hw : st.store.wordingAt file pos = some w) (hv : visit runFile file stage pos st = v)
      (htarget : v.target? stage.strict = none) : Ends runFile file stage ⟨pos, st⟩ v.ending

/-- Where there is no step, a run ends. -/
theorem Place.exists_ends (hend : ∀ c', ¬Move runFile file stage c c') :
    ∃ result, c.Ends runFile file stage result ∧
      ∀ steps, PassM.runFrom runFile file (steps + 1) c.pos stage c.st = result := by
  obtain ⟨pos, st⟩ := c
  rcases st.store.line_cases file pos.line with ⟨hline, hnone⟩ | ⟨line, words, hline,
    hwords, hlength⟩
  · refine ⟨_, .lastLine hnone, fun steps => ?_⟩
    rw [PassM.runFrom_succ, hline]
  · have hlt : pos.statement < words.length :=
      Nat.lt_of_not_le fun hle => hend _ (.lineEnd hwords hle)
    have hw : st.store.wordingAt file pos = some (words.get ⟨pos.statement, hlt⟩) := by
      rw [wordingAt_eq, hwords, Option.bind_some]
      exact List.getElem?_eq_getElem hlt
    cases htarget : (visit runFile file stage pos st).target? stage.strict with
    | some target => exact absurd (.visit hw rfl htarget) (hend _)
    | none =>
      refine ⟨_, .visit hw rfl htarget, fun steps => ?_⟩
      rw [PassM.runFrom_succ, hline]
      dsimp only
      rw [if_neg (Nat.not_le_of_lt (hlength ▸ hlt)), htarget]

/-! ## Jumps -/

/-- The rounds that are left to the loop with some loops around it, if it is open. -/
def roundsInside (outer : Nat) (loops : List OpenLoop) : Nat :=
  (loops.reverse[outer]?).elim maxIterations fun loop => maxIterations - loop.iterations

/-- A visit jumps back in the loop with some loops around it. -/
def Visit.jumpsInside (outer : Nat) (v : Visit) : Bool :=
  v.jump?.isSome && v.after.loops.length == outer + 1

/-- **The step**: a jump in a loop takes one of the rounds that are left to it. -/
theorem LoopStep.roundsInside_le {loops loops' : List OpenLoop}
    (h : LoopStep file resume loops jump loops') {outer : Nat} (houter : outer < loops'.length) :
    roundsInside outer loops' + (if jump.isSome && loops'.length == outer + 1 then 1 else 0) ≤
      roundsInside outer loops := by
  unfold roundsInside
  cases h with
  | kept => exact le_rfl
  | opened kind =>
    rw [List.reverse_cons]
    rcases Nat.lt_succ_iff_lt_or_eq.1 houter with hlt | rfl
    · rw [List.getElem?_append_left (by rwa [List.length_reverse])]
      exact le_rfl
    · rw [List.getElem?_eq_none (l := loops.reverse) List.length_reverse.le]
      simp
  | closed inner =>
    rw [List.reverse_cons, List.getElem?_append_left (by rwa [List.length_reverse])]
    exact le_rfl
  | @repeated inner others jump kind hfile hrounds hjump =>
    rw [List.reverse_cons, List.reverse_cons]
    rcases Nat.lt_succ_iff_lt_or_eq.1 houter with hlt | rfl
    · rw [List.getElem?_append_left (by rwa [List.length_reverse]),
        List.getElem?_append_left (by rwa [List.length_reverse]), List.length_cons]
      simp [hlt.ne']
    · have hlast : ∀ loop : OpenLoop, (others.reverse ++ [loop])[others.length]? = some loop := by
        intro loop
        rw [List.getElem?_append_right List.length_reverse.le, List.length_reverse,
          Nat.sub_self]
        rfl
      rw [hlast, hlast, Option.elim_some, Option.elim_some]
      dsimp only
      split
      · omega
      · omega

/-- The visits of a run from a place are those after its first step, with the visit of that step in
front if it is one. -/
theorem trail_cases (steps : Nat) (c : Place) :
    trail runFile file stage (steps + 1) c.pos c.st = [] ∨
    (∃ c', Move runFile file stage c c' ∧ c'.st = c.st ∧
      trail runFile file stage (steps + 1) c.pos c.st =
        trail runFile file stage steps c'.pos c'.st) ∨
    ∃ rest, trail runFile file stage (steps + 1) c.pos c.st =
        visit runFile file stage c.pos c.st :: rest ∧
      (rest = [] ∨ ∃ c', Move runFile file stage c c' ∧
        c'.st = (visit runFile file stage c.pos c.st).after ∧
        rest = trail runFile file stage steps c'.pos c'.st) := by
  obtain ⟨pos, st⟩ := c
  have hwordings : st.store.wordings file = st.store.wordings file := rfl
  have htrail := trail_succ runFile stage hwordings steps pos
  dsimp only
  cases hline : (st.store.wordings file)[pos.line]? with
  | none =>
    rw [hline] at htrail
    exact .inl htrail
  | some words =>
    rw [hline] at htrail
    dsimp only at htrail
    by_cases hend : words.length ≤ pos.statement
    · rw [if_pos hend] at htrail
      exact .inr (.inl ⟨⟨⟨pos.line + 1, 0⟩, st⟩, .lineEnd hline hend, rfl, htrail⟩)
    · rw [if_neg hend] at htrail
      refine .inr (.inr ⟨_, htrail, ?_⟩)
      have hw : st.store.wordingAt file pos =
          some (words.get ⟨pos.statement, Nat.lt_of_not_le hend⟩) := by
        rw [wordingAt_eq, hline, Option.bind_some]
        exact List.getElem?_eq_getElem (Nat.lt_of_not_le hend)
      cases htarget : (visit runFile file stage pos st).target? stage.strict with
      | none => exact .inl rfl
      | some target => exact .inr ⟨⟨target, _⟩, .visit hw rfl htarget, rfl, rfl⟩

/-- **The run**: while a loop is open, it takes the rounds of its jumps from those that are left. -/
theorem countP_jumps_le (outer steps : Nat) (c : Place)
    (hinclude : ∀ c', ReflTransGen (Move runFile file stage) c c' →
      includesAt file stage c'.pos c'.st = false) {visits : List Visit}
    (hvisits : visits <+: trail runFile file stage steps c.pos c.st)
    (houter : ∀ v ∈ visits, outer < v.after.loops.length) :
    visits.countP (Visit.jumpsInside outer) ≤ roundsInside outer c.st.loops := by
  induction steps generalizing c visits with
  | zero =>
    rw [trail, List.prefix_nil] at hvisits
    subst hvisits
    exact Nat.zero_le _
  | succ steps ih =>
    rcases trail_cases steps c with htrail | ⟨c', hmove, hst, htrail⟩ | ⟨rest, htrail, hrest⟩
    · rw [htrail, List.prefix_nil] at hvisits
      subst hvisits
      exact Nat.zero_le _
    · rw [htrail] at hvisits
      rw [← hst]
      exact ih c' (fun c'' hmoves => hinclude c'' (.head hmove hmoves)) hvisits houter
    · cases visits with
      | nil => exact Nat.zero_le _
      | cons v visits =>
        rw [htrail, List.cons_prefix_cons] at hvisits
        obtain ⟨rfl, hvisits⟩ := hvisits
        have hstep := visit_loopStep runFile (hinclude c .refl)
        have hround := hstep.roundsInside_le (houter _ List.mem_cons_self)
        have hlater : visits.countP (Visit.jumpsInside outer) ≤
            roundsInside outer (visit runFile file stage c.pos c.st).after.loops := by
          rcases hrest with rfl | ⟨c', hmove, hst, rfl⟩
          · rw [List.prefix_nil] at hvisits
            subst hvisits
            exact Nat.zero_le _
          · rw [← hst]
            exact ih c' (fun c'' hmoves => hinclude c'' (.head hmove hmoves)) hvisits
              fun v hv => houter v (List.mem_cons_of_mem _ hv)
        rw [List.countP_cons]
        exact (Nat.add_le_add_right hlater _).trans hround

/-- No loop jumps back more often than a loop may, from where it is opened to where it is closed. -/
theorem countP_jumps_le_maxIterations (outer steps : Nat) (c : Place)
    (hinclude : ∀ c', ReflTransGen (Move runFile file stage) c c' →
      includesAt file stage c'.pos c'.st = false) {visits : List Visit}
    (hvisits : visits <:+: trail runFile file stage steps c.pos c.st)
    (houter : ∀ v ∈ visits, outer < v.after.loops.length) :
    visits.countP (Visit.jumpsInside outer) ≤ maxIterations := by
  have hrounds : ∀ loops, roundsInside outer loops ≤ maxIterations := by
    intro loops
    unfold roundsInside
    cases loops.reverse[outer]? with
    | none => exact le_rfl
    | some loop => exact Nat.sub_le _ _
  induction steps generalizing c with
  | zero =>
    rw [trail, List.infix_nil] at hvisits
    subst hvisits
    exact Nat.zero_le _
  | succ steps ih =>
    rcases trail_cases steps c with htrail | ⟨c', hmove, hst, htrail⟩ | ⟨rest, htrail, hrest⟩
    · rw [htrail, List.infix_nil] at hvisits
      subst hvisits
      exact Nat.zero_le _
    · rw [htrail] at hvisits
      exact ih c' (fun c'' hmoves => hinclude c'' (.head hmove hmoves)) hvisits
    · rw [htrail, List.infix_cons_iff] at hvisits
      rcases hvisits with hvisits | hvisits
      · exact (countP_jumps_le outer (steps + 1) c hinclude (htrail ▸ hvisits)
          houter).trans (hrounds _)
      · rcases hrest with rfl | ⟨c', hmove, -, rfl⟩
        · rw [List.infix_nil] at hvisits
          subst hvisits
          exact Nat.zero_le _
        · exact ih c' (fun c'' hmoves => hinclude c'' (.head hmove hmoves)) hvisits

end

/-! ## Files -/

/-- The result of a file, from the result of the run over its statements. -/
def State.leave (before : State) : EStateM.Result Fault State Bool → EStateM.Result Fault State Bool
  | .ok stopped st => .ok stopped (st.closeFile before true)
  | .error fault st => .error fault (st.closeFile before false)

namespace PassM

/-- The way to execute files from a file in which includes may still nest some levels deep. -/
def included : (levels : Nat) → Option (Nat → PassM Bool)
  | 0 => none
  | levels + 1 => some (runFile levels)

theorem runFile_apply (levels file : Nat) (stage : Stage) (st : State) :
    runFile levels file stage st = st.leave
      (runFrom (included levels) file stage.maxSteps ⟨0, 0⟩ stage (st.openFile file)) := by
  have hwith : runFile levels file = runWith (included levels) file := by
    cases levels with
    | zero => rfl
    | succ levels => rfl
  rw [hwith, runWith_apply]
  rfl

theorem included_runsFiles (stage : Stage) (levels : Nat) : RunsFiles stage (included levels) := by
  cases levels with
  | zero => exact fun _ hrun => nomatch hrun
  | succ levels =>
    rintro run ⟨⟩ file
    exact runFile_advances levels file

/-- **A file ends.**  Take a file from which no loop is open yet, and a pass over it in which no
statement that is executed includes another file.  Given enough steps, the run comes to a place
where it ends, and the result is the one from there, however many more steps it is given; so the
file has that result if the pass allows it that many steps.  At every place that the run comes to,
the loops of the file resume the later the deeper they are nested, and the run is at or behind the
innermost of these positions.  And no loop jumps back more than a million times: that is so for
every part of the run in which there are always more than `outer` loops open, and the jumps are
those with just one more. -/
theorem runFile_ends (levels file : Nat) (stage : Stage) (st : State)
    (hloops : ∀ loop ∈ st.loops, loop.file ≠ file)
    (hinclude : ∀ c, ReflTransGen (Move (included levels) file stage) ⟨⟨0, 0⟩, st.openFile file⟩ c →
      includesAt file stage c.pos c.st = false) :
    (∃ enough last result,
      ReflTransGen (Move (included levels) file stage) ⟨⟨0, 0⟩, st.openFile file⟩ last ∧
      last.Ends (included levels) file stage result ∧
      (∀ more, runFrom (included levels) file (enough + more) ⟨0, 0⟩ stage (st.openFile file) =
        result) ∧
      (enough ≤ stage.maxSteps → runFile levels file stage st = st.leave result)) ∧
    (∀ c, ReflTransGen (Move (included levels) file stage) ⟨⟨0, 0⟩, st.openFile file⟩ c →
      LoopsInOrder c.pos (loopsOf file c.st.loops)) ∧
    ∀ outer steps visits,
      visits <:+: trail (included levels) file stage steps ⟨0, 0⟩ (st.openFile file) →
      (∀ v ∈ visits, outer < v.after.loops.length) →
      visits.countP (Visit.jumpsInside outer) ≤ 1000000 := by
  have hfiles := included_runsFiles stage levels
  have hnone : loopsOf file (st.openFile file).loops = [] :=
    List.filter_eq_nil_iff.2 fun loop hloop => by simpa using hloops loop hloop
  have hstart : LoopsInOrder ⟨0, 0⟩ (loopsOf file (st.openFile file).loops) := by
    rw [hnone]
    exact ⟨.nil, fun _ h => nomatch h⟩
  refine ⟨?_, fun c hmoves => loopsInOrder_of_moves hfiles hinclude hstart hmoves,
    fun outer steps visits hvisits houter =>
      countP_jumps_le_maxIterations outer steps ⟨⟨0, 0⟩, st.openFile file⟩ hinclude hvisits houter⟩
  obtain ⟨last, hmoves, hend⟩ := exists_last hfiles ⟨⟨0, 0⟩, st.openFile file⟩ hinclude hstart
  obtain ⟨result, hends, hresult⟩ := Place.exists_ends hend
  obtain ⟨cost, hgo⟩ := runFrom_of_moves hmoves
  have hrun : ∀ more, runFrom (included levels) file (cost + 1 + more) ⟨0, 0⟩ stage
      (st.openFile file) = result := by
    intro more
    have hsteps : cost + 1 + more = more + 1 + cost := by omega
    rw [hsteps]
    exact (hgo (more + 1)).trans (hresult more)
  refine ⟨cost + 1, last, result, hmoves, hends, hrun, fun henough => ?_⟩
  obtain ⟨more, hmore⟩ := Nat.exists_eq_add_of_le henough
  rw [runFile_apply, hmore, hrun]

/-- A check that a run ends within some steps and that no statement includes a file before. -/
def neverIncludes (runFile : Option (Nat → PassM Bool)) (file : Nat) (stage : Stage) :
    (steps : Nat) → Position → State → Bool
  | 0, _, _ => false
  | steps + 1, pos, st =>
    !includesAt file stage pos st &&
      ((st.store.wordings file)[pos.line]?).all fun words =>
        if words.length ≤ pos.statement then
          neverIncludes runFile file stage steps ⟨pos.line + 1, 0⟩ st
        else
          let v := visit runFile file stage pos st
          (v.target? stage.strict).all fun target =>
            neverIncludes runFile file stage steps target v.after

theorem includesAt_of_neverIncludes {runFile : Option (Nat → PassM Bool)} {file steps : Nat}
    {stage : Stage} {c c' : Place} (h : neverIncludes runFile file stage steps c.pos c.st = true)
    (hmoves : ReflTransGen (Move runFile file stage) c c') :
    includesAt file stage c'.pos c'.st = false := by
  induction steps generalizing c with
  | zero => cases h
  | succ steps ih =>
    rw [neverIncludes, Bool.and_eq_true, Bool.not_eq_true'] at h
    rcases hmoves.cases_head with rfl | ⟨c₁, hmove, hmoves⟩
    · exact h.1
    · refine ih ?_ hmoves
      cases hmove with
      | lineEnd hline hend =>
        rw [hline, Option.all_some, if_pos hend] at h
        exact h.2
      | visit hw hv htarget =>
        rw [wordingAt_eq] at hw
        obtain ⟨words, hwords, hw⟩ := Option.bind_eq_some_iff.1 hw
        obtain ⟨hlt, -⟩ := List.getElem?_eq_some_iff.1 hw
        rw [hwords, Option.all_some, if_neg (Nat.not_le_of_lt hlt)] at h
        dsimp only at h
        rw [hv, htarget] at h
        exact h.2

/-- A loop in a macro, in a loop with a counter, and a loop without an end. -/
def loopsInMacro : String :=
  " .deflong twice\n .repeat 2\n .db 1\n .loop\n .enddeflong\n" ++
    " .for i, 1, 2\n twice\n .loop\n .repeat 3\n"

theorem runFile_ends_loopsInMacro :
    let visits := trail none 0 draftStage 60 ⟨0, 0⟩ ((startWith loopsInMacro false).openFile 0)
    visits.countP (Visit.jumpsInside 1) = 2 ∧
      (∀ c, ReflTransGen (Move none 0 draftStage)
          ⟨⟨0, 0⟩, (startWith loopsInMacro false).openFile 0⟩ c →
        LoopsInOrder c.pos (loopsOf 0 c.st.loops)) ∧
      ∃ enough result, ∀ more,
        runFrom none 0 (enough + more) ⟨0, 0⟩ draftStage
          ((startWith loopsInMacro false).openFile 0) = result := by
  have hcheck : neverIncludes none 0 draftStage 60 ⟨0, 0⟩
      ((startWith loopsInMacro false).openFile 0) = true := by decide +kernel
  obtain ⟨⟨enough, -, result, -, -, hrun, -⟩, horder, -⟩ :=
    runFile_ends 0 0 draftStage (startWith loopsInMacro false) (fun _ h => nomatch h)
      fun _ hmoves => includesAt_of_neverIncludes hcheck hmoves
  exact ⟨by decide +kernel, horder, enough, result, hrun⟩

end PassM

end MacroAssembler
