import MacroAssembler.Proofs.Reassembly

/-!
# Repeatability

An assembler can assemble a program again.  The sources are then those that the first assembly has
left, with its macros expanded, and still the second assembly should come to the same output.

It does where expansion goes on in the same way in every pass.  But a statement may be passed over
in one pass, in a branch that is not active or in the body of a macro, and be expanded in a later
one.  The second assembly finds the expansion there in all its passes.  If the statements in the
place of the first one move others along, or if they are not passed over in the same way, the first
passes of the second assembly are other passes, and the output may be another one.
`Passes.KeepsWritten` says that this does not happen.

Random numbers are repeated if they come from a seed.  Without one the second assembly has numbers
of its own, and the output is the same if the first one has drawn none (`Passes.DrawsNothing`).
-/

namespace MacroAssembler

open Relation SourceStore

/-- Whether an event leaves one statement where there was one, at a position of a file. -/
def Event.keepsCount (file : Nat) (pos : Position) : Event → Bool
  | .spliced file' pos' count => file' != file || pos' != pos || count == 1
  | _ => true

theorem Event.keepsCount_spliced {file : Nat} {pos : Position} {count : Nat} :
    (Event.spliced file pos count).keepsCount file pos = true ↔ count = 1 := by
  simp [Event.keepsCount]

theorem Event.keepsCount_of_spliced {file : Nat} {pos : Position} {event : Event}
    (h : ∀ count, event = .spliced file pos count → count = 1) :
    event.keepsCount file pos = true := by
  cases event with
  | spliced file' pos' count =>
    by_cases hfile : file' = file
    · by_cases hpos : pos' = pos
      · subst hfile hpos
        exact Event.keepsCount_spliced.2 (h count rfl)
      · simp [Event.keepsCount, hpos]
    · simp [Event.keepsCount, hfile]
  | _ => rfl

/-- Whether an event is the drawing of a random number. -/
def Event.isDraw : Event → Bool
  | .drawn => true
  | _ => false

/-! ## Pass by pass -/

namespace Outlook

/-- What lies ahead of a pass, seen from the pass that follows it. -/
def before (o : Outlook) {stage : Stage} {settings : Settings} (last : State)
    (earlier : Nat → Position → Prop) (hearlier : o.earlier = PassedOver earlier last.asWritten)
    (hsteps : ReflTransGen (Change stage True)
      (State.initial settings last.store last.diagnostics) o.last)
    (hplaces : KeepsPlaces (PassedOver earlier last.asWritten) last.history)
    (halike : ∀ t ∈ last.asWritten, ∃ s, o.final.statementAt t.file t.pos = some s ∧
      t.bypass.Alike t.text s.text) : Outlook where
  last := last
  final := o.final
  earlier := earlier
  errorCount_eq := by
    have hle := errorCount_le_of_steps hsteps
    rw [o.errorCount_eq] at hle
    exact Nat.le_zero.1 hle
  keepsPlaces := hplaces
  grows := by
    have hgrows := growsInto hsteps
    exact hgrows
  keeps file pos hsettled := by
    have hstart : o.Settled (.atStart last.store) file pos :=
      hsettled.mono fun _ _ hpassed => .inl (hearlier ▸ hpassed)
    have hkeeps := keepsTo hsteps hstart
    exact hkeeps
  alike := halike

/-- Where a pass ends beside another one, the next passes start beside each other. -/
theorem Beside.next {o o' : Outlook} {v w : Surroundings} (hw : o.Beside v w)
    (hfinal : o'.final = o.final) (hearlier : o'.earlier = PassedOver o.earlier v.asWritten) :
    o'.Beside (.atStart v.store) (.atStart w.store) where
  file_eq := rfl
  loops_eq := rfl
  sameText := hfinal ▸ hw.sameText
  row_eq := hw.row_eq
  rows := hw.rows.mono fun _ _ hpassed => .inl (hearlier ▸ hpassed)
  file _ h := by cases h
  loops _ h := absurd h List.not_mem_nil

end Outlook

namespace Assembler

variable {a a' : Assembler} {path : Text} {output : Output}

/-- An assembler with other random numbers, where they do not come from a seed. -/
def withEntropy (a : Assembler) (entropy : PassKind → Generator) : Assembler :=
  { a with random := { a.random with entropy := entropy } }

namespace Passes

section

variable (p : Passes a path)

/-- What was passed over in an assembly. -/
def asWritten : List Taking :=
  p.done.asWritten ++ (p.final.asWritten ++ p.draft.asWritten)

/-- What was noted in an assembly. -/
def history : List Event :=
  p.done.history ++ (p.final.history ++ p.draft.history)

/-- What was passed over as it was written is kept so.  It may be expanded later, but one statement
takes its place, which is passed over alike. -/
structure KeepsWritten : Prop where
  single : ∀ t ∈ p.asWritten, ∀ count, .spliced t.file t.pos count ∈ p.history → count = 1
  alike : ∀ t ∈ p.asWritten, ∃ s, p.done.store.statementAt t.file t.pos = some s ∧
    t.bypass.Alike t.text s.text

/-- Whether what was passed over is kept as it was written. -/
def keepsWritten : Bool :=
  p.asWritten.all fun t =>
    p.history.all (·.keepsCount t.file t.pos) &&
      (p.done.store.statementAt t.file t.pos).any fun s => t.bypass.Alike t.text s.text

theorem keepsWritten_iff : p.keepsWritten = true ↔ p.KeepsWritten := by
  rw [keepsWritten, List.all_eq_true]
  constructor
  · intro hall
    refine ⟨fun t ht count hmem => ?_, fun t ht => ?_⟩
    · have hcounts := (Bool.and_eq_true_iff.1 (hall t ht)).1
      exact Event.keepsCount_spliced.1 (List.all_eq_true.1 hcounts _ hmem)
    · have hstatement := (Bool.and_eq_true_iff.1 (hall t ht)).2
      obtain ⟨s, hs, halike⟩ := (Option.any_eq_true _ _).1 hstatement
      exact ⟨s, hs, of_decide_eq_true halike⟩
  · intro hkeeps t ht
    refine Bool.and_eq_true_iff.2 ⟨List.all_eq_true.2 fun event hmem => ?_, ?_⟩
    · refine Event.keepsCount_of_spliced fun count heq => hkeeps.single t ht count ?_
      rw [← heq]
      exact hmem
    · obtain ⟨s, hs, halike⟩ := hkeeps.alike t ht
      exact (Option.any_eq_true _ _).2 ⟨s, hs, decide_eq_true halike⟩

instance : Decidable p.KeepsWritten :=
  decidable_of_iff _ p.keepsWritten_iff

/-- No random number was drawn. -/
def DrawsNothing : Prop :=
  ∀ event ∈ p.history, event.isDraw = false

instance : Decidable p.DrawsNothing :=
  inferInstanceAs (Decidable (∀ event ∈ p.history, event.isDraw = false))

/-- The positions that statements were passed over at in the draft pass. -/
def passedInDraft : Nat → Position → Prop :=
  PassedOver (fun _ _ => False) p.draft.asWritten

/-- The positions that statements were passed over at in the labels passes. -/
def passedInLabels : Nat → Position → Prop :=
  PassedOver p.passedInDraft p.final.asWritten

end

variable {p : Passes a path}

theorem exists_of_passedOver {file : Nat} {pos : Position}
    (h : PassedOver p.passedInLabels p.done.asWritten file pos) :
    ∃ t ∈ p.asWritten, t.file = file ∧ t.pos = pos := by
  rcases h with ((hfalse | ⟨t, ht, hpos⟩) | ⟨t, ht, hpos⟩) | ⟨t, ht, hpos⟩
  · exact hfalse.elim
  · exact ⟨t, List.mem_append_right _ (List.mem_append_right _ ht), hpos⟩
  · exact ⟨t, List.mem_append_right _ (List.mem_append_left _ ht), hpos⟩
  · exact ⟨t, List.mem_append_left _ ht, hpos⟩

theorem KeepsWritten.keepsPlaces (hkeeps : p.KeepsWritten) {passed : Nat → Position → Prop}
    {history : List Event}
    (hpassed : ∀ file pos, passed file pos → PassedOver p.passedInLabels p.done.asWritten file pos)
    (hhistory : history ⊆ p.history) : KeepsPlaces passed history := by
  intro file pos count hpos hmem
  obtain ⟨t, ht, rfl, rfl⟩ := exists_of_passedOver (hpassed file pos hpos)
  exact hkeeps.single t ht count (hhistory hmem)

section

variable (h : p.Yields output) (hkeeps : p.KeepsWritten)

/-- What lies ahead of the assembling pass. -/
def assemblingOutlook : Outlook where
  last := p.done
  final := p.done.store
  earlier := p.passedInLabels
  errorCount_eq := h.errorCount_done
  keepsPlaces := hkeeps.keepsPlaces (fun _ _ => id) (List.subset_append_left _ _)
  grows := .refl _
  keeps _ _ _ := .refl _ _ _
  alike t ht := hkeeps.alike t (List.mem_append_left _ ht)

/-- What lies ahead of the final labels pass. -/
def finalOutlook : Outlook :=
  (assemblingOutlook h hkeeps).before p.final p.passedInDraft rfl p.done_steps
    (hkeeps.keepsPlaces (fun _ _ => .inl) fun _ he =>
      List.mem_append_right _ (List.mem_append_left _ he))
    fun t ht => hkeeps.alike t (List.mem_append_right _ (List.mem_append_left _ ht))

/-- What lies ahead of the draft pass. -/
def draftOutlook : Outlook :=
  (finalOutlook h hkeeps).before p.draft (fun _ _ => False) rfl p.final_steps
    (hkeeps.keepsPlaces (fun _ _ hpos => .inl (.inl hpos)) fun _ he =>
      List.mem_append_right _ (List.mem_append_right _ he))
    fun t ht => hkeeps.alike t (List.mem_append_right _ (List.mem_append_right _ ht))

end

/-! ## The second assembly -/

/-- The second assembly has the random numbers of the first one, if any are drawn. -/
def SameDraws (p : Passes a path) (entropy : PassKind → Generator) : Prop :=
  Event.drawn ∈ p.history → ∀ kind, (a.withEntropy entropy).generator kind = a.generator kind

/-- There is a seed, or nothing is drawn. -/
theorem sameDraws_of (h : a.settings.seed.isSome ∨ p.DrawsNothing)
    (entropy : PassKind → Generator) : p.SameDraws entropy := by
  intro hdrawn kind
  rcases h with hseed | hnothing
  · obtain ⟨seed, hseed⟩ := Option.isSome_iff_exists.1 hseed
    have hseed' : (a.withEntropy entropy).settings.seed = some seed := hseed
    rw [generator, generator, hseed, hseed']
    rfl
  · cases hnothing _ hdrawn

/-- A pass is done again over sources that stand beside those of the first assembly. -/
theorem settleSource_again (o : Outlook) {kind : PassKind} {previous : Symbols}
    {previousReusable : ReusableLabels} {allocation : Index Nat} {settings : Settings}
    {diagnostics : Diagnostics} {store store' : SourceStore} {main : Nat}
    {entropy : PassKind → Generator} (hdraws : p.SameDraws entropy)
    (hhistory : o.last.history ⊆ p.history)
    (hrun : PassM.settleSource main (a.stage kind previous previousReusable allocation)
      (State.initial settings store diagnostics) = .ok () o.last)
    (hmain : main < store.files.size) (hw : o.Beside (.atStart store) (.atStart store')) :
    ∃ w, PassM.settleSource main
        ((a.withEntropy entropy).stage kind previous previousReusable allocation)
        (State.initial settings store' diagnostics) = .ok () (o.last.within w) ∧
      o.Beside o.last.surroundings w :=
  settleSource_beside (.again o (a.stage kind previous previousReusable allocation)
      fun hdrawn => hdraws (hhistory hdrawn) kind)
    hrun .refl (settledTo_start hmain 0) hw

/-- The sources grow from pass to pass. -/
theorem growsInto_passes (p : Passes a path) : p.loaded.GrowsInto p.draft.store ∧
    p.draft.store.GrowsInto p.final.store ∧ p.final.store.GrowsInto p.done.store := by
  have hdraft := growsInto_of_steps p.draft_steps
  have hfinal := growsInto_of_steps p.final_steps
  have hdone := growsInto_of_steps p.done_steps
  exact ⟨hdraft, hfinal, hdone⟩

theorem main_lt (p : Passes a path) : p.main < p.loaded.files.size :=
  (SourceStore.loaded?_eq_some_iff.1 (SourceStore.loaded?_of_load p.load_eq)).1

/-- The sources that are left still have the main file under its number. -/
theorem load_again (p : Passes a path) :
    SourceStore.load path p.done.store.clearRows = .ok p.main p.done.store.clearRows := by
  obtain ⟨hdraft, hfinal, hdone⟩ := p.growsInto_passes
  have hloaded : p.done.store.loaded? path = some p.main :=
    SourceStore.loaded?_of_growsInto (hdraft.trans (hfinal.trans hdone))
      (SourceStore.loaded?_of_load p.load_eq)
  exact load_of_loaded? (p.done.store.sameText_clearRows.loaded?_eq hloaded)

theorem rowAt_loaded (p : Passes a path) (file : Nat) (pos : Position) :
    p.loaded.rowAt file pos = none := by
  rw [rowAt_load p.load_eq, rowAt_clearRows]

/-- The draft pass of the second assembly starts beside that of the first: there are no rows. -/
theorem beside_start (h : p.Yields output) (hkeeps : p.KeepsWritten) :
    (draftOutlook h hkeeps).Beside (.atStart p.loaded) (.atStart p.done.store.clearRows) where
  file_eq := rfl
  loops_eq := rfl
  sameText := p.done.store.sameText_clearRows
  row_eq file pos := (rowAt_clearRows file pos).trans (p.rowAt_loaded file pos).symm
  rows file pos row hrow := by
    have hnone : p.loaded.rowAt file pos = none := p.rowAt_loaded file pos
    cases hnone.symm.trans hrow
  file _ h := by cases h
  loops _ h := absurd h List.not_mem_nil

/-- **The passes of the second assembly are those of the first**, and they leave the same
sources. -/
theorem exists_again (h : p.Yields output) (hkeeps : p.KeepsWritten)
    {entropy : PassKind → Generator} (hdraws : p.SameDraws entropy) (diagnostics : Diagnostics) :
    ∃ (q : Passes { a.withEntropy entropy with
        store := p.done.store, diagnostics := diagnostics } path) (w : Surroundings),
          PassM.settleSource q.main q.assembling q.start = .ok () (p.done.within w) ∧
        w.store = p.done.store := by
  obtain ⟨hdraft, hfinal, -⟩ := p.growsInto_passes
  have hmain₁ : p.main < p.draft.store.files.size := Nat.lt_of_lt_of_le p.main_lt hdraft.size_le
  have hmain₂ : p.main < p.final.store.files.size := Nat.lt_of_lt_of_le hmain₁ hfinal.size_le
  have hdone : p.done.history ⊆ p.history := List.subset_append_left _ _
  have hlabels : p.final.history ++ p.draft.history ⊆ p.history := List.subset_append_right _ _
  obtain ⟨w₁, hrun₁, hw₁⟩ := settleSource_again (draftOutlook h hkeeps) hdraws
    (fun _ he => hlabels (List.mem_append_right _ he)) p.draft_eq p.main_lt (beside_start h hkeeps)
  obtain ⟨w₂, hrun₂, hw₂⟩ := settleSource_again (finalOutlook h hkeeps) hdraws
    (fun _ he => hlabels (List.mem_append_left _ he)) p.final_eq hmain₁ (hw₁.next rfl rfl)
  obtain ⟨w₃, hrun₃, hw₃⟩ := settleSource_again (assemblingOutlook h hkeeps) hdraws hdone h.done_eq
    hmain₂ (hw₂.next rfl rfl)
  refine ⟨⟨p.main, p.done.store.clearRows, p.draft.within w₁, p.allocation, p.final.within w₂,
    p.load_again, hrun₁, p.errorCount_draft, p.place_eq, hrun₂⟩, w₃, hrun₃, ?_⟩
  exact hw₃.sameText.eq_of_rowAt_eq hw₃.row_eq

end Passes

/-- **Where what was passed over is kept as it was written, an assembly can be repeated.**  It comes
to the same output, with the same diagnostics, and leaves the same sources.  Without a seed, every
assembly has random numbers of its own, so then none may be drawn. -/
theorem assemble_again (p : Passes a path) (h : assemble path a = .ok output a')
    (hkeeps : p.KeepsWritten) (hrandom : a.settings.seed.isSome ∨ p.DrawsNothing)
    (entropy : PassKind → Generator) :
    assemble path (a'.withEntropy entropy) = .ok output (a'.withEntropy entropy) := by
  have hyields := p.yields h
  rw [p.assemble_eq, hyields.done_eq] at h
  dsimp only at h
  obtain ⟨q, w, hrun, hstore⟩ :=
    Passes.exists_again hyields hkeeps (Passes.sameDraws_of hrandom entropy)
      a'.diagnostics
  have hleft : a'.withEntropy entropy =
      { a.withEntropy entropy with store := p.done.store, diagnostics := a'.diagnostics } :=
    congrArg (withEntropy · entropy) (eq_of_conclude h)
  rw [hleft, q.assemble_eq, hrun]
  have hsources : (p.done.within w).store = p.done.store := hstore
  dsimp only
  rw [hsources]
  exact conclude_beside (b := { a.withEntropy entropy with
    store := p.done.store, diagnostics := p.done.diagnostics }) h rfl rfl w

/-- A program with a macro of two statements, and with one in a branch that becomes active in the
second pass only. -/
def deferring : Assembler :=
  ofSource <| " .deflong M\n .db 1\n .db 2\n .enddeflong\n M\n" ++
    " .define N .db 3\n .if A\n N\n .endif\nA = 1\n"

theorem assemble_again_deferring : ∃ output a', ∃ p : Passes deferring "main".toList,
    assemble "main".toList deferring = .ok output a' ∧ p.KeepsWritten ∧ p.DrawsNothing ∧
    (∀ entropy, assemble "main".toList (a'.withEntropy entropy) =
      .ok output (a'.withEntropy entropy)) ∧
    output.emissions.map Emission.value = #[1, 2, 3] := by
  have hrun : (deferring.assemblesBy fun p => p.KeepsWritten ∧ p.DrawsNothing ∧
      p.done.emissions.map Emission.value = #[1, 2, 3]) = true := by
    decide +kernel
  obtain ⟨output, a', h, p, hyields, htest⟩ := exists_of_assemblesBy hrun
  obtain ⟨hkeeps, hdraws, hvalues⟩ := of_decide_eq_true htest
  rw [← hyields.emissions_eq] at hvalues
  exact ⟨output, a', p, h, hkeeps, hdraws, assemble_again p h hkeeps (.inr hdraws), hvalues⟩

/-- Whether the program of an assembler is assembled twice without an error, to outputs that pass a
test. -/
def assemblesTwiceTo (a : Assembler) (test : Output → Output → Bool) : Bool :=
  match assemble "main".toList a with
  | .ok output a' => a'.assemblesTo (test output)
  | .error _ _ => false

theorem exists_of_assemblesTwiceTo {test : Output → Output → Bool}
    (h : a.assemblesTwiceTo test = true) : ∃ output a' output' a'',
      assemble "main".toList a = .ok output a' ∧ assemble "main".toList a' = .ok output' a'' ∧
        test output output' = true := by
  unfold assemblesTwiceTo at h
  split at h
  next output a' hfirst =>
    obtain ⟨output', a'', hsecond, htest⟩ := exists_of_assemblesTo h
    exact ⟨output, a', output', a'', hfirst, hsecond, htest⟩
  next => cases h

/-- A program with a macro that closes a branch and opens another one.  It is used in a branch that
becomes active in the second pass only.  In the second assembly the statements of the macro stand
there in the first pass already, so a label between the two branches gets its value one pass
earlier. -/
def shifting : Assembler :=
  ofSource <| " .db C\nC = B\n .deflong M\n .db 1\n .endif\nB = 5\n .if 1\n .enddeflong\n" ++
    " .if A\n M\n .endif\nA = 1\n"

/-- **What was passed over has to be kept as it was written**: not every assembly can be
repeated. -/
theorem assemble_again_shifting : ∃ output a' output' a'',
    assemble "main".toList shifting = .ok output a' ∧
    assemble "main".toList a' = .ok output' a'' ∧
    output.emissions.map Emission.value = #[0, 1] ∧
    output'.emissions.map Emission.value = #[5, 1] := by
  have hrun : (shifting.assemblesTwiceTo fun output output' =>
      output.emissions.map Emission.value = #[0, 1] ∧
        output'.emissions.map Emission.value = #[5, 1]) = true := by
    decide +kernel
  obtain ⟨output, a', output', a'', hfirst, hsecond, htest⟩ := exists_of_assemblesTwiceTo hrun
  obtain ⟨hvalues, hvalues'⟩ := of_decide_eq_true htest
  exact ⟨output, a', output', a'', hfirst, hsecond, hvalues, hvalues'⟩

end Assembler

end MacroAssembler
