import MacroAssembler.Proofs.Placement

/-!
# Variables do not overlap

Variables are placed once, after the draft pass, with the sizes that they have there.  The later
passes look the addresses up by qualified names and work the sizes out again.  A count that depends
on a label further down is zero or too small in the draft pass, and then the variable has not been
given the space that it has in the output.

So variables do not overlap as long as the draft pass has reserved enough for them.  The address of
a variable in the output is the one that it was given, because no two labels share a qualified name
and a qualified name never changes.
-/

namespace MacroAssembler

variable {st st' : State} {stage : Stage}

/-! ## The addresses of variables in the assembling pass -/

/-- Where the label of a permanent variable comes from in one step of the assembling pass: it was
there before the step with all that was said of it, or it has just been given the address of the
variable. -/
theorem TreeStep.permanent_origin (hkind : stage.kind = .assemble) {scope : Scope} {t t' : Symbols}
    (h : TreeStep stage False scope t t') {id : LabelId} {label : Label}
    (hlabel : t'.label? id = some label) (hflags : label.info.flags = .permanent) :
    (∃ old, t.label? id = some old ∧ label.name = old.name ∧ label.home = old.home ∧
      label.info = old.info) ∨
    ∃ address, stage.allocation.lookup (t'.qualifiedName label) = some address ∧
      label.value = Float.ofNat address := by
  have hold : t.label? id = some label → ∃ old, t.label? id = some old ∧ label.name = old.name ∧
      label.home = old.home ∧ label.info = old.info :=
    fun h => ⟨label, h, rfl, rfl, rfl⟩
  cases h with
  | defined hne h =>
    rw [← stateAfter_of_ok h] at hlabel
    rcases Symbols.label?_define hlabel with hlabel | ⟨-, heq⟩
    · exact .inl (hold hlabel)
    · exact absurd (heq.symm.trans hflags) hne
  | refused h =>
    rw [← stateAfter_of_error h] at hlabel
    rcases Symbols.label?_define hlabel with hlabel | ⟨⟨t'', hok⟩, -⟩
    · exact .inl (hold hlabel)
    · rw [h] at hok
      cases hok
  | @placed t' name info id' address h haddress =>
    rw [Symbols.setValue, Symbols.label?_modifyLabel] at hlabel
    split at hlabel
    next hid =>
      obtain ⟨defined, hdefined, rfl⟩ := Option.map_eq_some_iff.1 hlabel
      refine .inr ⟨address, ?_, rfl⟩
      rw [Symbols.qualifiedAt, hid, hdefined] at haddress
      rw [Symbols.setValue, Symbols.qualifiedName_modifyLabel]
      exact haddress
    next hid =>
      rw [← stateAfter_of_ok h] at hlabel
      rcases Symbols.label?_define hlabel with hlabel | ⟨⟨t'', hok⟩, -⟩
      · exact .inl (hold hlabel)
      · rw [h] at hok
        cases hok
        exact absurd rfl hid
  | unsettled h hne => exact absurd hkind hne
  | unplaced h hfailing => exact hfailing.elim
  | field hne =>
    rcases Symbols.label?_defineMember hlabel with hlabel | heq
    · exact .inl (hold hlabel)
    · exact absurd (heq.symm.trans hflags) hne
  | annotated hname hhome hinfo =>
    rw [Symbols.label?_modifyLabel] at hlabel
    split at hlabel
    · obtain ⟨old, hbefore, rfl⟩ := Option.map_eq_some_iff.1 hlabel
      exact .inl ⟨old, hbefore, hname old, hhome old, hinfo old⟩
    · exact .inl (hold hlabel)
  | imported => exact .inl (hold hlabel)

/-- Every permanent variable of a state has been placed, and has the address of its place. -/
structure VariablesPlaced (allocation : Index Nat) (st : State) : Prop where
  rooted : st.Rooted
  value_eq : ∀ {id label}, st.symbols.label? id = some label → label.info.flags = .permanent →
    ∃ address, allocation.lookup (st.symbols.qualifiedName label) = some address ∧
      label.value = Float.ofNat address

/-- Variables keep their addresses where the labels stay the same and the tree grows. -/
theorem VariablesPlaced.of_labels {allocation : Index Nat} (hst : VariablesPlaced allocation st)
    (hrooted : st'.Rooted) (hgrows : st.symbols.Grows st'.symbols)
    (hlabels : st'.symbols.labels = st.symbols.labels) : VariablesPlaced allocation st' := by
  refine ⟨hrooted, fun {id label} hlabel hflags => ?_⟩
  rw [Symbols.label?, hlabels] at hlabel
  rw [hgrows.qualifiedName_eq (hst.rooted.wellFormed.home_lt hlabel)]
  exact hst.value_eq hlabel hflags

theorem Act.variablesPlaced (hkind : stage.kind = .assemble) (h : Act stage False st st')
    (hst : VariablesPlaced stage.allocation st) : VariablesPlaced stage.allocation st' := by
  obtain ⟨hrooted, hgrows⟩ := h.rooted hst.rooted
  cases h with
  | control h =>
    have hsymbols : st'.symbols = st.symbols := congrArg Tracked.symbols h
    exact hst.of_labels hrooted hgrows (by rw [hsymbols])
  | tree h | declared _ h =>
    refine ⟨hrooted, fun {id label} hlabel hflags => ?_⟩
    rcases h.permanent_origin hkind hlabel hflags with ⟨old, hold, hname, hhome, hinfo⟩ | hplaced
    · rw [Symbols.qualifiedName_congr hname hhome,
        hgrows.qualifiedName_eq (hst.rooted.wellFormed.home_lt hold), Label.value, hinfo]
      exact hst.value_eq hold (hinfo ▸ hflags)
    · exact hplaced
  | enter hparent hname =>
    exact hst.of_labels hrooted hgrows (Symbols.labels_enterModule _ _)
  | _ => exact hst.of_labels hrooted hgrows rfl

theorem Change.variablesPlaced (hkind : stage.kind = .assemble) (h : Change stage False st st')
    (hst : VariablesPlaced stage.allocation st) : VariablesPlaced stage.allocation st' := by
  cases h with
  | act h => exact h.variablesPlaced hkind hst
  | _ =>
    obtain ⟨⟨hwellFormed, hhome, hstack⟩, hvalue⟩ := hst
    exact ⟨⟨hwellFormed, hhome, hstack⟩, hvalue⟩

namespace Assembler

variable {a a' : Assembler} {path : Text}

/-- **Every permanent variable in the output of a successful assembly was placed.** -/
theorem Passes.Yields.variablesPlaced {p : Passes a path} {output : Output} (h : p.Yields output) :
    VariablesPlaced p.allocation p.done := by
  have hkind : p.assembling.kind = .assemble := rfl
  have hstep : ∀ st st', Change p.assembling False st st' → VariablesPlaced p.allocation st →
      VariablesPlaced p.allocation st' :=
    fun _ _ h => h.variablesPlaced hkind
  refine h.keeps hstep ⟨State.rooted_initial _ _ _, ?_⟩
  intro id label hlabel
  simp [Passes.start, State.initial, Symbols.label?, Symbols.empty] at hlabel

/-- **Variables for which enough was reserved do not overlap.**  In a successful assembly whose
areas do not overlap and end below the limit of 32 bits, take two labels of permanent variables in
the output.  If the draft pass has reserved at least the sizes that they have in the output, then
each lies inside of one area, and so below the limit, and no address belongs to both. -/
theorem variables_disjoint_of_reserved {output : Output} (p : Passes a path)
    (h : assemble path a = .ok output a')
    (hareas : p.draft.varAreas.Pairwise fun a b => Disjoint a.extent b.extent)
    (hfits : ∀ area ∈ p.draft.varAreas, area.FitsWord)
    {i j : LabelId} {v w : Label} (hij : i ≠ j)
    (hv : output.symbols.label? i = some v) (hw : output.symbols.label? j = some w)
    (hvflags : v.info.flags = .permanent) (hwflags : w.info.flags = .permanent)
    (hvsize : Reserved p.draft.varDecls (output.symbols.qualifiedName v) v.info.size)
    (hwsize : Reserved p.draft.varDecls (output.symbols.qualifiedName w) w.info.size) :
    ∃ m n, v.value = Float.ofNat m ∧ w.value = Float.ofNat n ∧
      m + v.info.size ≤ 2 ^ 32 ∧ n + w.info.size ≤ 2 ^ 32 ∧
      Disjoint (Set.Ico m (m + v.info.size)) (Set.Ico n (n + w.info.size)) ∧
      (∃ area ∈ p.draft.varAreas, area.start ≤ m ∧
        m + v.info.size ≤ area.start + area.size) ∧
      ∃ area ∈ p.draft.varAreas, area.start ≤ n ∧ n + w.info.size ≤ area.start + area.size := by
  have hyields := p.yields h
  have hvariables := hyields.variablesPlaced
  rw [hyields.symbols_eq] at hv hw hvsize hwsize
  obtain ⟨m, hm, hvvalue⟩ := hvariables.value_eq hv hvflags
  obtain ⟨n, hn, hwvalue⟩ := hvariables.value_eq hw hwflags
  have hsettled := settled_of_settleSource p.draft_eq hareas p.place_eq
  obtain ⟨x, hx, hxname, hxgets⟩ := hsettled.gets hm
  obtain ⟨y, hy, hyname, hygets⟩ := hsettled.gets hn
  have hxsize := hvsize.size_le x hx hxname
  have hysize := hwsize.size_le y hy hyname
  have hne : x ≠ y := by
    rintro rfl
    exact hij (hvariables.rooted.wellFormed.qualifiedName_injective hv hw
      (hxname.symm.trans hyname))
  -- both are permanent, so they are placed together
  have hgroup : x.group = y.group := by
    simp [VarDecl.group, hvsize.isPermanent x hx hxname, hwsize.isPermanent y hy hyname]
  have hdisjoint := hsettled.disjoint hx hy hne (hgroup ▸ .refl) hxgets hygets
  obtain ⟨xarea, hxarea, hxlow, hxhigh⟩ := hsettled.inside hx hxgets
  obtain ⟨yarea, hyarea, hylow, hyhigh⟩ := hsettled.inside hy hygets
  have hxfits : xarea.start + xarea.size ≤ 2 ^ 32 := hfits xarea hxarea
  have hyfits : yarea.start + yarea.size ≤ 2 ^ 32 := hfits yarea hyarea
  refine ⟨m, n, hvvalue, hwvalue, by omega, by omega, ?_, ⟨xarea, hxarea, hxlow, by omega⟩,
    ⟨yarea, hyarea, hylow, by omega⟩⟩
  exact hdisjoint.mono (Set.Ico_subset_Ico_right (by omega)) (Set.Ico_subset_Ico_right (by omega))

/-- A program with two variables in two areas. -/
def twoAreas : Assembler :=
  ofSource " .varloc $8000, 4\n .varloc $9000, 8\n .var byte[4], a\n .var byte, b\n"

/-- Whether the first two labels of an assembly are permanent variables for which the draft pass has
reserved enough, in areas that do not overlap. -/
def Passes.firstTwoReserved (p : Passes a path) : Bool :=
  (p.done.symbols.label? 0).any fun v => (p.done.symbols.label? 1).any fun w =>
    decide ((p.draft.varAreas.Pairwise fun a b => Disjoint a.extent b.extent) ∧
      (∀ area ∈ p.draft.varAreas, area.FitsWord) ∧
      v.info.flags = .permanent ∧ w.info.flags = .permanent ∧
      Reserved p.draft.varDecls (p.done.symbols.qualifiedName v) v.info.size ∧
      Reserved p.draft.varDecls (p.done.symbols.qualifiedName w) w.info.size)

theorem variables_disjoint_of_reserved_twoAreas : ∃ output a',
    assemble "main".toList twoAreas = .ok output a' ∧
    ∃ (p : Passes twoAreas "main".toList) (v w : Label), output.symbols.label? 0 = some v ∧
      output.symbols.label? 1 = some w ∧
      ∃ m n, v.value = Float.ofNat m ∧ w.value = Float.ofNat n ∧
        m + v.info.size ≤ 2 ^ 32 ∧ n + w.info.size ≤ 2 ^ 32 ∧
        Disjoint (Set.Ico m (m + v.info.size)) (Set.Ico n (n + w.info.size)) ∧
        (∃ area ∈ p.draft.varAreas, area.start ≤ m ∧
          m + v.info.size ≤ area.start + area.size) ∧
        ∃ area ∈ p.draft.varAreas, area.start ≤ n ∧ n + w.info.size ≤ area.start + area.size := by
  have hrun : twoAreas.assemblesBy Passes.firstTwoReserved = true := by decide +kernel
  obtain ⟨output, a', h, p, hyields, hp⟩ := exists_of_assemblesBy hrun
  obtain ⟨v, hv, hp⟩ := (Option.any_eq_true _ _).1 hp
  obtain ⟨w, hw, hp⟩ := (Option.any_eq_true _ _).1 hp
  obtain ⟨hareas, hfits, hvflags, hwflags, hvsize, hwsize⟩ := of_decide_eq_true hp
  rw [← hyields.symbols_eq] at hv hw hvsize hwsize
  exact ⟨output, a', h, p, v, w, hv, hw, variables_disjoint_of_reserved p h hareas hfits
    Nat.zero_ne_one hv hw hvflags hwflags hvsize hwsize⟩

/-- A program with a variable whose size depends on a constant further down. -/
def lateCount : Assembler :=
  ofSource " .varloc $8000, 16\n .var byte[N + 1], a\n .var byte, b\nN = 4\n"

/-- Whether the first two labels of an assembly are permanent variables at addresses such that the
second one lies within the first, in areas that never overlap. -/
def Passes.secondWithinFirst (m n : Nat) (p : Passes a path) : Bool :=
  (p.done.symbols.label? 0).any fun v => (p.done.symbols.label? 1).any fun w =>
    decide ((p.draft.varAreas.Pairwise fun a b => Disjoint a.extent b.extent) ∧
      (p.done.varAreas.Pairwise fun a b => Disjoint a.extent b.extent) ∧
      (∀ area ∈ p.draft.varAreas, area.FitsWord) ∧
      v.info.flags = .permanent ∧ w.info.flags = .permanent ∧
      v.value = Float.ofNat m ∧ w.value = Float.ofNat n ∧
      m ≤ n ∧ n < m + v.info.size ∧ 0 < w.info.size)

/-- With a size that is only known to the later passes, two variables overlap in the output of a
successful assembly. -/
theorem variables_overlap_lateCount : ∃ output a',
    assemble "main".toList lateCount = .ok output a' ∧
    ∃ (p : Passes lateCount "main".toList) (v w : Label), p.Yields output ∧
      (p.draft.varAreas.Pairwise fun a b => Disjoint a.extent b.extent) ∧
      (p.done.varAreas.Pairwise fun a b => Disjoint a.extent b.extent) ∧
      (∀ area ∈ p.draft.varAreas, area.FitsWord) ∧
      output.symbols.label? 0 = some v ∧ output.symbols.label? 1 = some w ∧
      v.info.flags = .permanent ∧ w.info.flags = .permanent ∧
      v.value = Float.ofNat 0x8000 ∧ w.value = Float.ofNat 0x8001 ∧
      ¬Disjoint (Set.Ico 0x8000 (0x8000 + v.info.size))
        (Set.Ico 0x8001 (0x8001 + w.info.size)) := by
  have hrun : lateCount.assemblesBy (Passes.secondWithinFirst 0x8000 0x8001) = true := by
    decide +kernel
  obtain ⟨output, a', h, p, hyields, hp⟩ := exists_of_assemblesBy hrun
  obtain ⟨v, hv, hp⟩ := (Option.any_eq_true _ _).1 hp
  obtain ⟨w, hw, hp⟩ := (Option.any_eq_true _ _).1 hp
  obtain ⟨hdraft, hdone, hfits, hvflags, hwflags, hvvalue, hwvalue, hle, hlt, hpos⟩ :=
    of_decide_eq_true hp
  rw [← hyields.symbols_eq] at hv hw
  refine ⟨output, a', h, p, v, w, hyields, hdraft, hdone, hfits, hv, hw, hvflags, hwflags, hvvalue,
    hwvalue, Set.not_disjoint_iff.2 ⟨0x8001, Set.mem_Ico.2 ⟨hle, hlt⟩, Set.mem_Ico.2 ⟨?_, ?_⟩⟩⟩
  · exact Nat.le_refl _
  · exact Nat.lt_add_of_pos_right hpos

end Assembler

end MacroAssembler
