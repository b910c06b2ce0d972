import MacroAssembler.Proofs.Recall
import MacroAssembler.Proofs.SymbolTree

/-!
# Labels stay at their addresses

When the assembling pass comes to a label it looks the name up in the tree of the final labels pass,
as seen from the module there that has the path of the current one, and compares the addresses.
That tree was built in another run.  Its modules have other numbers, they may be spelled
differently, and it may hold other modules and labels.

Still the look-up finds the right label, if there is one: the label at the place where the new one
is being defined.  In a well-formed tree the keys on the way to a label lead to its home, and no
other label is filed there under the same key.  And a difference is an error, which no later
statement takes back.  So no label of a successful assembly has moved.
-/

namespace MacroAssembler

variable {name : Text} {st : State} {stage : Stage}

/-! ## Names without a path -/

theorem LabelPath.ofName_of_undotted (h : '.' ∉ name) :
    ofName name = ⟨none, [], name⟩ := by
  rw [ofName, Text.splitOn_eq, List.splitOn_eq_singleton h]
  rfl

namespace Symbols

variable {name : Text} {m : ModuleId}

/-- Where a definition of a name in a scope goes: the root above the module, and the keys on the way
down from there. -/
def definitionPath (t : Symbols) (name : Text) (scope : Scope) : ModuleId × List Text :=
  let path := LabelPath.ofName name
  let (m, t) := t.targetModule path scope
  let (top, names) := t.modulePath m
  (top, (names ++ [path.leaf]).map t.key)

/-- The home of a name without a path. -/
def undottedHome (name : Text) (scope : Scope) : ModuleId :=
  if scope.isLocal name then scope.home else global

variable {t t' : Symbols}

theorem definitionPath_of_undotted (h : '.' ∉ name) (scope : Scope) :
    t.definitionPath name scope = ((t.modulePath (undottedHome name scope)).1,
      ((t.modulePath (undottedHome name scope)).2 ++ [name]).map t.key) := by
  rw [definitionPath, LabelPath.ofName_of_undotted h]
  rfl

theorem key_congr (h : t'.caseSensitive = t.caseSensitive) : t'.key = t.key := by
  funext text
  rw [key, key, h]

/-- What a name is filed under does not depend on how it is spelled. -/
theorem labelIn?_congr {name' : Text} (h : t.key name = t.key name') :
    t.labelIn? m name = t.labelIn? m name' := by
  rw [labelIn?, labelIn?, h]

/-! ## The way to a module -/

theorem walk?_append (base : ModuleId) (path : List Text) (last : Text) :
    t.walk? base (path ++ [last]) = (t.walk? base path).bind (t.child? · last) := by
  simp [walk?, List.foldlM_append]

/-- The keys of its path lead to a module. -/
theorem WellFormed.walk?_modulePath (ht : t.WellFormed) (hm : m < t.modules.size)
    {names : List Text} (hnames : names.map t.key = (t.modulePath m).2.map t.key) :
    t.walk? (t.modulePath m).1 names = some m := by
  induction m using Nat.strongRecOn generalizing names with
  | _ m ih =>
    rcases Nat.lt_or_ge m 3 with hroot | hdeclared
    · rw [modulePath_of_none (ht.parent_root m hroot)] at hnames ⊢
      rw [List.map_eq_nil_iff.1 hnames]
      rfl
    · obtain ⟨parent, hlt, hparent, hfiled⟩ := ht.parent_declared m hdeclared hm
      rw [modulePath_of_some hparent hlt] at hnames ⊢
      rw [List.map_append] at hnames
      obtain ⟨front, back, rfl, hfront, hback⟩ := List.map_eq_append_iff.1 hnames
      obtain ⟨last, rfl, hlast⟩ := List.map_eq_singleton_iff.1 hback
      rw [walk?_append, ih parent hlt (Nat.lt_trans hlt hm) hfront, Option.bind_some, child?, hlast]
      exact hfiled

theorem follow_of_walk? {base : ModuleId} {names : List Text} (h : t.walk? base names = some m) :
    equivalentModule.follow t base names = m := by
  induction names generalizing base with
  | nil => exact Option.some.inj h
  | cons name names ih =>
    obtain ⟨child, hchild, hrest⟩ := Option.bind_eq_some_iff.1 h
    rw [equivalentModule.follow, hchild]
    exact ih hrest

/-- A label is found under a name in the module that corresponds to one of another tree, if that is
where the same keys lead. -/
theorem WellFormed.labelIn?_equivalentModule (ht : t.WellFormed)
    (hcase : t'.caseSensitive = t.caseSensitive) {id : LabelId} {label : Label}
    (hlabel : t.label? id = some label) (hpath : t.keyPath label =
      ((t'.modulePath m).1, ((t'.modulePath m).2 ++ [name]).map t'.key)) :
    t.labelIn? (t.equivalentModule t' m) name = some id := by
  rw [keyPath, key_congr hcase] at hpath
  dsimp only at hpath
  rw [List.map_append, List.map_append] at hpath
  obtain ⟨htop, hnames⟩ := Prod.mk.inj hpath
  obtain ⟨hfront, hleaf⟩ := List.append_inj' hnames rfl
  have hhome : t.equivalentModule t' m = label.home := by
    rw [equivalentModule]
    refine follow_of_walk? ?_
    rw [← htop]
    exact ht.walk?_modulePath (ht.home_lt hlabel) hfront.symm
  rw [hhome, ← labelIn?_congr (List.singleton_inj.1 hleaf)]
  exact ht.filed hlabel

/-- A name without a path is found at its home. -/
theorem resolve_of_undotted (hname : '.' ∉ name) {scope : Scope} {id : LabelId}
    (h : t.labelIn? (undottedHome name scope) name = some id) : t.resolve name scope = some id := by
  rw [undottedHome] at h
  rw [resolve, LabelPath.ofName_of_undotted hname]
  dsimp only
  by_cases hlocal : scope.isLocal name = true
  · rw [if_pos hlocal] at h ⊢
    rw [h]
    rfl
  · rw [if_neg hlocal] at h ⊢
    exact h

/-- The module of all global names corresponds to itself. -/
theorem equivalentModule_global (ht' : t'.WellFormed) :
    t.equivalentModule t' global = global := by
  rw [equivalentModule, modulePath_of_none (ht'.parent_root global (by decide))]
  rfl

end Symbols

/-- The home of a name in the pass before corresponds to its home. -/
theorem State.undottedHome_scopeAt (hst : st.Rooted) (previous : Symbols) (name : Text) :
    Symbols.undottedHome name (st.scopeAt (previous.equivalentModule st.symbols st.home)) =
      previous.equivalentModule st.symbols (Symbols.undottedHome name st.scope) := by
  have hlocal : (st.scopeAt (previous.equivalentModule st.symbols st.home)).isLocal name =
      st.scope.isLocal name := rfl
  rw [Symbols.undottedHome, Symbols.undottedHome, hlocal]
  split
  · rfl
  · exact (Symbols.equivalentModule_global hst.wellFormed).symm

/-- **The look-up of a definition in the pass before finds the label at the same place.** -/
theorem Stage.previousLabel_of_keyPath (hst : st.Rooted) (hprevious : stage.previous.WellFormed)
    (hcase : st.symbols.caseSensitive = stage.previous.caseSensitive) (hname : '.' ∉ name)
    {id : LabelId} {before : Label} (hbefore : stage.previous.label? id = some before)
    (hpath : stage.previous.keyPath before = st.symbols.definitionPath name st.scope) :
    stage.previousLabel st name = some before := by
  have hresolve : stage.previous.resolve name
      (st.scopeAt (stage.previous.equivalentModule st.symbols st.home)) = some id := by
    refine Symbols.resolve_of_undotted hname ?_
    rw [State.undottedHome_scopeAt hst]
    rw [Symbols.definitionPath_of_undotted hname] at hpath
    exact hprevious.labelIn?_equivalentModule hcase hbefore hpath
  rw [previousLabel, previousEntry, hresolve, Option.bind_some, hbefore]
  rfl

/-! ## Through the assembling pass -/

/-- The definition of a label for an address is noted, whether it succeeds or fails. -/
theorem PassM.stateAfter_defineAddressLabel (st : State)
    (hname : ReusableRef.ofDefinition name = none) :
    ∃ t, stateAfter (defineAddressLabel name stage) st = st.noted name t := by
  rw [stateAfter, defineAddressLabel_apply hname]
  cases Symbols.define name st.scope st.addressLabel false st.symbols with
  | error e t => exact ⟨t, rfl⟩
  | ok id t =>
    refine ⟨t, ?_⟩
    dsimp only
    rcases checkPhase_cases stage name (Value.ofInt st.address) (st.noted name t) with
      ⟨-, hcheck⟩ | ⟨fault, hcheck⟩
    · rw [hcheck]
    · rw [hcheck]

/-- An address that a label was defined for is the value of the label at the same place in another
tree, if there is one.  The label has a name without a path. -/
def Symbols.Confirms (t previous : Symbols) (name : Text) (scope : Scope) (address : Float) :
    Prop :=
  '.' ∉ name → ∀ id before, previous.label? id = some before →
    previous.keyPath before = t.definitionPath name scope → (before.value == address) = true

theorem Symbols.Grows.definitionPath_eq {t t' : Symbols} (h : t.Grows t') (ht : t.WellFormed)
    (hname : '.' ∉ name) {scope : Scope} (hhome : scope.home < t.modules.size) :
    t'.definitionPath name scope = t.definitionPath name scope := by
  have hlt : undottedHome name scope < t.modules.size := by
    rw [undottedHome]
    split
    · exact hhome
    · exact Nat.lt_of_lt_of_le (by decide) ht.three_le
  rw [definitionPath_of_undotted hname, definitionPath_of_undotted hname, h.modulePath_eq hlt,
    key_congr h.caseSensitive_eq]

/-- What is known of a definition stays known when the tree grows. -/
theorem Symbols.Confirms.grows {t t' previous : Symbols} {scope : Scope} {address : Float}
    (h : t.Confirms previous name scope address) (ht : t.WellFormed) (hgrows : t.Grows t')
    (hhome : scope.home < t.modules.size) :
    t'.Confirms previous name scope address := by
  intro hname id before hbefore hpath
  rw [hgrows.definitionPath_eq ht hname hhome] at hpath
  exact h hname id before hbefore hpath

/-- All labels that were defined for addresses had equal values in another tree. -/
structure LabelsConfirmed (previous : Symbols) (st : State) : Prop where
  rooted : st.Rooted
  caseSensitive_eq : st.symbols.caseSensitive = previous.caseSensitive
  labels : ∀ {name scope address}, .labelled name scope address ∈ st.history →
    scope.home < st.symbols.modules.size ∧ st.symbols.Confirms previous name scope address

theorem LabelsConfirmed.step (hkind : stage.kind = .assemble)
    (hprevious : stage.previous.WellFormed) {st' : State} (h : Change stage False st st')
    (hst : LabelsConfirmed stage.previous st) : LabelsConfirmed stage.previous st' := by
  obtain ⟨hrooted, hgrows⟩ := h.rooted hst.rooted
  refine ⟨hrooted, hgrows.caseSensitive_eq.trans hst.caseSensitive_eq, ?_⟩
  intro name scope address hmem
  suffices hbefore : scope.home < st.symbols.modules.size ∧
      st.symbols.Confirms stage.previous name scope address from
    ⟨Nat.lt_of_lt_of_le hbefore.1 hgrows.size_le,
      hbefore.2.grows hst.rooted.wellFormed hgrows hbefore.1⟩
  rcases h.history_eq with heq | ⟨event, heq, hevent⟩
  · rw [heq] at hmem
    exact hst.labels hmem
  · rw [heq] at hmem
    rcases List.mem_cons.1 hmem with rfl | hmem
    · obtain ⟨rfl, hchecked⟩ := hevent
      refine ⟨hst.rooted.home_lt, fun hname id before hbefore hpath => ?_⟩
      have hfound := Stage.previousLabel_of_keyPath hst.rooted hprevious hst.caseSensitive_eq hname
        hbefore hpath
      exact hchecked.resolve_left not_false hkind before hfound
    · exact hst.labels hmem

namespace Assembler

variable {a a' : Assembler} {path : Text}

namespace Passes

variable (p : Passes a path)

/-- The final labels pass leaves a well-formed tree, which tells names apart as the settings say. -/
theorem final_rooted : p.final.Rooted ∧
    p.final.symbols.caseSensitive = a.settings.caseSensitive := by
  refine keeps_of_steps (P := fun st => st.Rooted ∧
    st.symbols.caseSensitive = a.settings.caseSensitive) ?_ p.final_steps
    ⟨State.rooted_initial _ _ _, rfl⟩
  rintro st st' h ⟨hst, hcase⟩
  obtain ⟨hrooted, hgrows⟩ := h.rooted hst
  exact ⟨hrooted, hgrows.caseSensitive_eq.trans hcase⟩

theorem Yields.labelsConfirmed {p : Passes a path} {output : Output} (h : p.Yields output) :
    LabelsConfirmed p.final.symbols p.done := by
  obtain ⟨hfinal, hcase⟩ := p.final_rooted
  have hstep : ∀ st st', Change p.assembling False st st' →
      LabelsConfirmed p.final.symbols st → LabelsConfirmed p.final.symbols st' :=
    fun _ _ hchange hst => hst.step rfl hfinal.wellFormed hchange
  refine h.keeps hstep ⟨State.rooted_initial _ _ _, hcase.symm, fun hmem => ?_⟩
  simp [start, State.initial] at hmem

end Passes

/-- **No label moves silently.**  Every definition of a label for an address is noted in the history
of its pass, whether it succeeds or fails.  Take any of these notes in the assembling pass of a
successful assembly, for a name without a path.  If the tree of the final labels pass has a label
where the definition went, with the same keys on the way and the same key of its own, then the value
of that label equals the address. -/
theorem labels_keep_addresses {output : Output} (h : assemble path a = .ok output a') :
    (∀ stage st name, ReusableRef.ofDefinition name = none →
      (stateAfter (PassM.defineAddressLabel name stage) st).history =
        .labelled name st.scope (Value.ofInt st.address) :: st.history) ∧
    ∃ p : Passes a path, p.Yields output ∧
      ∀ name scope address, .labelled name scope address ∈ p.done.history → '.' ∉ name →
        ∀ id before, p.final.symbols.label? id = some before →
          p.final.symbols.keyPath before = output.symbols.definitionPath name scope →
            (before.value == address) = true := by
  obtain ⟨p⟩ := passes_of_assemble h
  have hyields := p.yields h
  refine ⟨fun _ st _ hname => ?_, p, hyields, ?_⟩
  · obtain ⟨t, hafter⟩ := PassM.stateAfter_defineAddressLabel st hname
    rw [hafter]
    rfl
  intro name scope address hmem
  rw [hyields.symbols_eq]
  exact (hyields.labelsConfirmed.labels hmem).2

/-- A program with a label that is local to a module, and one that is used ahead of its place. -/
def localLoop : Assembler :=
  ofSource " .module Main\n_loop: .dw last\n .dw _loop\n .endmodule\nlast: .db 1\n"

/-- Whether the assembling pass has defined a label under a name where the final labels pass had
one. -/
def Passes.redefines (p : Passes a path) (name : Text) : Bool :=
  p.done.history.any fun
    | .labelled name' scope _ => name' == name && p.final.symbols.labels.any fun before =>
        p.final.symbols.keyPath before == p.done.symbols.definitionPath name scope
    | _ => false

theorem labels_keep_addresses_localLoop : ∃ output a',
    assemble "main".toList localLoop = .ok output a' ∧
    ∃ p : Passes localLoop "main".toList, p.Yields output ∧ p.redefines "_loop".toList = true ∧
      ∀ name scope address, .labelled name scope address ∈ p.done.history → '.' ∉ name →
        ∀ id before, p.final.symbols.label? id = some before →
          p.final.symbols.keyPath before = output.symbols.definitionPath name scope →
            (before.value == address) = true := by
  have hrun : localLoop.assemblesBy (Passes.redefines · "_loop".toList) = true := by decide +kernel
  obtain ⟨output, a', h, q, -, hq⟩ := exists_of_assemblesBy hrun
  obtain ⟨-, p, hyields, hlabels⟩ := labels_keep_addresses h
  rw [Subsingleton.elim q p] at hq
  exact ⟨output, a', h, p, hyields, hq, hlabels⟩

end Assembler

end MacroAssembler
