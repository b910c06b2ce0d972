import MacroAssembler.Proofs.SymbolTree

/-!
# A definition is what its name denotes

The look-up of a name and the choice of the module for its definition search the same modules in
the same order, but only the look-up goes on to the next module when a label is missing.  So the
two could disagree about a path: the definition takes the first module that has the whole path,
whatever it holds.

They do not.  The module of the definition is the first one that the look-up comes to, and after
the definition it holds the label.  Nothing is needed of the names of modules here, which may even
hold dots, only that the tree is coherent.
-/

namespace MacroAssembler

namespace Symbols

variable {t : Symbols} {id : LabelId}

/-- The trees that can be built.  Modules are only entered below modules that exist, and names are
only defined in scopes of such modules; a definition that failed may have left new modules
behind. -/
inductive Reachable : Symbols → Prop where
  | empty (caseSensitive : Bool) : Reachable (empty caseSensitive)
  | entered {t : Symbols} {m : ModuleId} (h : Reachable t) (hm : m < t.modules.size)
      (name : Text) : Reachable (t.enterModule m name).2
  | imported {t : Symbols} {m : ModuleId} (h : Reachable t) (hm : m < t.modules.size)
      (name : Text) : Reachable (t.addImport m name)
  | defined {t : Symbols} {scope : Scope} (h : Reachable t) (hhome : scope.home < t.modules.size)
      (name : Text) (info : LabelDef) (force : Bool) :
      Reachable (stateAfter (define name scope info force) t)
  | memberDefined {t : Symbols} (h : Reachable t) (base : LabelId) (path : Text)
      (info : LabelDef) : Reachable (stateAfter (defineMember base path info) t)

/-! ## In one module -/

/-- What a definition in a module leaves behind. -/
structure Holds (t t' : Symbols) (m : ModuleId) (leaf : Text) (info : LabelDef) (id : LabelId) :
    Prop where
  coherent : t'.Coherent
  child_eq : t'.child? = t.child?
  ancestors_eq : t'.ancestors = t.ancestors
  /-- The label is filed in the module. -/
  filed : t'.labelIn? m leaf = some id
  /-- It says what the definition says, but it may keep its location. -/
  label : ∃ label, t'.label? id = some label ∧
    label.info = { info with location := label.info.location }
  others : ∀ id', id' ≠ id → t'.label? id' = t.label? id'
  /-- It is the only new label, if it is new at all. -/
  size_eq : t'.labels.size = if (t.label? id).isSome then t.labels.size else t.labels.size + 1

namespace Holds

variable {t t' : Symbols} {m : ModuleId} {leaf : Text} {info : LabelDef} {id : LabelId}
  (h : t.Holds t' m leaf info id)
include h

theorem walk?_eq : t'.walk? = t.walk? := by
  ext base path : 2
  rw [walk?, walk?, h.child_eq]

theorem searchChain_eq : t'.searchChain = t.searchChain := by
  ext m : 1
  rw [searchChain, searchChain, h.ancestors_eq]

end Holds

/-- The modules around a module are told by the parents. -/
theorem ancestors_congr {t' : Symbols} (h : ∀ m, (t'.moduleAt m).parent = (t.moduleAt m).parent) :
    t'.ancestors = t.ancestors := by
  ext m : 1
  induction m using Nat.strongRecOn with
  | _ m ih =>
    rw [ancestors, ancestors, h m]
    cases (t.moduleAt m).parent with
    | none => rfl
    | some parent =>
      dsimp only
      split
      next hlt => rw [ih parent hlt]
      · rfl

namespace Coherent

variable {t t' : Symbols} (ht : t.Coherent) {m : ModuleId} {leaf : Text} {id : LabelId}
include ht

theorem holds_addLabel (hm : m < t.modules.size) (hnone : t.labelIn? m leaf = none)
    (info : LabelDef) : t.Holds (t.addLabel m leaf info) m leaf info t.labels.size := by
  have hmodule := moduleAt_addLabel (t := t) m leaf info
  constructor
  case coherent => exact (ht.addLabel hm hnone info).coherent
  case child_eq =>
    ext m' name : 2
    obtain ⟨labels, heq⟩ := hmodule m'
    rw [child?, heq]
    rfl
  case ancestors_eq =>
    refine ancestors_congr fun m' => ?_
    obtain ⟨labels, heq⟩ := hmodule m'
    rw [heq]
  case filed => rw [labelIn?_addLabel hm, if_pos ⟨rfl, rfl⟩]
  case label => exact ⟨_, by rw [label?_addLabel, if_pos rfl], rfl⟩
  case others =>
    intro id' hne
    rw [label?_addLabel, if_neg hne]
  case size_eq =>
    have hnew : t.label? t.labels.size = none := Array.getElem?_eq_none (Nat.le_refl _)
    rw [hnew]
    exact Array.size_push _

theorem holds_redefine (hin : t.labelIn? m leaf = some id) (info : LabelDef) :
    t.Holds (t.modifyLabel id (redefine info)) m leaf info id := by
  obtain ⟨old, hold⟩ : ∃ old, t.label? id = some old :=
    ⟨_, Array.getElem?_eq_getElem (ht.label_lt hin)⟩
  constructor
  case coherent =>
    exact (ht.modifyLabel id (f := redefine info) (fun _ => rfl) fun _ => rfl).coherent
  case child_eq => rfl
  case ancestors_eq => exact ancestors_congr fun _ => rfl
  case filed => exact hin
  case label =>
    refine ⟨redefine info old, ?_, rfl⟩
    rw [label?_modifyLabel, if_pos rfl, hold]
    rfl
  case others =>
    intro id' hne
    rw [label?_modifyLabel, if_neg (Ne.symm hne)]
  case size_eq =>
    rw [hold]
    exact Array.size_modify

theorem holds_insert (hm : m < t.modules.size) {info : LabelDef} {force : Bool}
    (h : insert m leaf info force t = .ok id t') : t.Holds t' m leaf info id := by
  rw [insert_apply] at h
  cases hin : t.labelIn? m leaf with
  | none =>
    rw [hin] at h
    cases h
    exact ht.holds_addLabel hm hin info
  | some old =>
    rw [hin] at h
    cases force with
    | false => cases h
    | true =>
      cases h
      exact ht.holds_redefine hin info

end Coherent

/-- Every tree that can be built is coherent. -/
theorem Reachable.coherent (h : t.Reachable) : t.Coherent := by
  induction h with
  | empty caseSensitive => exact coherent_empty caseSensitive
  | entered _ hm name ih => exact (ih.enterModule hm name).1.coherent
  | imported _ _ name ih => exact (ih.addImport _ name).coherent
  | defined _ hhome name info force ih =>
    exact (ih.extends_steps (ih.steps_define (fun _ _ => trivial) hhome name info force)).coherent
  | memberDefined _ base path info ih =>
    exact (ih.extends_steps
      (ih.steps_defineMember (fun _ _ => trivial) base (fun _ => trivial) path info)).coherent

/-! ## From a scope -/

/-- The first module that is found settles a look-up, if it has the label. -/
theorem findSome?_of_first {chain : List ModuleId} {walk : ModuleId → Option ModuleId}
    {look : ModuleId → Option LabelId} {m : ModuleId} (hwalk : chain.findSome? walk = some m)
    (hlook : look m = some id) :
    (chain.filterMap walk).findSome? look = some id := by
  rw [← List.head?_filterMap] at hwalk
  obtain ⟨rest, hlist⟩ := List.head?_eq_some_iff.1 hwalk
  rw [hlist, List.findSome?_cons, hlook]

/-- The look-up of a name comes to the module of its definition first. -/
theorem Coherent.resolve_of_holds {t' : Symbols} (ht : t.Coherent) {name : Text} {scope : Scope}
    (hhome : scope.home < t.modules.size) {info : LabelDef}
    (h : (t.targetModule (LabelPath.ofName name) scope).2.Holds t'
      (t.targetModule (LabelPath.ofName name) scope).1 (LabelPath.ofName name).leaf info id) :
    t'.resolve name scope = some id := by
  rw [resolve]
  rw [Symbols.targetModule] at h
  generalize LabelPath.ofName name = path at h ⊢
  obtain ⟨start, modules, leaf⟩ := path
  cases start with
  | some start =>
    dsimp only at h ⊢
    obtain ⟨-, hwalk⟩ := ht.walkCreating (ht.base_lt hhome start) modules
    rw [h.walk?_eq, hwalk]
    exact h.filed
  | none =>
    cases modules with
    | nil =>
      dsimp only at h ⊢
      have hfiled := h.filed
      by_cases hlocal : scope.isLocal leaf = true
      · rw [if_pos hlocal] at hfiled ⊢
        rw [hfiled]
        rfl
      · rw [if_neg hlocal] at hfiled ⊢
        exact hfiled
    | cons first more =>
      dsimp only at h ⊢
      cases hfind : (t.searchChain scope.home).findSome? (t.walk? · (first :: more)) with
      | some m =>
        rw [hfind] at h
        refine findSome?_of_first ?_ h.filed
        rw [h.searchChain_eq, h.walk?_eq]
        exact hfind
      | none =>
        rw [hfind] at h
        -- the current module is the first of the chain, and it has the path now
        refine findSome?_of_first ?_ h.filed
        obtain ⟨-, hwalk⟩ := ht.walkCreating hhome (first :: more)
        rw [searchChain, List.cons_append, List.findSome?_cons, h.walk?_eq]
        dsimp only
        rw [hwalk]

/-- **A definition is what its name denotes.**  Right after a name was defined in a scope of a
tree, it denotes the label of the definition there, with all that the definition says, and no
other label has changed. -/
theorem resolve_of_define {t t' : Symbols} (ht : t.Reachable) {name : Text} {scope : Scope}
    (hhome : scope.home < t.modules.size) {info : LabelDef} {force : Bool} {id : LabelId}
    (h : define name scope info force t = .ok id t') :
    t'.resolve name scope = some id ∧
      (∃ label, t'.label? id = some label ∧ label.value = info.value ∧
        label.info = { info with location := label.info.location }) ∧
      (∀ id', id' ≠ id → t'.label? id' = t.label? id') ∧
      t'.labels.size = if (t.label? id).isSome then t.labels.size else t.labels.size + 1 := by
  rw [define_apply] at h
  cases hname : checkName name with
  | error e =>
    rw [hname] at h
    cases h
  | ok u =>
    rw [hname] at h
    obtain ⟨hextends, hlt⟩ := ht.coherent.targetModule (LabelPath.ofName name) hhome
    have hlabels := labels_targetModule (t := t) (LabelPath.ofName name) scope
    have hholds := hextends.coherent.holds_insert hlt h
    obtain ⟨label, hlabel, hinfo⟩ := hholds.label
    refine ⟨ht.coherent.resolve_of_holds hhome hholds, ⟨label, hlabel, ?_, hinfo⟩, ?_, ?_⟩
    · rw [Label.value, hinfo]
    · intro id' hne
      rw [hholds.others id' hne, label?, hlabels]
      rfl
    · rw [hholds.size_eq, label?, hlabels]
      rfl

/-- Whether a definition succeeds, and what its number is. -/
def definedAs (name : Text) (scope : Scope) (info : LabelDef) (force : Bool) (t : Symbols) :
    Option LabelId :=
  match define name scope info force t with
  | .ok id _ => some id
  | .error _ _ => none

theorem exists_of_definedAs {name : Text} {scope : Scope} {info : LabelDef} {force : Bool}
    (h : definedAs name scope info force t = some id) :
    ∃ t', define name scope info force t = .ok id t' := by
  rw [definedAs] at h
  split at h
  next id' t' heq =>
    cases h
    exact ⟨t', heq⟩
  · cases h

/-- Below a module that was entered, a path that is not there yet. -/
theorem resolve_of_define_path : ∃ t', define "a.b".toList ⟨3, ['_'], false⟩ { value := 7 } false
      ((empty false).enterModule root "m".toList).2 = .ok 0 t' ∧
    t'.resolve "a.b".toList ⟨3, ['_'], false⟩ = some 0 ∧ t'.labels.size = 1 := by
  have ht : ((empty false).enterModule root "m".toList).2.Reachable :=
    .entered (.empty false) (by decide) _
  obtain ⟨t', hok⟩ := exists_of_definedAs (show definedAs "a.b".toList ⟨3, ['_'], false⟩
    { value := 7 } false ((empty false).enterModule root "m".toList).2 = some 0 by decide +kernel)
  obtain ⟨hresolve, -, -, hsize⟩ := resolve_of_define ht (by decide) hok
  exact ⟨t', hok, hresolve, hsize⟩

end Symbols

end MacroAssembler
