import MacroAssembler.Proofs.Registration

/-!
# Definitions that fail

A definition works in two steps.  It first finds the module that the label goes to and creates the
modules that are missing on the way, and only then does it look whether the label is there already.
So a definition that is refused might leave modules behind that nobody has asked for.

It does not.  A module that is created on the way is younger than all others, and so is the target
then (`Coherent.walkCreating_eq_of_lt`).  A target that holds a label is an old module, and nothing
has been created on the way to it.  The other way to fail is the check of the name, which comes
first.
-/

namespace MacroAssembler

open Relation

namespace Symbols

variable {t t' : Symbols}

/-- A module that does not exist holds no labels. -/
theorem lt_of_labelIn? {m : ModuleId} {leaf : Text} {id : LabelId}
    (h : t.labelIn? m leaf = some id) : m < t.modules.size := by
  by_contra hge
  have hdefault : t.moduleAt m = default := by
    rw [moduleAt, Array.getD_eq_getD_getElem?, Array.getElem?_eq_none (Nat.not_lt.1 hge)]
    rfl
  rw [labelIn?, hdefault] at h
  cases h

namespace Coherent

variable (ht : t.Coherent)
include ht

theorem lt_of_child? {m c : ModuleId} {name : Text} (h : t.child? m name = some c) : m < c := by
  obtain ⟨hlt, hparent, -⟩ := ht.child (mem_of_lookup h)
  exact (ht.parent_cases hlt hparent).1

/-! ## The way to the target -/

theorem le_walkCreating {base : ModuleId} (hbase : base < t.modules.size) (path : List Text) :
    base ≤ (t.walkCreating base path).1 := by
  induction path generalizing t base with
  | nil => exact Nat.le_refl base
  | cons name path ih =>
    obtain ⟨hextends, hchild⟩ := ht.enterModule hbase name
    have hlt := hextends.coherent.lt_of_child? hchild
    rw [walkCreating_cons]
    exact Nat.le_trans (Nat.le_of_lt hlt) (ih hextends.coherent (hextends.coherent.child_lt hchild))

/-- If an old module is at the end of the way, nothing has been created. -/
theorem walkCreating_eq_of_lt {base : ModuleId} (hbase : base < t.modules.size) {path : List Text}
    (hold : (t.walkCreating base path).1 < t.modules.size) : (t.walkCreating base path).2 = t := by
  induction path generalizing base with
  | nil => rfl
  | cons name path ih =>
    rw [walkCreating_cons] at hold ⊢
    cases hchild : t.child? base name with
    | some c =>
      rw [enterModule_of_some t hchild] at hold ⊢
      exact ih (ht.child_lt hchild) hold
    | none =>
      -- from the new module on the way leads to modules that are at least as young
      rw [enterModule_of_none t hchild] at hold
      have hnew : t.modules.size < (t.addModule base name).modules.size := by
        rw [size_addModule]
        exact Nat.lt_succ_self _
      have hle := (ht.addModule hbase hchild).coherent.le_walkCreating hnew path
      exact absurd hold (Nat.not_lt.2 hle)

theorem labelIn?_walkCreating {base : ModuleId} (hbase : base < t.modules.size) (path : List Text)
    (m : ModuleId) (leaf : Text) :
    (t.walkCreating base path).2.labelIn? m leaf = t.labelIn? m leaf := by
  induction path generalizing t base with
  | nil => rfl
  | cons name path ih =>
    rw [walkCreating_cons]
    cases hchild : t.child? base name with
    | some c =>
      rw [enterModule_of_some t hchild]
      exact ih ht (ht.child_lt hchild)
    | none =>
      have hnew : t.modules.size < (t.addModule base name).modules.size := by
        rw [size_addModule]
        exact Nat.lt_succ_self _
      rw [enterModule_of_none t hchild]
      exact (ih (ht.addModule hbase hchild).coherent hnew).trans
        (labelIn?_addModule hbase name m leaf)

/-- What the way to a target does: it files no label, and creates nothing if it leads to an old
module. -/
theorem targetModule_keeps (path : LabelPath) {scope : Scope}
    (hhome : scope.home < t.modules.size) :
    (∀ m leaf, (t.targetModule path scope).2.labelIn? m leaf = t.labelIn? m leaf) ∧
    ((t.targetModule path scope).1 < t.modules.size → (t.targetModule path scope).2 = t) := by
  rcases ht.targetModule_cases path hhome with ⟨m, _, heq⟩ | ⟨base, hbase, heq⟩
  · rw [heq]
    exact ⟨fun _ _ => rfl, fun _ => rfl⟩
  · rw [heq]
    exact ⟨ht.labelIn?_walkCreating hbase _, ht.walkCreating_eq_of_lt hbase⟩

/-- The labels of a module under a key, read off the labels themselves. -/
theorem labelIn?_eq_some_iff {m : ModuleId} {leaf : Text} {id : LabelId} :
    t.labelIn? m leaf = some id ↔
      ∃ label, t.label? id = some label ∧ label.home = m ∧ t.key label.name = t.key leaf := by
  constructor
  · exact fun hin => ht.label (mem_of_lookup hin)
  · rintro ⟨label, hlabel, rfl, hkey⟩
    have hfiled := ht.filed hlabel
    rwa [labelIn?, hkey] at hfiled

end Coherent

/-! ## What comes of a definition -/

/-- A label that a definition of the name would define again: it has the same home and the same
key. -/
structure Clashes (t : Symbols) (name : Text) (scope : Scope) (label : Label) : Prop where
  exists_id : ∃ id, t.label? id = some label
  home_eq : label.home = (t.targetModule (LabelPath.ofName name) scope).1
  key_eq : t.key label.name = t.key (LabelPath.ofName name).leaf

namespace Built

variable (h : t.Built) {name : Text} {scope : Scope}
include h

theorem labelIn?_of_clashes {label : Label} (hclash : t.Clashes name scope label) : ∃ id,
    t.label? id = some label ∧
    t.labelIn? (t.targetModule (LabelPath.ofName name) scope).1
      (LabelPath.ofName name).leaf = some id := by
  obtain ⟨id, hlabel⟩ := hclash.exists_id
  exact ⟨id, hlabel, h.coherent.labelIn?_eq_some_iff.2
    ⟨label, hlabel, hclash.home_eq, hclash.key_eq⟩⟩

/-- No two labels stand in the way of one definition. -/
theorem eq_of_clashes {label label' : Label} (hclash : t.Clashes name scope label)
    (hclash' : t.Clashes name scope label') : label = label' := by
  obtain ⟨id, hlabel, hin⟩ := h.labelIn?_of_clashes hclash
  obtain ⟨id', hlabel', hin'⟩ := h.labelIn?_of_clashes hclash'
  cases hin.symm.trans hin'
  exact Option.some.inj (hlabel.symm.trans hlabel')

/-- The three outcomes of a definition, told from the tree before it. -/
theorem define_cases (name : Text) (hhome : scope.home < t.modules.size) (info : LabelDef)
    (force : Bool) :
    (isValidName name = false ∧ define name scope info force t = .error (.invalidName name) t) ∨
    (isValidName name = true ∧ force = false ∧ ∃ label, t.Clashes name scope label ∧
      define name scope info force t = .error (.redefined label.name label.info.location) t) ∨
    isValidName name = true ∧ (force = false → ∀ label, ¬ t.Clashes name scope label) ∧
      ∃ id t', define name scope info force t = .ok id t' := by
  rw [define_apply, checkName]
  cases hvalid : isValidName name with
  | false => exact .inl ⟨rfl, rfl⟩
  | true =>
    obtain ⟨hlabels, hkeeps⟩ := h.coherent.targetModule_keeps (LabelPath.ofName name) hhome
    refine .inr ?_
    rw [if_pos rfl]
    dsimp only
    rw [insert_apply, hlabels]
    cases hin :
      t.labelIn? (t.targetModule (LabelPath.ofName name) scope).1 (LabelPath.ofName name).leaf with
    | none =>
      refine .inr ⟨rfl, fun _ label hclash => ?_, _, _, rfl⟩
      obtain ⟨id, -, hin'⟩ := h.labelIn?_of_clashes hclash
      cases hin.symm.trans hin'
    | some id =>
      cases force with
      | true => exact .inr ⟨rfl, fun hforce => absurd hforce (by decide), _, _, rfl⟩
      | false =>
        -- a module that holds a label is an old one, so nothing was created on the way to it
        obtain ⟨label, hlabel, htarget, hkey⟩ := h.coherent.labelIn?_eq_some_iff.1 hin
        refine .inl ⟨rfl, rfl, label, ⟨⟨id, hlabel⟩, htarget, hkey⟩, ?_⟩
        rw [hkeeps (lt_of_labelIn? hin)]
        simp [hlabel]

end Built

/-- **A failing definition leaves the tree untouched.**  A definition fails for an invalid name, or
because the module that it goes to has a label under the same key already and this is not to be
overwritten.  Either way the whole tree is what it was before, and no module has been created on the
way. -/
theorem define_fails_untouched (h : t.Built) {scope : Scope} (hhome : scope.home < t.modules.size)
    (name : Text) (info : LabelDef) (force : Bool) :
    (∀ e t', define name scope info force t = .error e t' → t' = t) ∧
    (∀ text, (∃ t', define name scope info force t = .error (.invalidName text) t') ↔
      isValidName name = false ∧ text = name) ∧
    ∀ text previous, (∃ t', define name scope info force t = .error (.redefined text previous) t') ↔
      isValidName name = true ∧ force = false ∧ ∃ label, t.Clashes name scope label ∧
        text = label.name ∧ previous = label.info.location := by
  rcases h.define_cases name hhome info force with ⟨hvalid, hdefine⟩ | ⟨hvalid, hforce, label,
    hclash, hdefine⟩ |
    ⟨hvalid, hfree, id, after, hdefine⟩
  · simp [hdefine, hvalid, eq_comm]
  · refine ⟨?_, ?_, fun text previous => ⟨?_, ?_⟩⟩
    · simp [hdefine]
    · simp [hdefine, hvalid]
    · rintro ⟨t', heq⟩
      cases hdefine.symm.trans heq
      exact ⟨hvalid, hforce, label, hclash, rfl, rfl⟩
    · rintro ⟨-, -, label', hclash', rfl, rfl⟩
      cases h.eq_of_clashes hclash hclash'
      exact ⟨t, hdefine⟩
  · refine ⟨by simp [hdefine], by simp [hdefine, hvalid], fun text previous => ⟨?_, ?_⟩⟩
    · rintro ⟨t', heq⟩
      cases hdefine.symm.trans heq
    · rintro ⟨-, hforce, label, hclash, -⟩
      exact absurd hclash (hfree hforce label)

/-- A module `io` with a module `gfx` of its own, where a label `Width` is. -/
def screenTree : Symbols :=
  stateAfter (define "this.gfx.Width".toList ⟨3, ['_'], false⟩ { value := 96 } false)
    ((empty false).enterModule root "io".toList).2

theorem built_screenTree : screenTree.Built :=
  ⟨false, (ReflTransGen.single (.entered (by decide) _)).tail (.defined (by decide +kernel) _ _ _)⟩

/-- The label is not defined again under another spelling of its path, and nothing is left
behind. -/
theorem define_fails_untouched_otherSpelling :
    (∃ t', define "IO.GFX.width".toList ⟨noname, ['_'], false⟩ { value := 1 } false screenTree =
      .error (.redefined "Width".toList none) t') ∧
    ∀ e t', define "IO.GFX.width".toList ⟨noname, ['_'], false⟩ { value := 1 } false screenTree =
      .error e t' → t' = screenTree := by
  have hnoname : (⟨noname, ['_'], false⟩ : Scope).home <
      screenTree.modules.size := by decide +kernel
  obtain ⟨huntouched, -, hredefined⟩ :=
    define_fails_untouched built_screenTree hnoname "IO.GFX.width".toList { value := 1 } false
  have hlabel :
      (screenTree.label? 0).map (fun label => (label.name, label.home, label.info.location)) =
      some ("Width".toList, 4, none) := by decide +kernel
  obtain ⟨label, hid, hparts⟩ := Option.map_eq_some_iff.1 hlabel
  obtain ⟨hname, hhome, hlocation⟩ : label.name = "Width".toList ∧ label.home = 4 ∧
      label.info.location = none := by simpa using hparts
  refine ⟨(hredefined _ _).2 ⟨by decide, rfl, label, ⟨⟨0, hid⟩, ?_, ?_⟩, hname.symm,
    hlocation.symm⟩, huntouched⟩
  · rw [hhome]
    decide +kernel
  · rw [hname]
    decide +kernel

end Symbols

end MacroAssembler
