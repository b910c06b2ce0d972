import MacroAssembler.Proofs.Deferral
import MacroAssembler.Proofs.Registration

/-!
# Which names stay resolvable

Operations on a tree add modules, labels and imports, and take nothing away.  So one would expect
that a name, once it denotes something in a scope, denotes something there for good.

For nearly all names that is so.  A name with a path is looked for from the same modules as before,
along children that are still there.  A name without one is found at its home or among the global
labels, as before.  The exception are names that are found through an import.  An import is kept as
a name, and that name is looked up each time.  Now a module that is created later can lie nearer
than the one which the import has denoted so far, and then the import denotes the new module and no
longer shows the labels of the old one.

Nothing else can happen: whatever an import denoted before, it denotes after an operation the same
module or one that this very operation has created (`Built.findModule?_operation`).
-/

namespace MacroAssembler

open Relation

namespace Symbols

variable {t t' : Symbols}
variable {m : ModuleId} {name : Text}

/-! ## What the look-up goes through -/

theorem Extends.ancestors_eq (h : t.Extends t') (hm : m < t.modules.size) :
    t'.ancestors m = t.ancestors m := by
  induction m using Nat.strongRecOn with
  | _ m ih =>
    rw [ancestors, ancestors, h.parent_eq m hm]
    cases (t.moduleAt m).parent with
    | none => rfl
    | some parent =>
      dsimp only
      split
      next hlt => rw [ih parent hlt (Nat.lt_trans hlt hm)]
      · rfl

theorem Extends.searchChain_eq (h : t.Extends t') (hm : m < t.modules.size) :
    t'.searchChain m = t.searchChain m := by
  rw [searchChain, searchChain, h.ancestors_eq hm]

theorem Extends.walk?_eq (h : t.Extends t') {base : ModuleId} {path : List Text}
    (hwalk : t.walk? base path = some m) : t'.walk? base path = some m := by
  induction path generalizing base with
  | nil => exact hwalk
  | cons name path ih =>
    obtain ⟨c, hchild, hrest⟩ := Option.bind_eq_some_iff.1 hwalk
    exact Option.bind_eq_some_iff.2 ⟨c, h.child_eq hchild, ih hrest⟩

/-- A path that leads to an old module has always led there. -/
theorem Extends.walk?_of_lt (h : t.Extends t') (ht : t.Coherent) {base : ModuleId}
    (hm : m < t.modules.size) {path : List Text} (hwalk : t'.walk? base path = some m) :
    t.walk? base path = some m := by
  induction path using List.reverseRecOn generalizing m with
  | nil => exact hwalk
  | append_singleton path last ih =>
    rw [walk?_append] at hwalk ⊢
    obtain ⟨parent, hfront, hchild⟩ := Option.bind_eq_some_iff.1 hwalk
    -- an old module has an old parent, which has always filed it
    obtain ⟨-, hparent, hkey⟩ := h.coherent.child (mem_of_lookup hchild)
    rw [h.parent_eq m hm] at hparent
    rw [h.name_eq m hm, key_eq_of_extends h] at hkey
    obtain ⟨hlt, hfiled⟩ := ht.parent_cases hm hparent
    rw [ih (Nat.lt_trans hlt hm) hfront, Option.bind_some, child?, ← hkey]
    exact hfiled

/-- The first thing found is found again, or something new is found in front of it. -/
theorem findSome?_eq_or_new {α β : Type} {list : List α} {f g : α → Option β} {new : β → Prop}
    (hkeep : ∀ a ∈ list, ∀ b, f a = some b → g a = some b)
    (hnew : ∀ a ∈ list, ∀ b, g a = some b → f a = some b ∨ new b) {b : β}
    (h : list.findSome? f = some b) :
    list.findSome? g = some b ∨ ∃ b', list.findSome? g = some b' ∧ new b' := by
  induction list with
  | nil => cases h
  | cons a rest ih =>
    rw [List.findSome?_cons] at h ⊢
    cases hg : g a with
    | some b' =>
      rcases hnew a List.mem_cons_self b' hg with hf | hb'
      · rw [hf] at h
        exact .inl h
      · exact .inr ⟨b', rfl, hb'⟩
    | none =>
      cases hf : f a with
      | some b' =>
        rw [hkeep a List.mem_cons_self b' hf] at hg
        cases hg
      | none =>
        rw [hf] at h
        exact ih (fun x hx => hkeep x (List.mem_cons_of_mem _ hx))
          (fun x hx => hnew x (List.mem_cons_of_mem _ hx)) h

/-- A step only adds to the imports of a module. -/
theorem Step.imports_subset {N : Text → Prop} (h : Step N t t') (m : ModuleId) :
    (t.moduleAt m).imports ⊆ (t'.moduleAt m).imports := by
  cases h with
  | addedModule hm _ hfree =>
    rw [moduleAt_addModule hm]
    split
    next hnew =>
      have hdefault : t.moduleAt m = default := by simp [hnew, moduleAt]
      rw [hdefault]
      exact List.nil_subset _
    · split
      next heq =>
        rw [heq]
        exact List.Subset.refl _
      · exact List.Subset.refl _
  | @addedLabel m' leaf hm hleaf hfree info =>
    obtain ⟨labels, heq⟩ := moduleAt_addLabel (t := t) m' leaf info m
    rw [heq]
    exact List.Subset.refl _
  | annotated => exact List.Subset.refl _
  | imported m' name =>
    rw [addImport, moduleAt_modifyModule]
    split
    · split
      · exact List.Subset.refl _
      · exact List.subset_append_left _ _
    · exact List.Subset.refl _

theorem Coherent.imports_subset (ht : t.Coherent) (hop : Operation t t') (m : ModuleId) :
    (t.moduleAt m).imports ⊆ (t'.moduleAt m).imports :=
  ht.keeps_steps (P := fun u => (t.moduleAt m).imports ⊆ (u.moduleAt m).imports)
    (fun _ hstep hbefore => List.Subset.trans hbefore (hstep.imports_subset m))
    (List.Subset.refl _) (ht.steps_of_operation hop)

/-- What a name of a module denotes, it denotes after an operation as well, unless the operation has
created a module that lies nearer. -/
theorem Built.findModule?_operation (h : t.Built) (hop : Operation t t') {current : ModuleId}
    (hcurrent : current < t.modules.size) {path : Text}
    (hfind : t.findModule? current path = some m) :
    t'.findModule? current path = some m ∨
      ∃ m', t'.findModule? current path = some m' ∧ t.modules.size ≤ m' := by
  have hextends := h.coherent.extends_operation hop
  rw [findModule?, hextends.searchChain_eq hcurrent]
  refine findSome?_eq_or_new (fun _ _ _ hwalk => hextends.walk?_eq hwalk) ?_ hfind
  intro base _ m' hwalk
  rcases Nat.lt_or_ge m' t.modules.size with hlt | hnew
  · exact .inl (hextends.walk?_of_lt h.coherent hlt hwalk)
  · exact .inr hnew

/-! ## Names with and without a path -/

theorem Extends.isSome_labelIn? (h : t.Extends t') {leaf : Text}
    (hin : (t.labelIn? m leaf).isSome) : (t'.labelIn? m leaf).isSome := by
  obtain ⟨id, hid⟩ := Option.isSome_iff_exists.1 hin
  rw [h.labelIn_eq hid]
  rfl

/-- A path denotes something for good. -/
theorem Extends.isSome_resolve_dotted (h : t.Extends t') (hname : '.' ∈ name) {scope : Scope}
    (hhome : scope.home < t.modules.size) (hresolve : (t.resolve name scope).isSome) :
    (t'.resolve name scope).isSome := by
  have hmodules := LabelPath.modules_ne_nil_of_dotted hname
  rw [resolve] at hresolve ⊢
  generalize LabelPath.ofName name = path at hmodules hresolve ⊢
  obtain ⟨start, modules, leaf⟩ := path
  cases start with
  | some start =>
    dsimp only at hresolve ⊢
    obtain ⟨id, hid⟩ := Option.isSome_iff_exists.1 hresolve
    obtain ⟨m, hwalk, hin⟩ := Option.bind_eq_some_iff.1 hid
    rw [h.walk?_eq hwalk, Option.bind_some, h.labelIn_eq hin]
    rfl
  | none =>
    cases modules with
    | nil => exact absurd rfl (hmodules rfl)
    | cons first more =>
      dsimp only at hresolve ⊢
      obtain ⟨m, hm, hin⟩ := List.findSome?_isSome_iff.1 hresolve
      obtain ⟨base, hbase, hwalk⟩ := List.mem_filterMap.1 hm
      refine List.findSome?_isSome_iff.2 ⟨m, List.mem_filterMap.2 ⟨base, ?_, h.walk?_eq hwalk⟩,
        h.isSome_labelIn? hin⟩
      rw [h.searchChain_eq hhome]
      exact hbase

/-- Where a local name without a path is looked for. -/
theorem isSome_localLabel?_iff {home : ModuleId} :
    (t.localLabel? home name).isSome ↔ (t.labelIn? home name).isSome ∨
      (∃ clause ∈ (t.moduleAt home).imports, ∃ m, t.findModule? home clause = some m ∧
        (t.labelIn? m name).isSome) ∨ (t.labelIn? global name).isSome := by
  have himports : ((t.importedModules home).findSome? (t.labelIn? · name)).isSome ↔
      ∃ clause ∈ (t.moduleAt home).imports, ∃ m, t.findModule? home clause = some m ∧
        (t.labelIn? m name).isSome := by
    rw [List.findSome?_isSome_iff, importedModules]
    constructor
    · rintro ⟨m, hm, hin⟩
      obtain ⟨clause, hclause, hfind⟩ := List.mem_filterMap.1 hm
      exact ⟨clause, hclause, m, hfind, hin⟩
    · rintro ⟨clause, hclause, m, hfind, hin⟩
      exact ⟨m, List.mem_filterMap.2 ⟨clause, hclause, hfind⟩, hin⟩
  rw [localLabel?, ← himports]
  simp

/-! ## How a name can be lost -/

/-- A local name without a path was found through imports alone, and each import that led to it
denotes a new module now. -/
structure Captured (t t' : Symbols) (name : Text) (scope : Scope) : Prop where
  undotted : '.' ∉ name
  isLocal : scope.isLocal name = true
  home_eq_none : t.labelIn? scope.home name = none
  global_eq_none : t.labelIn? global name = none
  import_new : ∀ clause ∈ (t.moduleAt scope.home).imports, ∀ m,
    t.findModule? scope.home clause = some m → (t.labelIn? m name).isSome →
      ∃ m', t'.findModule? scope.home clause = some m' ∧ t.modules.size ≤ m'

theorem Built.localLabel?_or_captured (h : t.Built) (hop : Operation t t') (hname : '.' ∉ name)
    {scope : Scope} (hlocal : scope.isLocal name = true) (hhome : scope.home < t.modules.size) :
    (t'.localLabel? scope.home name).isSome ∨ t.Captured t' name scope := by
  have hextends := h.coherent.extends_operation hop
  by_cases hfound : (t'.localLabel? scope.home name).isSome
  · exact .inl hfound
  · rw [isSome_localLabel?_iff, not_or, not_or] at hfound
    obtain ⟨hnohome, hnoimport, hnoglobal⟩ := hfound
    refine .inr ⟨hname, hlocal, ?_, ?_, fun clause hclause m hfind hin => ?_⟩
    · exact Option.not_isSome_iff_eq_none.1 fun hin => hnohome (hextends.isSome_labelIn? hin)
    · exact Option.not_isSome_iff_eq_none.1 fun hin => hnoglobal (hextends.isSome_labelIn? hin)
    · refine (h.findModule?_operation hop hhome hfind).resolve_left fun hsame => hnoimport ?_
      exact ⟨clause, h.coherent.imports_subset hop _ hclause, m, hsame,
        hextends.isSome_labelIn? hin⟩

/-- **Names stay resolvable, unless an import is captured.**  Whatever a name denotes in a scope, it
denotes something there after any further operation, with one exception: a local name without a
path, which is filed neither in the current module nor in the global one, can be lost when the
operation creates a module that the imports which led to the name denote from then on. -/
theorem resolve_or_captured (h : t.Built) (hop : Operation t t') {name : Text} {scope : Scope}
    (hhome : scope.home < t.modules.size) (hresolve : (t.resolve name scope).isSome) :
    (t'.resolve name scope).isSome ∨ t.Captured t' name scope := by
  have hextends := h.coherent.extends_operation hop
  by_cases hname : '.' ∈ name
  · exact .inl (hextends.isSome_resolve_dotted hname hhome hresolve)
  · rw [resolve_undotted _ hname] at hresolve ⊢
    by_cases hlocal : scope.isLocal name = true
    · rw [if_pos hlocal]
      exact h.localLabel?_or_captured hop hname hlocal hhome
    · rw [if_neg hlocal] at hresolve ⊢
      exact .inl (hextends.isSome_labelIn? hresolve)

/-- A module that imports another one by its name, for the sake of a label in it. -/
def importing : Symbols :=
  (stateAfter (define "_port".toList ⟨3, ['_'], false⟩ { value := 7 } false) twoModules).addImport 4
    "util".toList

theorem built_importing : importing.Built := by
  obtain ⟨caseSensitive, hsteps⟩ := built_twoModules
  exact ⟨caseSensitive, (hsteps.tail (.defined (by decide +kernel) _ _ _)).tail
    (.imported (by decide +kernel) _)⟩

/-- A module of another name in the importing one leaves the import alone. -/
theorem resolve_or_captured_otherModule :
    (importing.resolve "_port".toList ⟨4, ['_'], false⟩).isSome ∧
    ((importing.enterModule 4 "screen".toList).2.resolve "_port".toList
      ⟨4, ['_'], false⟩).isSome := by
  have hbefore : (importing.resolve "_port".toList ⟨4, ['_'], false⟩).isSome := by decide +kernel
  refine ⟨hbefore, (resolve_or_captured built_importing (.entered (by decide +kernel) _)
    (by decide +kernel) hbefore).resolve_right fun hcaptured => ?_⟩
  obtain ⟨m', hfind, hnew⟩ := hcaptured.import_new "util".toList (by decide +kernel) 3
    (by decide +kernel) (by decide +kernel)
  have hsame :
      (importing.enterModule 4 "screen".toList).2.findModule? 4 "util".toList = some 3 := by
    decide +kernel
  rw [hsame] at hfind
  cases hfind
  exact absurd hnew (by decide +kernel)

/-- A module of the imported name in the importing one captures the import, and the label is
lost. -/
theorem resolve_lost_namesake : importing.Built ∧
    Operation importing (importing.enterModule 4 "util".toList).2 ∧ 4 < importing.modules.size ∧
    importing.resolve "_port".toList ⟨4, ['_'], false⟩ = some 0 ∧
    (importing.enterModule 4 "util".toList).2.resolve "_port".toList ⟨4, ['_'], false⟩ = none :=
  ⟨built_importing, .entered (by decide +kernel) _, by decide +kernel, by decide +kernel,
    by decide +kernel⟩

end Symbols

end MacroAssembler
