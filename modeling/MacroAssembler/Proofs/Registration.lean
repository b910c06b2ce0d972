import Mathlib.Data.List.Chain
import MacroAssembler.Proofs.Correspondence

/-!
# Every module and label is registered once

A tree keeps the same facts several times over.  A module knows its parent and its name, and its
parent files it under the key of that name; a label knows its home and its name, and its home files
it under the key of that one.  Modules come into being in many ways: by being entered, on the way to
a definition with a path, and below a label that has members.  This file shows that the facts never
get out of step.

## What there is to check

All operations are made of four steps (`Step`): a module is added where its key is free, a label is
added where its key is free, a label is annotated, a module imports a name.  So an invariant has to
be checked for four steps and not for every operation (`Built.keeps`).

A coherent tree files what a module or a label knows of itself, and whatever is filed is filed where
it says that it belongs (`Coherent`).  This tells for each module and each key what is found there,
and the way up from every module ends at a root.
-/

namespace MacroAssembler

open Relation

namespace Symbols

/-! ## The steps of all operations -/

namespace Coherent

variable {t t' : Symbols} (ht : t.Coherent)
include ht

theorem keeps_steps {N : Text → Prop} {P : Symbols → Prop}
    (hstep : ∀ {t t'}, t.Coherent → Step N t t' → P t → P t') (hbefore : P t)
    (h : ReflTransGen (Step N) t t') : P t' := by
  induction h with
  | refl => exact hbefore
  | tail hfront hlast ih => exact hstep (ht.extends_steps hfront).coherent hlast ih

end Coherent

/-- What holds at the start and is kept by every step holds of every tree that is built. -/
theorem Built.keeps {P : Symbols → Prop} (hempty : ∀ caseSensitive, P (empty caseSensitive))
    (hstep : ∀ {t t'}, t.Coherent → Step (fun _ => True) t t' → P t → P t') {t : Symbols}
    (h : t.Built) : P t := by
  obtain ⟨caseSensitive, hoperations⟩ := h
  suffices hboth : t.Coherent ∧ P t from hboth.2
  induction hoperations with
  | refl => exact ⟨coherent_empty caseSensitive, hempty caseSensitive⟩
  | tail _ hlast ih =>
    obtain ⟨hcoherent, hbefore⟩ := ih
    have hsteps := hcoherent.steps_of_operation hlast
    exact ⟨(hcoherent.extends_steps hsteps).coherent, hcoherent.keeps_steps hstep hbefore hsteps⟩

theorem key_eq_of_extends {t t' : Symbols} (h : t.Extends t') : t'.key = t.key :=
  key_congr h.caseSensitive_eq

theorem Built.leaf_dotless {t : Symbols} (h : t.Built) {id : LabelId} {label : Label}
    (hlabel : t.label? id = some label) : '.' ∉ label.name := by
  refine h.keeps (P := fun t => ∀ id label, t.label? id = some label → '.' ∉ label.name) ?_ ?_
    id label hlabel
  · exact fun caseSensitive _ _ => (wellFormed_empty caseSensitive).leaf_dotless
  · exact fun _ hstep hbefore _ _ => hstep.leaf_dotless (hbefore _ _)

/-! ## The way up -/

/-- The way up from a module to a root: the modules below the root, and the root.  Both walks up the
tree go this way. -/
structure Ascent (t : Symbols) (m : ModuleId) (way : List ModuleId) (top : ModuleId) : Prop where
  /-- The way starts at the module, and each module on it is followed by its parent. -/
  starts : (way ++ [top]).head? = some m
  linked : (way ++ [top]).IsChain fun c parent => (t.moduleAt c).parent = some parent
  top_mem : top ∈ roots
  /-- A module is looked for along the way, and then from the other roots. -/
  searchChain_eq : t.searchChain m = way ++ top :: roots.filter (· ≠ top)
  /-- The path of the module has the names on the way, from the root down. -/
  modulePath_eq : t.modulePath m = (top, (way.map fun c => (t.moduleAt c).name).reverse)

theorem ancestors_of_none {t : Symbols} {m : ModuleId} (h : (t.moduleAt m).parent = none) :
    t.ancestors m = [] := by
  rw [ancestors, h]

theorem ancestors_of_some {t : Symbols} {m parent : ModuleId}
    (h : (t.moduleAt m).parent = some parent) (hlt : parent < m) :
    t.ancestors m = parent :: t.ancestors parent := by
  rw [ancestors, h]
  exact if_pos hlt

namespace Coherent

variable {t : Symbols} (ht : t.Coherent)
include ht

theorem parent_eq_none_iff {m : ModuleId} (hm : m < t.modules.size) :
    (t.moduleAt m).parent = none ↔ m < 3 := by
  refine ⟨fun hnone => ?_, ht.parent_root m⟩
  by_contra hdeclared
  obtain ⟨parent, -, hparent, -⟩ := ht.parent_declared m (Nat.le_of_not_lt hdeclared) hm
  rw [hnone] at hparent
  cases hparent

theorem parent_cases {m parent : ModuleId} (hm : m < t.modules.size)
    (hparent : (t.moduleAt m).parent = some parent) :
    parent < m ∧ t.child? parent (t.moduleAt m).name = some m := by
  have hdeclared : 3 ≤ m := by
    by_contra hroot
    rw [ht.parent_root m (Nat.lt_of_not_le hroot)] at hparent
    cases hparent
  obtain ⟨parent', hlt, hparent', hfiled⟩ := ht.parent_declared m hdeclared hm
  rw [hparent'] at hparent
  cases hparent
  exact ⟨hlt, hfiled⟩

/-- The way up is what the modules around a module are. -/
theorem exists_way {m : ModuleId} (hm : m < t.modules.size) : ∃ way top,
    m :: t.ancestors m = way ++ [top] ∧ (∀ c ∈ way, 3 ≤ c) ∧ top < 3 ∧
    (way ++ [top]).IsChain (fun c parent => (t.moduleAt c).parent = some parent) ∧
    t.modulePath m = (top, (way.map fun c => (t.moduleAt c).name).reverse) := by
  induction m using Nat.strongRecOn with
  | _ m ih =>
    cases hparent : (t.moduleAt m).parent with
    | none =>
      have hroot := (ht.parent_eq_none_iff hm).1 hparent
      refine ⟨[], m, ?_, List.forall_mem_nil _, hroot, .singleton m, ?_⟩
      · rw [ancestors_of_none hparent, List.nil_append]
      · exact modulePath_of_none hparent
    | some parent =>
      obtain ⟨hlt, -⟩ := ht.parent_cases hm hparent
      obtain ⟨way, top, hway, hdeclared, htop, hchain, hpath⟩ := ih parent hlt (Nat.lt_trans hlt hm)
      refine ⟨m :: way, top, ?_, ?_, htop, ?_, ?_⟩
      · rw [ancestors_of_some hparent hlt, hway, List.cons_append]
      · intro c hc
        rcases List.mem_cons.1 hc with rfl | hc
        · by_contra hroot
          rw [ht.parent_root _ (Nat.lt_of_not_le hroot)] at hparent
          cases hparent
        · exact hdeclared c hc
      · rw [List.cons_append, ← hway]
        rw [← hway] at hchain
        exact hchain.cons_cons hparent
      · rw [modulePath_of_some hparent hlt, hpath, List.map_cons, List.reverse_cons]

theorem exists_ascent {m : ModuleId} (hm : m < t.modules.size) : ∃ way top, t.Ascent m way top := by
  obtain ⟨way, top, hway, hdeclared, htop, hchain, hpath⟩ := ht.exists_way hm
  refine ⟨way, top, ⟨?_, hchain, mem_roots_iff.2 htop, ?_, hpath⟩⟩
  · rw [← hway, List.head?_cons]
  · -- no root but the last one is on the way
    have hfilter : roots.filter (!(way ++ [top]).contains ·) = roots.filter (· ≠ top) := by
      refine List.filter_congr fun r hr => ?_
      have hnot : r ∉ way := fun hmem =>
        absurd (mem_roots_iff.1 hr) (Nat.not_lt.2 (hdeclared r hmem))
      simp [hnot]
    rw [searchChain, hway, hfilter, List.append_assoc, List.singleton_append]

end Coherent

/-! ## The invariant -/

/-- The facts that a tree keeps several times over agree. -/
structure Consistent (t : Symbols) : Prop where
  /-- The roots are there, and they are the modules without a parent. -/
  roots_lt : ∀ r ∈ roots, r < t.modules.size
  parent_eq_none_iff : ∀ m < t.modules.size, ((t.moduleAt m).parent = none ↔ m ∈ roots)
  /-- A parent is older than its children. -/
  parent_lt : ∀ m < t.modules.size, ∀ parent, (t.moduleAt m).parent = some parent → parent < m
  /-- A module is filed by its parent, under the key of its name, and nowhere else. -/
  lookup_children_iff : ∀ m < t.modules.size, ∀ parent key,
    (t.moduleAt parent).children.lookup key = some m ↔
      (t.moduleAt m).parent = some parent ∧ key = t.key (t.moduleAt m).name
  /-- It has one place in the order of its parent's children, and none in that of another. -/
  count_childrenOf : ∀ m < t.modules.size, ∀ parent,
    (t.childrenOf parent).count m = if (t.moduleAt m).parent = some parent then 1 else 0
  /-- A label is filed in its home, under the key of its name, and nowhere else. -/
  lookup_labels_iff : ∀ id label, t.label? id = some label → ∀ m key,
    (t.moduleAt m).labels.lookup key = some id ↔ m = label.home ∧ key = t.key label.name
  /-- The walks up from a module end at a root. -/
  ascent : ∀ m < t.modules.size, ∃ way top, t.Ascent m way top

namespace Coherent

variable {t : Symbols} (ht : t.Coherent)
include ht

theorem lookup_children_iff {m parent : ModuleId} (hm : m < t.modules.size) {key : Text} :
    (t.moduleAt parent).children.lookup key = some m ↔
      (t.moduleAt m).parent = some parent ∧ key = t.key (t.moduleAt m).name := by
  constructor
  · intro hlookup
    obtain ⟨-, hparent, hkey⟩ := ht.child (mem_of_lookup hlookup)
    exact ⟨hparent, hkey.symm⟩
  · rintro ⟨hparent, rfl⟩
    exact (ht.parent_cases hm hparent).2

theorem count_childrenOf {m parent : ModuleId} (hm : m < t.modules.size) :
    (t.childrenOf parent).count m = if (t.moduleAt m).parent = some parent then 1 else 0 := by
  have hmem : m ∈ t.childrenOf parent ↔ (t.moduleAt m).parent = some parent := by
    refine ⟨fun hmem => (ht.child_parent hmem).2, fun hparent => ?_⟩
    have hlookup := (ht.lookup_children_iff hm).2 ⟨hparent, rfl⟩
    exact ht.mem_childrenOf hlookup
  rw [(ht.child_nodup parent).count]
  exact if_congr hmem rfl rfl

theorem lookup_labels_iff {id : LabelId} {label : Label} (hlabel : t.label? id = some label)
    {m : ModuleId} {key : Text} :
    (t.moduleAt m).labels.lookup key = some id ↔ m = label.home ∧ key = t.key label.name := by
  constructor
  · intro hlookup
    obtain ⟨label', hlabel', rfl, hkey⟩ := ht.label (mem_of_lookup hlookup)
    rw [hlabel] at hlabel'
    cases hlabel'
    exact ⟨rfl, hkey.symm⟩
  · rintro ⟨rfl, rfl⟩
    exact ht.filed hlabel

end Coherent

/-- **The symbol tree is consistent.**  In every tree that is built by operations, in any order and
whether they succeed or fail, the three roots are the modules without a parent, parents are older
than their children, every other module is filed once, by its parent and under the key of its name,
every label is filed once, in its home and under the key of its name, and the walks up from any
module end at a root. -/
theorem consistent_of_built {t : Symbols} (h : t.Built) : t.Consistent := by
  have hcoherent := h.coherent
  constructor
  case roots_lt => exact fun r hr => Nat.lt_of_lt_of_le (mem_roots_iff.1 hr) hcoherent.three_le
  case parent_eq_none_iff =>
    exact fun m hm => (hcoherent.parent_eq_none_iff hm).trans mem_roots_iff.symm
  case parent_lt => exact fun m hm parent hparent => (hcoherent.parent_cases hm hparent).1
  case lookup_children_iff => exact fun m hm _ _ => hcoherent.lookup_children_iff hm
  case count_childrenOf => exact fun m hm _ => hcoherent.count_childrenOf hm
  case lookup_labels_iff =>
    exact fun _ _ hlabel _ _ => hcoherent.lookup_labels_iff hlabel
  case ascent => exact fun m hm => hcoherent.exists_ascent hm

/-- The module `io`, and in it a label with a path. -/
def pathTree : Symbols :=
  stateAfter (define "port.data".toList ⟨3, ['_'], false⟩ { value := 7 } false) oneModule

/-- The same label again, spelled differently, which fails, and then a member of it. -/
def memberTree : Symbols :=
  stateAfter (defineMember 0 "low.bit".toList { value := 1 })
    (stateAfter (define "PORT.Data".toList ⟨3, ['_'], false⟩ { value := 8 } false) pathTree)

theorem built_memberTree : memberTree.Built := by
  obtain ⟨caseSensitive, hsteps⟩ := built_oneModule
  exact ⟨caseSensitive, ((hsteps.tail (.defined (by decide) _ _ _)).tail
    (.defined (by decide +kernel) _ _ _)).tail (.memberDefined _ _ _)⟩

/-- Four modules deep, after a definition that failed. -/
theorem consistent_of_built_memberTree : memberTree.Consistent ∧
    memberTree.searchChain 6 = [6, 5, 4, 3, 0, 1, 2] ∧
    memberTree.modulePath 6 = (0, ["io", "port", "data", "low"].map String.toList) :=
  ⟨consistent_of_built built_memberTree, by decide +kernel, by decide +kernel⟩

end Symbols

end MacroAssembler
