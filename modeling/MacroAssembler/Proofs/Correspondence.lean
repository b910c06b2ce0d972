import MacroAssembler.Proofs.AddressLabels
import MacroAssembler.Proofs.Denotation

/-!
# The same module in another tree

A name that a pass has not reached yet is looked up in the symbol tree of the pass before.  The two
trees number their modules independently of each other, so the current module has to be found again
by the names on the way to it, and the other tree need not have all of them.

Two facts make this work.  The way down a tree is told by names alone, and it never changes: a tree
only ever gains modules (`Operation`, `Extends`).  And a label is never filed anew: what was once
defined under a name in a module is found under that name for good, whatever is imported or defined
later.
-/

namespace MacroAssembler

open Relation

namespace Symbols

/-- What can be done to a tree.  Modules are given by numbers of modules that exist.  A definition
counts whether it succeeds or fails, and what is known of a label may change, but not where it
is. -/
inductive Operation : Symbols → Symbols → Prop where
  | entered {t : Symbols} {m : ModuleId} (hm : m < t.modules.size) (name : Text) :
      Operation t (t.enterModule m name).2
  | imported {t : Symbols} {m : ModuleId} (hm : m < t.modules.size) (name : Text) :
      Operation t (t.addImport m name)
  | defined {t : Symbols} {scope : Scope} (hhome : scope.home < t.modules.size) (name : Text)
      (info : LabelDef) (force : Bool) : Operation t (stateAfter (define name scope info force) t)
  | memberDefined {t : Symbols} (base : LabelId) (path : Text) (info : LabelDef) :
      Operation t (stateAfter (defineMember base path info) t)
  | annotated {t : Symbols} (id : LabelId) {f : Label → Label}
      (hname : ∀ label, (f label).name = label.name)
      (hhome : ∀ label, (f label).home = label.home) : Operation t (t.modifyLabel id f)

/-- The trees that operations lead to. -/
def Built (t : Symbols) : Prop :=
  ∃ caseSensitive, ReflTransGen Operation (empty caseSensitive) t

/-! ## What operations retain -/

namespace Coherent

variable {t t' : Symbols} (ht : t.Coherent)
include ht

/-- Every operation is a sequence of steps, whether it succeeds or fails. -/
theorem steps_of_operation (h : Operation t t') : ReflTransGen (Step fun _ => True) t t' := by
  cases h with
  | entered hm name => exact steps_enterModule hm trivial
  | imported _ name => exact .single (.imported _ name)
  | defined hhome name info force =>
    exact ht.steps_define (fun _ _ => trivial) hhome name info force
  | memberDefined base path info =>
    exact ht.steps_defineMember (fun _ _ => trivial) base (fun _ => trivial) path info
  | annotated id hname hhome => exact .single (.annotated id hname hhome)

/-- No operation loses a module or a label. -/
theorem extends_operation (h : Operation t t') : t.Extends t' :=
  ht.extends_steps (ht.steps_of_operation h)

theorem extends_operations (h : ReflTransGen Operation t t') : t.Extends t' := by
  induction h with
  | refl => exact ht.extends_self
  | tail _ hlast ih => exact ih.trans (ih.coherent.extends_operation hlast)

end Coherent

theorem Built.coherent {t : Symbols} (h : t.Built) : t.Coherent := by
  obtain ⟨caseSensitive, hsteps⟩ := h
  exact ((coherent_empty caseSensitive).extends_operations hsteps).coherent

/-! ## The way to a module -/

/-- The path of a module starts at a root and leads there. -/
theorem Coherent.walk?_path {t : Symbols} (ht : t.Coherent) {m : ModuleId}
    (hm : m < t.modules.size) :
    (t.modulePath m).1 ∈ roots ∧ t.walk? (t.modulePath m).1 (t.modulePath m).2 = some m := by
  induction m using Nat.strongRecOn with
  | _ m ih =>
    rcases Nat.lt_or_ge m 3 with hroot | hdeclared
    · rw [modulePath_of_none (ht.parent_root m hroot)]
      have hcases : m = 0 ∨ m = 1 ∨ m = 2 := by omega
      exact ⟨by simpa [roots, root, global, noname] using hcases, rfl⟩
    · obtain ⟨parent, hlt, hparent, hfiled⟩ := ht.parent_declared m hdeclared hm
      obtain ⟨htop, hwalk⟩ := ih parent hlt (Nat.lt_trans hlt hm)
      rw [modulePath_of_some hparent hlt]
      refine ⟨htop, ?_⟩
      rw [walk?_append, hwalk]
      exact hfiled

/-- A path is followed as far as it leads, and no further. -/
theorem walk?_follow (t : Symbols) :
    ∀ (base : ModuleId) (path : List Text), ∃ k, k ≤ path.length ∧
      t.walk? base (path.take k) = some (equivalentModule.follow t base path) ∧
      ∀ j, k < j → j ≤ path.length → t.walk? base (path.take j) = none
  | base, [] => ⟨0, Nat.le_refl 0, rfl, fun j hj hle => by simp at hle; omega⟩
  | base, name :: path => by
    rw [equivalentModule.follow]
    cases hchild : t.child? base name with
    | none =>
      refine ⟨0, Nat.zero_le _, rfl, fun j hj _ => ?_⟩
      obtain ⟨j, rfl⟩ := Nat.exists_eq_succ_of_ne_zero (Nat.ne_of_gt hj)
      simp [walk?, hchild]
    | some c =>
      obtain ⟨k, hk, hwalk, hlongest⟩ := walk?_follow t c path
      refine ⟨k + 1, by simpa using hk, by simpa [walk?, hchild] using hwalk, fun j hj hle => ?_⟩
      obtain ⟨j, rfl⟩ := Nat.exists_eq_succ_of_ne_zero (by omega : j ≠ 0)
      have hnone := hlongest j (by omega) (by simpa using hle)
      simpa [walk?, hchild] using hnone

/-- A name without a path is filed at its home when it is defined. -/
theorem Coherent.labelIn?_of_define {t t' : Symbols} (ht : t.Coherent) {name : Text}
    (hname : '.' ∉ name) {scope : Scope} (hhome : scope.home < t.modules.size) {info : LabelDef}
    {force : Bool} {id : LabelId} (h : define name scope info force t = .ok id t') :
    t'.labelIn? (undottedHome name scope) name = some id := by
  rw [define_apply] at h
  cases hvalid : checkName name with
  | error e =>
    rw [hvalid] at h
    cases h
  | ok u =>
    obtain ⟨hextends, hlt⟩ := ht.targetModule (LabelPath.ofName name) hhome
    rw [hvalid] at h
    have hfiled := (hextends.coherent.holds_insert hlt h).filed
    rw [LabelPath.ofName_of_undotted hname] at hfiled
    exact hfiled

/-- **Names land on the same label in another tree.**  The module of one tree that corresponds to a
module of another is where the longest part of its path leads that is there, from the same root.  If
all of the path leads to a module, then whatever name without a path was ever defined there denotes
the same label from the corresponding module, after all that has been done to the tree since. -/
theorem equivalentModule_lands (old : Symbols) {new : Symbols} (hnew : new.Built) {m : ModuleId}
    (hm : m < new.modules.size) :
    ((new.modulePath m).1 ∈ roots ∧
      new.walk? (new.modulePath m).1 (new.modulePath m).2 = some m ∧
      ∃ k, k ≤ (new.modulePath m).2.length ∧
        old.walk? (new.modulePath m).1 ((new.modulePath m).2.take k) =
          some (old.equivalentModule new m) ∧
        ∀ j, k < j → j ≤ (new.modulePath m).2.length →
          old.walk? (new.modulePath m).1 ((new.modulePath m).2.take j) = none) ∧
    ∀ (before after : Symbols) (home : ModuleId) (name localMark : Text) (allLocal : Bool)
      (info : LabelDef) (force : Bool) (id : LabelId),
      before.Built → home < before.modules.size → '.' ∉ name →
      define name ⟨home, localMark, allLocal⟩ info force before = .ok id after →
      ReflTransGen Operation after old →
      old.walk? (new.modulePath m).1 (new.modulePath m).2 = some home →
      old.resolve name ⟨old.equivalentModule new m, localMark, allLocal⟩ = some id := by
  obtain ⟨htop, hwalk⟩ := hnew.coherent.walk?_path hm
  refine ⟨⟨htop, hwalk, walk?_follow old _ _⟩, ?_⟩
  intro before after home name localMark allLocal info force id hbefore hhome hname hdefine hlater
    hpath
  have hsame : old.equivalentModule new m = home := follow_of_walk? hpath
  have hfiled := hbefore.coherent.labelIn?_of_define hname hhome hdefine
  have hafter : Operation before after := by
    have hstep : Operation before
        (stateAfter (define name ⟨home, localMark, allLocal⟩ info force) before) :=
      .defined hhome name info force
    rwa [stateAfter_of_ok hdefine] at hstep
  have hcoherent := (hbefore.coherent.extends_operation hafter).coherent
  rw [hsame]
  exact resolve_of_undotted hname ((hcoherent.extends_operations hlater).labelIn_eq hfiled)

/-- A tree with the module `io`. -/
def oneModule : Symbols :=
  ((empty false).enterModule root "io".toList).2

/-- A tree in which the same module comes second, and is spelled differently. -/
def twoModules : Symbols :=
  (((empty false).enterModule root "util".toList).2.enterModule root "IO".toList).2

theorem built_oneModule : oneModule.Built :=
  ⟨false, .single (.entered (by decide) _)⟩

theorem built_twoModules : twoModules.Built :=
  ⟨false, .tail (.single (.entered (by decide) _)) (.entered (by decide +kernel) _)⟩

/-- The module with number 4 of one tree has number 3 in the other one, where a label was defined
and a module imported since. -/
theorem equivalentModule_lands_renumbered : ∃ after,
    define "port".toList ⟨3, [], true⟩ { value := 7 } false oneModule = .ok 0 after ∧
      (after.addImport 3 "util".toList).resolve "port".toList
        ⟨(after.addImport 3 "util".toList).equivalentModule twoModules 4, [], true⟩ = some 0 := by
  obtain ⟨after, hok⟩ := exists_of_definedAs (show definedAs "port".toList ⟨3, [], true⟩
    { value := 7 } false oneModule = some 0 by decide +kernel)
  have hafter : after =
      stateAfter (define "port".toList ⟨3, [], true⟩ { value := 7 } false) oneModule :=
    (stateAfter_of_ok hok).symm
  have hlater : ReflTransGen Operation after (after.addImport 3 "util".toList) :=
    .single (.imported (by rw [hafter]; decide +kernel) _)
  have hpath : (after.addImport 3 "util".toList).walk? (twoModules.modulePath 4).1
      (twoModules.modulePath 4).2 = some 3 := by
    rw [hafter]
    decide +kernel
  exact ⟨after, hok,
    (equivalentModule_lands _ built_twoModules (by decide +kernel)).2 oneModule after
    3 _ [] true _ false 0 built_oneModule (by decide +kernel) (by decide) hok hlater hpath⟩

end Symbols

end MacroAssembler
