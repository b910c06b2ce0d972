import MacroAssembler.Proofs.Deferral
import MacroAssembler.Proofs.Registration

/-!
# Qualified names identify labels

The places of variables are remembered from one pass to the next under the qualified names of their
labels: the name of the root, the names of the modules on the way down, the name of the label, with
dots between.  The names themselves are free.  A module may be called `this`, `root` or `global`,
and the name of a member may even be empty.

The qualified name still says which label is meant.  Its parts can be read off it, since none of
them holds a dot; a root is spelled as an explicit start of a path, and only the first part of a
path is taken for a start; and along the rest every key leads to one module.  So the name of a label
below the root or the global module is a path to it that every scope understands.  The labels of the
noname module have qualified names too, but no path starts there.
-/

namespace MacroAssembler

open Relation

/-! ## Taking a path apart -/

/-- A path that begins with a start is counted from there, whatever its modules are called. -/
theorem LabelPath.ofName_intercalate {first leaf : Text} {modules : List Text} {start : PathStart}
    (hstart : PathStart.ofPart first = some start)
    (h : ∀ part ∈ first :: modules ++ [leaf], '.' ∉ part) :
    ofName (['.'].intercalate (first :: modules ++ [leaf])) = ⟨some start, modules, leaf⟩ := by
  have hfront : (first :: modules ++ [leaf]).dropLast = first :: modules := List.dropLast_concat
  have hlast : (first :: modules ++ [leaf]).getLast? = some leaf := List.getLast?_concat
  rw [ofName, Text.splitOn_eq, List.splitOn_intercalate _ h (List.concat_ne_nil _ _), hfront, hlast]
  dsimp only
  rw [hstart]
  rfl

namespace Symbols

/-- The name of the root or of the global module is a start that stands for it. -/
theorem ofPart_rootName {top : ModuleId} (h : top ∈ [root, global]) :
    ∃ start, PathStart.ofPart (rootName top) = some start ∧ ∀ home, start.base home = top := by
  rcases List.mem_cons.1 h with rfl | h
  · exact ⟨.root, by decide, fun _ => rfl⟩
  · rw [List.mem_singleton.1 h]
    exact ⟨.global, by decide, fun _ => rfl⟩

variable {t : Symbols}

theorem WellFormed.resolve_qualifiedName (ht : t.WellFormed) {id : LabelId} {label : Label}
    (hlabel : t.label? id = some label) (htop : (t.modulePath label.home).1 ∈ [root, global])
    (scope : Scope) : t.resolve (t.qualifiedName label) scope = some id := by
  obtain ⟨start, hstart, hbase⟩ := ofPart_rootName htop
  have hpath : LabelPath.ofName (t.qualifiedName label) =
      ⟨some start, (t.modulePath label.home).2, label.name⟩ :=
    LabelPath.ofName_intercalate hstart (ht.qualifiedParts_dotless hlabel)
  obtain ⟨-, hwalk⟩ := ht.walk?_path (ht.home_lt hlabel)
  rw [resolve, hpath]
  dsimp only
  rw [hbase, hwalk]
  exact ht.filed hlabel

/-- A tree that is built is well-formed if no module has a dot in its name. -/
theorem Built.wellFormed (h : t.Built)
    (hnames : ∀ m < t.modules.size, m ∉ roots → '.' ∉ (t.moduleAt m).name) : t.WellFormed where
  toCoherent := h.coherent
  name_dotless m hdeclared hm := hnames m hm fun hroot =>
    absurd (mem_roots_iff.1 hroot) (Nat.not_lt.2 hdeclared)
  leaf_dotless := h.leaf_dotless

/-- **Qualified names identify labels.**  In every tree that is built by operations, and whose
modules were entered under names without dots, no two labels have the same qualified name, and the
qualified name of a label below the root or the global module denotes that label in every scope. -/
theorem qualifiedName_identifies (h : t.Built)
    (hnames : ∀ m < t.modules.size, m ∉ roots → '.' ∉ (t.moduleAt m).name) :
    (∀ i j v w, t.label? i = some v → t.label? j = some w →
      t.qualifiedName v = t.qualifiedName w → i = j) ∧
    ∀ id label, t.label? id = some label → (t.modulePath label.home).1 ∈ [root, global] →
      ∀ scope, t.resolve (t.qualifiedName label) scope = some id := by
  have ht := h.wellFormed hnames
  exact ⟨fun _ _ _ _ hv hw heq => ht.qualifiedName_injective hv hw heq,
    fun _ _ hlabel htop scope => ht.resolve_qualifiedName hlabel htop scope⟩

/-- A module `root` in the root, with a label `this` in a module `global` of its own, and a global
label of the same name. -/
def homonyms : Symbols :=
  stateAfter (define "this".toList ⟨noname, ['_'], false⟩ { value := 2 } false)
    (stateAfter (define "this.Global.this".toList ⟨3, ['_'], false⟩ { value := 1 } false)
      ((empty false).enterModule root "root".toList).2)

theorem built_homonyms : homonyms.Built :=
  ⟨false, ((ReflTransGen.single (.entered (by decide) _)).tail
    (.defined (by decide +kernel) _ _ _)).tail (.defined (by decide +kernel) _ _ _)⟩

/-- The two labels have different qualified names, and each is found under its own. -/
theorem qualifiedName_identifies_homonyms :
    (∀ scope, homonyms.resolve "root.root.Global.this".toList scope = some 0) ∧
    ∀ scope, homonyms.resolve "global.this".toList scope = some 1 := by
  obtain ⟨-, hresolve⟩ := qualifiedName_identifies built_homonyms (by decide +kernel)
  have hnamed : (homonyms.label? 0).map (fun label =>
        (homonyms.qualifiedName label, (homonyms.modulePath label.home).1)) =
          some ("root.root.Global.this".toList, root) ∧
      (homonyms.label? 1).map (fun label =>
        (homonyms.qualifiedName label, (homonyms.modulePath label.home).1)) =
          some ("global.this".toList, global) := by decide +kernel
  obtain ⟨first, hfirst, hpair⟩ := Option.map_eq_some_iff.1 hnamed.1
  obtain ⟨second, hsecond, hpair'⟩ := Option.map_eq_some_iff.1 hnamed.2
  obtain ⟨hname, htop⟩ := Prod.mk.inj hpair
  obtain ⟨hname', htop'⟩ := Prod.mk.inj hpair'
  rw [← hname, ← hname']
  exact ⟨hresolve 0 first hfirst (by rw [htop]; decide),
    hresolve 1 second hsecond (by rw [htop']; decide)⟩

end Symbols

end MacroAssembler
