import MacroAssembler.Assembly
import MacroAssembler.Proofs.Change

/-!
# The symbol tree keeps its shape

The numbers of modules and labels never change, and neither do names and parents.  A tree only
grows: by a module below another one, or by a label in a module.  What is filed under a key stays
there.

Two facts of this are needed later.  The qualified name of a label is the same for the rest of the
pass.  And it belongs to no other label: its parts hold no dots, so the path can be read off it, and
along the path every key leads to one module.
-/

namespace MacroAssembler

open Relation
variable {stage : Stage} {failing : Prop}

theorem Text.splitOn_eq (sep : Char) (text : Text) :
    Text.splitOn sep text = List.splitOn sep text := by
  induction text with
  | nil => rfl
  | cons c rest ih =>
    rw [splitOn, ih, List.splitOn_cons_eq_if_modifyHead]
    cases hrest : List.splitOn sep rest with
    | nil => exact absurd hrest (List.splitOn_ne_nil sep rest)
    | cons first parts => simp

/-- The parts of a split text are made of its characters, without the separator. -/
theorem Text.mem_of_mem_splitOn {sep d : Char} {text part : Text} (h : part ∈ splitOn sep text)
    (hd : d ∈ part) : d ∈ text ∧ d ≠ sep := by
  induction text generalizing part with
  | nil =>
    rw [splitOn, List.mem_singleton] at h
    subst h
    cases hd
  | cons c rest ih =>
    have hrest : ∀ {part : Text}, part ∈ splitOn sep rest → d ∈ part → d ∈ c :: rest ∧ d ≠ sep :=
      fun h hd => (ih h hd).imp_left (List.mem_cons_of_mem c)
    rw [splitOn_eq, List.splitOn_cons_eq_if_modifyHead, ← splitOn_eq] at h
    split at h
    · rcases List.mem_cons.1 h with rfl | h
      · cases hd
      · exact hrest h hd
    next hc =>
      cases hsplit : splitOn sep rest with
      | nil =>
        rw [hsplit] at h
        cases h
      | cons first parts =>
        rw [hsplit, List.modifyHead_cons] at h
        rw [hsplit] at hrest
        rcases List.mem_cons.1 h with rfl | h
        · rcases List.mem_cons.1 hd with rfl | hd
          · exact ⟨List.mem_cons_self, by simpa using hc⟩
          · exact hrest List.mem_cons_self hd
        · exact hrest (List.mem_cons_of_mem _ h) hd

/-- Texts without the separator can be read off the text that they make up. -/
theorem Text.eq_of_intercalate_eq {sep : Char} {xs ys : List Text} (hxs : xs ≠ []) (hys : ys ≠ [])
    (hx : ∀ x ∈ xs, sep ∉ x) (hy : ∀ y ∈ ys, sep ∉ y)
    (h : [sep].intercalate xs = [sep].intercalate ys) : xs = ys := by
  rw [← List.splitOn_intercalate sep hx hxs, h, List.splitOn_intercalate sep hy hys]

namespace Symbols

/-! ## Looking things up in a changed tree -/

section Primitive

variable (t : Symbols)
variable {m : ModuleId} {name : Text}

theorem moduleAt_modifyModule (m m' : ModuleId) (f : Module → Module) :
    (t.modifyModule m f).moduleAt m' =
      if m = m' ∧ m' < t.modules.size then f (t.moduleAt m') else t.moduleAt m' := by
  simp only [moduleAt, modifyModule, Array.getD_eq_getD_getElem?, Array.getElem?_modify]
  by_cases hm : m = m'
  · by_cases hlt : m' < t.modules.size
    · rw [if_pos hm, if_pos ⟨hm, hlt⟩, Array.getElem?_eq_getElem hlt]
      rfl
    · rw [if_pos hm, if_neg fun h => hlt h.2, Array.getElem?_eq_none (Nat.le_of_not_lt hlt)]
      rfl
  · rw [if_neg hm, if_neg fun h => hm h.1]

theorem size_modifyModule (m : ModuleId) (f : Module → Module) :
    (t.modifyModule m f).modules.size = t.modules.size :=
  Array.size_modify

theorem label?_modifyLabel (id id' : LabelId) (f : Label → Label) :
    (t.modifyLabel id f).label? id' =
      if id = id' then (t.label? id').map f else t.label? id' :=
  Array.getElem?_modify

/-- The tree with a new module below another one. -/
def addModule (m : ModuleId) (name : Text) : Symbols :=
  { t with modules := t.modules.push { name := name, parent := some m } }.modifyModule m
    fun parent => { parent with
      children := parent.children ++ [(t.key name, t.modules.size)]
      childOrder := parent.childOrder ++ [t.modules.size] }

/-- The tree with a new label in a module. -/
def addLabel (m : ModuleId) (leaf : Text) (info : LabelDef) : Symbols :=
  { t with labels := t.labels.push { name := leaf, home := m, info := info } }.modifyModule m
    fun mod => { mod with labels := (t.key leaf, t.labels.size) :: mod.labels }

theorem enterModule_of_some {c : ModuleId} (h : t.child? m name = some c) :
    t.enterModule m name = (c, t) := by
  rw [enterModule, h]

theorem enterModule_of_none (h : t.child? m name = none) :
    t.enterModule m name = (t.modules.size, t.addModule m name) := by
  rw [enterModule, h]
  rfl

variable {t}

theorem walkCreating_cons (base : ModuleId) (name : Text) (path : List Text) :
    t.walkCreating base (name :: path) =
      (t.enterModule base name).2.walkCreating (t.enterModule base name).1 path :=
  rfl

theorem size_addModule (m : ModuleId) (name : Text) :
    (t.addModule m name).modules.size = t.modules.size + 1 := by
  rw [addModule, size_modifyModule, Array.size_push]

theorem moduleAt_addModule (hm : m < t.modules.size) (name : Text) (m' : ModuleId) :
    (t.addModule m name).moduleAt m' =
      if m' = t.modules.size then { name := name, parent := some m }
      else if m' = m then { t.moduleAt m with
        children := (t.moduleAt m).children ++ [(t.key name, t.modules.size)]
        childOrder := (t.moduleAt m).childOrder ++ [t.modules.size] }
      else t.moduleAt m' := by
  have hpush : ∀ i, ({ t with modules := t.modules.push { name := name, parent := some m } } :
      Symbols).moduleAt i =
        if i = t.modules.size then { name := name, parent := some m } else t.moduleAt i := by
    intro i
    simp only [moduleAt, Array.getD_eq_getD_getElem?, Array.getElem?_push]
    split
    · rfl
    · rfl
  rw [addModule, moduleAt_modifyModule, hpush, Array.size_push]
  by_cases hnew : m' = t.modules.size
  · rw [if_neg fun h => Nat.ne_of_lt hm (h.1.trans hnew), if_pos hnew, if_pos hnew]
  · rw [if_neg hnew, if_neg hnew]
    by_cases heq : m' = m
    · subst heq
      rw [if_pos ⟨rfl, Nat.lt_succ_of_lt hm⟩, if_pos rfl]
    · rw [if_neg fun h => heq h.1.symm, if_neg heq]

theorem child?_addModule (hm : m < t.modules.size) (hnone : t.child? m name = none) (m' : ModuleId)
    (name' : Text) :
    (t.addModule m name).child? m' name' =
      if m' = m ∧ t.key name' = t.key name then some t.modules.size else t.child? m' name' := by
  have hkey : (t.addModule m name).key name' = t.key name' := rfl
  have hdefault : t.moduleAt t.modules.size = default := by
    simp [moduleAt]
  rw [child?, moduleAt_addModule hm, hkey]
  by_cases hnew : m' = t.modules.size
  · rw [if_pos hnew, if_neg fun h => Nat.ne_of_lt hm (h.1.symm.trans hnew), child?, hnew, hdefault]
    rfl
  · rw [if_neg hnew]
    by_cases heq : m' = m
    · subst heq
      rw [if_pos rfl, List.lookup_append, List.lookup_cons, List.lookup_nil]
      by_cases hsame : t.key name' = t.key name
      · rw [if_pos ⟨rfl, hsame⟩, hsame, beq_self_eq_true]
        have hlookup : (t.moduleAt m').children.lookup (t.key name) = none := hnone
        rw [hlookup]
        rfl
      · rw [if_neg fun h => hsame h.2, beq_eq_false_iff_ne.2 hsame]
        exact Option.or_none
    · rw [if_neg heq, if_neg fun h => heq h.1]
      rfl

theorem label?_addLabel (m : ModuleId) (leaf : Text) (info : LabelDef) (id : LabelId) :
    (t.addLabel m leaf info).label? id =
      if id = t.labels.size then some { name := leaf, home := m, info := info }
      else t.label? id :=
  Array.getElem?_push

theorem labelIn?_addLabel (hm : m < t.modules.size) (leaf : Text) (info : LabelDef) (m' : ModuleId)
    (leaf' : Text) :
    (t.addLabel m leaf info).labelIn? m' leaf' =
      if m' = m ∧ t.key leaf' = t.key leaf then some t.labels.size else t.labelIn? m' leaf' := by
  have hkey : (t.addLabel m leaf info).key leaf' = t.key leaf' := rfl
  rw [labelIn?, addLabel, moduleAt_modifyModule, ← addLabel, hkey]
  by_cases heq : m' = m
  · subst heq
    rw [if_pos ⟨rfl, hm⟩, List.lookup_cons]
    by_cases hsame : t.key leaf' = t.key leaf
    · rw [if_pos ⟨rfl, hsame⟩, hsame, beq_self_eq_true]
    · rw [if_neg fun h => hsame h.2, beq_eq_false_iff_ne.2 hsame]
      rfl
  · rw [if_neg fun h => heq h.1.symm, if_neg fun h => heq h.1]
    rfl

theorem labelIn?_addModule (hm : m < t.modules.size) (name : Text) (m' : ModuleId) (leaf : Text) :
    (t.addModule m name).labelIn? m' leaf = t.labelIn? m' leaf := by
  have hkey : (t.addModule m name).key leaf = t.key leaf := rfl
  have hdefault : t.moduleAt t.modules.size = default := by
    simp [moduleAt]
  rw [labelIn?, moduleAt_addModule hm, hkey, labelIn?]
  split
  next hnew =>
    rw [hnew, hdefault]
    rfl
  · split
    next heq => rw [heq]
    · rfl

/-- A new label changes nothing in a module but its labels. -/
theorem moduleAt_addLabel (m : ModuleId) (leaf : Text) (info : LabelDef) (m' : ModuleId) :
    ∃ labels, (t.addLabel m leaf info).moduleAt m' = { t.moduleAt m' with labels := labels } := by
  rw [addLabel, moduleAt_modifyModule]
  split
  · exact ⟨_, rfl⟩
  · exact ⟨_, rfl⟩

/-- An import changes nothing in a module but its imports. -/
theorem moduleAt_addImport (m : ModuleId) (name : Text) (m' : ModuleId) :
    ∃ imports, (t.addImport m name).moduleAt m' = { t.moduleAt m' with imports := imports } := by
  rw [addImport, moduleAt_modifyModule]
  split
  · split
    · exact ⟨_, rfl⟩
    · exact ⟨_, rfl⟩
  · exact ⟨_, rfl⟩

end Primitive

/-! ## Coherent trees -/

/-- A tree whose modules and labels refer to each other as they should. -/
structure Coherent (t : Symbols) : Prop where
  three_le : 3 ≤ t.modules.size
  parent_root : ∀ m, m < 3 → (t.moduleAt m).parent = none
  /-- A declared module is younger than its parent, and filed there. -/
  parent_declared : ∀ m, 3 ≤ m → m < t.modules.size → ∃ parent, parent < m ∧
    (t.moduleAt m).parent = some parent ∧ t.child? parent (t.moduleAt m).name = some m
  /-- What a module files as a module below it is one, and has that key. -/
  child : ∀ {m k c}, (k, c) ∈ (t.moduleAt m).children →
    c < t.modules.size ∧ (t.moduleAt c).parent = some m ∧ t.key (t.moduleAt c).name = k
  /-- The order of the modules below a module is the one in which they were filed. -/
  child_order : ∀ m, t.childrenOf m = (t.moduleAt m).children.map Prod.snd
  child_nodup : ∀ m, (t.childrenOf m).Nodup
  /-- What a module files as a label is at home there, and has that key. -/
  label : ∀ {m k id}, (k, id) ∈ (t.moduleAt m).labels →
    ∃ label, t.label? id = some label ∧ label.home = m ∧ t.key label.name = k
  home_lt : ∀ {id label}, t.label? id = some label → label.home < t.modules.size
  /-- A label is filed in its home. -/
  filed : ∀ {id label}, t.label? id = some label → t.labelIn? label.home label.name = some id

theorem mem_of_lookup {α : Type} {list : List (Text × α)} {key : Text} {a : α}
    (h : list.lookup key = some a) : (key, a) ∈ list := by
  obtain ⟨front, back, rfl, -⟩ := List.lookup_eq_some_iff.1 h
  exact List.mem_append_right _ List.mem_cons_self

theorem mem_roots_iff {m : ModuleId} : m ∈ roots ↔ m < 3 := by
  have hlt : ∀ r ∈ roots, r < 3 := by decide
  have hmem : ∀ r < 3, r ∈ roots := by decide
  exact ⟨hlt m, hmem m⟩

theorem coherent_empty (caseSensitive : Bool) : (empty caseSensitive).Coherent where
  three_le := Nat.le_refl 3
  parent_root m hm := by
    match m, hm with
    | 0, _ | 1, _ | 2, _ => rfl
  parent_declared m hm hlt := absurd hlt (Nat.not_lt.2 hm)
  child {m k c} h := by
    match m with
    | 0 | 1 | 2 => cases h
    | m + 3 => cases h
  child_order m := by
    match m with
    | 0 | 1 | 2 => rfl
    | m + 3 => rfl
  child_nodup m := by
    match m with
    | 0 | 1 | 2 => exact List.nodup_nil
    | m + 3 => exact List.nodup_nil
  label {m k id} h := by
    match m with
    | 0 | 1 | 2 => cases h
    | m + 3 => cases h
  home_lt h := by cases h
  filed h := by cases h

/-- The steps that operations on a tree are made of.  The names of new modules may be restricted. -/
inductive Step (N : Text → Prop) : Symbols → Symbols → Prop where
  | addedModule {t : Symbols} {m : ModuleId} {name : Text} (hm : m < t.modules.size)
      (hname : N name) (hfree : t.child? m name = none) : Step N t (t.addModule m name)
  | addedLabel {t : Symbols} {m : ModuleId} {leaf : Text} (hm : m < t.modules.size)
      (hleaf : '.' ∉ leaf) (hfree : t.labelIn? m leaf = none) (info : LabelDef) :
      Step N t (t.addLabel m leaf info)
  | annotated {t : Symbols} (id : LabelId) {f : Label → Label}
      (hname : ∀ label, (f label).name = label.name)
      (hhome : ∀ label, (f label).home = label.home) : Step N t (t.modifyLabel id f)
  | imported {t : Symbols} (m : ModuleId) (name : Text) : Step N t (t.addImport m name)

/-- A tree has become another one.  Every child is where it was, and so is every label. -/
structure Extends (t t' : Symbols) : Prop where
  coherent : t'.Coherent
  caseSensitive_eq : t'.caseSensitive = t.caseSensitive
  size_le : t.modules.size ≤ t'.modules.size
  name_eq : ∀ m, m < t.modules.size → (t'.moduleAt m).name = (t.moduleAt m).name
  parent_eq : ∀ m, m < t.modules.size → (t'.moduleAt m).parent = (t.moduleAt m).parent
  child_eq : ∀ {m name c}, t.child? m name = some c → t'.child? m name = some c
  label_eq : ∀ {id label}, t.label? id = some label →
    ∃ label', t'.label? id = some label' ∧ label'.name = label.name ∧ label'.home = label.home
  labelIn_eq : ∀ {m leaf id}, t.labelIn? m leaf = some id → t'.labelIn? m leaf = some id

theorem Extends.trans {t t' t'' : Symbols} (h : t.Extends t') (h' : t'.Extends t'') :
    t.Extends t'' where
  coherent := h'.coherent
  caseSensitive_eq := h'.caseSensitive_eq.trans h.caseSensitive_eq
  size_le := Nat.le_trans h.size_le h'.size_le
  name_eq m hm := (h'.name_eq m (Nat.lt_of_lt_of_le hm h.size_le)).trans (h.name_eq m hm)
  parent_eq m hm := (h'.parent_eq m (Nat.lt_of_lt_of_le hm h.size_le)).trans (h.parent_eq m hm)
  child_eq hc := h'.child_eq (h.child_eq hc)
  label_eq hlabel := by
    obtain ⟨label', hlabel', hname, hhome⟩ := h.label_eq hlabel
    obtain ⟨label'', hlabel'', hname', hhome'⟩ := h'.label_eq hlabel'
    exact ⟨label'', hlabel'', hname'.trans hname, hhome'.trans hhome⟩
  labelIn_eq hin := h'.labelIn_eq (h.labelIn_eq hin)

namespace Coherent

variable {t t' : Symbols} (ht : t.Coherent)
include ht
variable {m base : ModuleId}
variable {c : ModuleId} {name : Text}

theorem extends_self : t.Extends t where
  coherent := ht
  caseSensitive_eq := rfl
  size_le := Nat.le_refl _
  name_eq _ _ := rfl
  parent_eq _ _ := rfl
  child_eq hc := hc
  label_eq hlabel := ⟨_, hlabel, rfl, rfl⟩
  labelIn_eq hin := hin

theorem mem_childrenOf (h : t.child? m name = some c) :
    c ∈ t.childrenOf m := by
  rw [ht.child_order]
  exact List.mem_map.2 ⟨_, mem_of_lookup h, rfl⟩

theorem child_parent (h : c ∈ t.childrenOf m) :
    c < t.modules.size ∧ (t.moduleAt c).parent = some m := by
  rw [ht.child_order] at h
  obtain ⟨⟨k, c⟩, hmem, rfl⟩ := List.mem_map.1 h
  exact ⟨(ht.child hmem).1, (ht.child hmem).2.1⟩

theorem child_lt (h : t.child? m name = some c) :
    c < t.modules.size :=
  (ht.child (mem_of_lookup h)).1

theorem label_lt {leaf : Text} {id : LabelId} (h : t.labelIn? m leaf = some id) :
    id < t.labels.size := by
  obtain ⟨label, hlabel, -⟩ := ht.label (mem_of_lookup h)
  exact (Array.getElem?_eq_some_iff.1 hlabel).1

theorem addModule (hm : m < t.modules.size) (hnone : t.child? m name = none) :
    t.Extends (t.addModule m name) := by
  have hold : ∀ m', m' < t.modules.size →
      ((t.addModule m name).moduleAt m').name = (t.moduleAt m').name ∧
      ((t.addModule m name).moduleAt m').parent = (t.moduleAt m').parent := by
    intro m' hlt
    rw [moduleAt_addModule hm, if_neg (Nat.ne_of_lt hlt)]
    split
    next heq => rw [heq]; exact ⟨rfl, rfl⟩
    · exact ⟨rfl, rfl⟩
  have hnew :
      (t.addModule m name).moduleAt t.modules.size = { name := name, parent := some m } := by
    rw [moduleAt_addModule hm, if_pos rfl]
  have hbelow : ∀ m', (t.addModule m name).childrenOf m' =
      if m' = t.modules.size then [] else if m' = m then t.childrenOf m ++ [t.modules.size]
      else t.childrenOf m' := by
    intro m'
    rw [childrenOf, moduleAt_addModule hm]
    split
    · rfl
    · split
      · rfl
      · rfl
  -- what was filed under a key stays filed: the key of the new module was free
  have hchild : ∀ {m' name' c}, t.child? m' name' = some c →
      (t.addModule m name).child? m' name' = some c := by
    intro m' name' c hc
    rw [child?_addModule hm hnone, if_neg, hc]
    rintro ⟨rfl, hkey⟩
    rw [child?, hkey, ← child?, hnone] at hc
    cases hc
  refine ⟨?_, rfl, ?_, fun m' hlt => (hold m' hlt).1, fun m' hlt => (hold m' hlt).2, hchild,
    fun hlabel => ⟨_, hlabel, rfl, rfl⟩, fun hin => by rwa [labelIn?_addModule hm]⟩
  · constructor
    case three_le => rw [size_addModule]; exact Nat.le_succ_of_le ht.three_le
    case parent_root =>
      intro m' hlt
      have hlt' := Nat.lt_of_lt_of_le hlt ht.three_le
      rw [(hold m' hlt').2, ht.parent_root m' hlt]
    case parent_declared =>
      intro m' hle hlt
      rw [size_addModule] at hlt
      rcases Nat.lt_succ_iff_lt_or_eq.1 hlt with hlt | rfl
      · obtain ⟨parent, hparent, heq, hfiled⟩ := ht.parent_declared m' hle hlt
        rw [(hold m' hlt).1, (hold m' hlt).2]
        exact ⟨parent, hparent, heq, hchild hfiled⟩
      · rw [hnew]
        exact ⟨m, hm, rfl, by rw [child?_addModule hm hnone, if_pos ⟨rfl, rfl⟩]⟩
    case child =>
      intro m' k c hmem
      have hbefore : ∀ {m'}, (k, c) ∈ (t.moduleAt m').children →
          c < (t.addModule m name).modules.size ∧
          ((t.addModule m name).moduleAt c).parent = some m' ∧
          t.key ((t.addModule m name).moduleAt c).name = k := by
        intro m' hmem
        obtain ⟨hlt, hparent⟩ := ht.child hmem
        rw [size_addModule, (hold c hlt).1, (hold c hlt).2]
        exact ⟨Nat.lt_succ_of_lt hlt, hparent⟩
      rw [moduleAt_addModule hm] at hmem
      split at hmem
      · cases hmem
      · split at hmem
        next heq =>
          subst heq
          rcases List.mem_append.1 hmem with hmem | hmem
          · exact hbefore hmem
          · cases List.mem_singleton.1 hmem
            rw [hnew, size_addModule]
            exact ⟨Nat.lt_succ_self _, rfl, rfl⟩
        · exact hbefore hmem
    case child_order =>
      intro m'
      rw [hbelow, moduleAt_addModule hm]
      split
      · rfl
      · split
        · rw [ht.child_order, List.map_append]
          rfl
        · exact ht.child_order m'
    case child_nodup =>
      intro m'
      rw [hbelow]
      split
      · exact List.nodup_nil
      · split
        · refine List.nodup_append.2 ⟨ht.child_nodup m, List.pairwise_singleton _ _, ?_⟩
          intro c hc c' hc'
          rw [List.mem_singleton.1 hc']
          exact Nat.ne_of_lt (ht.child_parent hc).1
        · exact ht.child_nodup m'
    case label =>
      intro m' k id hmem
      refine ht.label (m := m') ?_
      rw [moduleAt_addModule hm] at hmem
      split at hmem
      · cases hmem
      · split at hmem
        next heq =>
          rw [heq]
          exact hmem
        · exact hmem
    case home_lt =>
      intro id label hlabel
      rw [size_addModule]
      exact Nat.lt_succ_of_lt (ht.home_lt hlabel)
    case filed =>
      intro id label hlabel
      rw [labelIn?_addModule hm]
      exact ht.filed hlabel
  · rw [size_addModule]
    exact Nat.le_succ _

/-- A tree is extended when its modules and labels stay where they are, and new labels are filed. -/
theorem extends_of_modules (hsize : t'.modules.size = t.modules.size)
    (hcase : t'.caseSensitive = t.caseSensitive)
    (hmodule : ∀ m, ∃ labels imports,
      t'.moduleAt m = { t.moduleAt m with labels := labels, imports := imports })
    (hold : ∀ {id label}, t.label? id = some label →
      ∃ label', t'.label? id = some label' ∧ label'.name = label.name ∧ label'.home = label.home)
    (hkeeps : ∀ {m leaf id}, t.labelIn? m leaf = some id → t'.labelIn? m leaf = some id)
    (hfiles : ∀ {m k id}, (k, id) ∈ (t'.moduleAt m).labels → (k, id) ∈ (t.moduleAt m).labels ∨
      ∃ label, t'.label? id = some label ∧ label.home = m ∧ t'.key label.name = k)
    (hlabel : ∀ {id label}, t'.label? id = some label → label.home < t.modules.size ∧
      t'.labelIn? label.home label.name = some id) : t.Extends t' := by
  have hname : ∀ m, (t'.moduleAt m).name = (t.moduleAt m).name := by
    intro m
    obtain ⟨labels, imports, heq⟩ := hmodule m
    rw [heq]
  have hparent : ∀ m, (t'.moduleAt m).parent = (t.moduleAt m).parent := by
    intro m
    obtain ⟨labels, imports, heq⟩ := hmodule m
    rw [heq]
  have hbelow : ∀ m, t'.childrenOf m = t.childrenOf m := by
    intro m
    obtain ⟨labels, imports, heq⟩ := hmodule m
    rw [childrenOf, heq]
    rfl
  have hkey : ∀ name, t'.key name = t.key name := by
    intro name
    rw [key, key, hcase]
  have hchild : ∀ m name, t'.child? m name = t.child? m name := by
    intro m name
    obtain ⟨labels, imports, heq⟩ := hmodule m
    rw [child?, child?, heq, hkey]
  refine ⟨?_, hcase, Nat.le_of_eq hsize.symm, fun m _ => hname m, fun m _ => hparent m,
    fun hc => by rw [hchild]; exact hc, hold, hkeeps⟩
  constructor
  case three_le => rw [hsize]; exact ht.three_le
  case parent_root => intro m hm; rw [hparent]; exact ht.parent_root m hm
  case parent_declared =>
    intro m hle hlt
    rw [hsize] at hlt
    rw [hparent, hname]
    simp only [hchild]
    exact ht.parent_declared m hle hlt
  case child =>
    intro m k c hmem
    obtain ⟨labels, imports, heq⟩ := hmodule m
    rw [heq] at hmem
    rw [hsize, hparent, hname, hkey]
    exact ht.child hmem
  case child_order =>
    intro m
    obtain ⟨labels, imports, heq⟩ := hmodule m
    rw [hbelow, heq]
    exact ht.child_order m
  case child_nodup => intro m; rw [hbelow]; exact ht.child_nodup m
  case label =>
    intro m k id hmem
    rcases hfiles hmem with hmem | hnew
    · obtain ⟨label, hlabel, rfl, rfl⟩ := ht.label hmem
      obtain ⟨label', hlabel', hname', hhome'⟩ := hold hlabel
      exact ⟨label', hlabel', hhome', by rw [hkey, hname']⟩
    · exact hnew
  case home_lt => intro id label h; rw [hsize]; exact (hlabel h).1
  case filed => intro id label h; exact (hlabel h).2

theorem addLabel (hm : m < t.modules.size) {leaf : Text} (hnone : t.labelIn? m leaf = none)
    (info : LabelDef) :
    t.Extends (t.addLabel m leaf info) := by
  -- the key of the new label was free, so nothing is lost
  have hkeeps : ∀ {m' leaf' id}, t.labelIn? m' leaf' = some id →
      (t.addLabel m leaf info).labelIn? m' leaf' = some id := by
    intro m' leaf' id hin
    rw [labelIn?_addLabel hm, if_neg, hin]
    rintro ⟨rfl, hkey⟩
    rw [labelIn?, hkey, ← labelIn?, hnone] at hin
    cases hin
  refine ht.extends_of_modules (size_modifyModule _ _ _) rfl ?_ ?_ hkeeps ?_ ?_
  · intro m'
    obtain ⟨labels, heq⟩ := moduleAt_addLabel (t := t) m leaf info m'
    exact ⟨labels, (t.moduleAt m').imports, heq⟩
  · intro id label hlabel
    have hne : id ≠ t.labels.size := by
      rintro rfl
      rw [label?, Array.getElem?_eq_none (Nat.le_refl _)] at hlabel
      cases hlabel
    rw [label?_addLabel, if_neg hne]
    exact ⟨label, hlabel, rfl, rfl⟩
  · intro m' k id hmem
    rw [Symbols.addLabel, moduleAt_modifyModule] at hmem
    split at hmem
    next heq =>
      rcases List.mem_cons.1 hmem with hnew | hmem
      · cases hnew
        exact .inr ⟨_, by rw [label?_addLabel, if_pos rfl], heq.1, rfl⟩
      · exact .inl hmem
    · exact .inl hmem
  · intro id label hlabel
    rw [label?_addLabel] at hlabel
    split at hlabel
    next hid =>
      cases hlabel
      refine ⟨hm, ?_⟩
      rw [labelIn?_addLabel hm, if_pos ⟨rfl, rfl⟩, hid]
    · exact ⟨ht.home_lt hlabel, hkeeps (ht.filed hlabel)⟩

omit ht in
/-- A label with the same name and home has been changed. -/
theorem exists_of_modifyLabel {id id' : LabelId} {f : Label → Label} {label : Label}
    (hname : ∀ label, (f label).name = label.name) (hhome : ∀ label, (f label).home = label.home)
    (h : (t.modifyLabel id f).label? id' = some label) :
    ∃ old, t.label? id' = some old ∧ label.name = old.name ∧ label.home = old.home := by
  rw [label?_modifyLabel] at h
  split at h
  · obtain ⟨old, hold, rfl⟩ := Option.map_eq_some_iff.1 h
    exact ⟨old, hold, hname old, hhome old⟩
  · exact ⟨label, h, rfl, rfl⟩

theorem modifyLabel (id : LabelId) {f : Label → Label}
    (hname : ∀ label, (f label).name = label.name) (hhome : ∀ label, (f label).home = label.home) :
    t.Extends (t.modifyLabel id f) := by
  refine ht.extends_of_modules rfl rfl ?_ ?_ (fun hin => hin) ?_ ?_
  · exact fun m => ⟨(t.moduleAt m).labels, (t.moduleAt m).imports, rfl⟩
  · intro id' label hlabel
    rw [label?_modifyLabel, hlabel]
    split
    · exact ⟨f label, rfl, hname label, hhome label⟩
    · exact ⟨label, rfl, rfl, rfl⟩
  · exact fun hmem => .inl hmem
  · intro id' label hlabel
    obtain ⟨old, hold, hname, hhome⟩ := exists_of_modifyLabel hname hhome hlabel
    rw [hname, hhome]
    exact ⟨ht.home_lt hold, ht.filed hold⟩

theorem addImport (m : ModuleId) (name : Text) : t.Extends (t.addImport m name) := by
  have hlabels : ∀ m' leaf, (t.addImport m name).labelIn? m' leaf = t.labelIn? m' leaf := by
    intro m' leaf
    obtain ⟨imports, heq⟩ := moduleAt_addImport (t := t) m name m'
    rw [labelIn?, heq]
    rfl
  refine ht.extends_of_modules (size_modifyModule _ _ _) rfl ?_ ?_ ?_ ?_ ?_
  · intro m'
    obtain ⟨imports, heq⟩ := moduleAt_addImport (t := t) m name m'
    exact ⟨(t.moduleAt m').labels, imports, heq⟩
  · exact fun hlabel => ⟨_, hlabel, rfl, rfl⟩
  · exact fun hin => by rwa [hlabels]
  · intro m' k id hmem
    obtain ⟨imports, heq⟩ := moduleAt_addImport (t := t) m name m'
    rw [heq] at hmem
    exact .inl hmem
  · intro id label hlabel
    rw [hlabels]
    exact ⟨ht.home_lt hlabel, ht.filed hlabel⟩

theorem extends_step {N : Text → Prop} (h : Step N t t') : t.Extends t' := by
  cases h with
  | addedModule hm _ hfree => exact ht.addModule hm hfree
  | addedLabel hm _ hfree info => exact ht.addLabel hm hfree info
  | annotated id hname hhome => exact ht.modifyLabel id hname hhome
  | imported m name => exact ht.addImport m name

theorem extends_steps {N : Text → Prop} (h : ReflTransGen (Step N) t t') : t.Extends t' := by
  induction h with
  | refl => exact ht.extends_self
  | tail _ hlast ih => exact ih.trans (ih.coherent.extends_step hlast)

/-! ## Modules on the way to a definition -/

/-- The module that is entered is where its name leads from then on. -/
theorem enterModule (hm : m < t.modules.size) (name : Text) :
    t.Extends (t.enterModule m name).2 ∧
      (t.enterModule m name).2.child? m name = some (t.enterModule m name).1 := by
  cases hchild : t.child? m name with
  | some c =>
    rw [enterModule_of_some t hchild]
    exact ⟨ht.extends_self, hchild⟩
  | none =>
    rw [enterModule_of_none t hchild]
    refine ⟨ht.addModule hm hchild, ?_⟩
    rw [child?_addModule hm hchild, if_pos ⟨rfl, rfl⟩]

theorem walk?_lt (hbase : base < t.modules.size) {path : List Text}
    (h : t.walk? base path = some m) : m < t.modules.size := by
  induction path generalizing base with
  | nil =>
    cases h
    exact hbase
  | cons name path ih =>
    obtain ⟨c, hc, hrest⟩ := Option.bind_eq_some_iff.1 h
    exact ih (ht.child_lt hc) hrest

/-- The module that a path was made to lead to is where it leads from then on. -/
theorem walkCreating (hbase : base < t.modules.size) (path : List Text) :
    t.Extends (t.walkCreating base path).2 ∧
      (t.walkCreating base path).2.walk? base path = some (t.walkCreating base path).1 := by
  induction path generalizing t base with
  | nil => exact ⟨ht.extends_self, rfl⟩
  | cons name path ih =>
    obtain ⟨hextends, hchild⟩ := ht.enterModule hbase name
    obtain ⟨hextends', hwalk⟩ := ih hextends.coherent (hextends.coherent.child_lt hchild)
    rw [walkCreating_cons]
    refine ⟨hextends.trans hextends', ?_⟩
    have hstep := hextends'.child_eq hchild
    rw [walk?, List.foldlM_cons, hstep]
    exact hwalk

omit ht in
theorem lt_of_mem_ancestors {m' : ModuleId} (h : m' ∈ t.ancestors m) : m' < m := by
  induction m using Nat.strongRecOn with
  | _ m ih =>
    rw [ancestors] at h
    split at h
    · cases h
    next parent _ =>
      split at h
      next hlt =>
        rcases List.mem_cons.1 h with rfl | h
        · exact hlt
        · exact Nat.lt_trans (ih parent hlt h) hlt
      · cases h

theorem lt_of_mem_searchChain {m' : ModuleId} (hm : m < t.modules.size) (h : m' ∈ t.searchChain m) :
    m' < t.modules.size := by
  rw [searchChain, List.mem_append, List.mem_cons, List.mem_filter] at h
  have hthree := ht.three_le
  rcases h with (rfl | h) | ⟨h, -⟩
  · exact hm
  · exact Nat.lt_trans (lt_of_mem_ancestors h) hm
  · have hroots : ∀ r ∈ roots, r < 3 := by decide
    exact Nat.lt_of_lt_of_le (hroots m' h) hthree

theorem base_lt {home : ModuleId} (hhome : home < t.modules.size) (start : PathStart) :
    start.base home < t.modules.size := by
  have hthree := ht.three_le
  cases start with
  | this => exact hhome
  | root => exact Nat.lt_of_lt_of_le (Nat.zero_lt_succ 2) hthree
  | global => exact Nat.lt_of_lt_of_le (Nat.one_lt_succ_succ 1) hthree

theorem walkCreating_lt (hbase : base < t.modules.size) (path : List Text) :
    (t.walkCreating base path).1 < (t.walkCreating base path).2.modules.size := by
  obtain ⟨hextends, hwalk⟩ := ht.walkCreating hbase path
  exact hextends.coherent.walk?_lt (Nat.lt_of_lt_of_le hbase hextends.size_le) hwalk

/-- The target is a module that is there, or a path is followed to it that may not be there yet. -/
theorem targetModule_cases (path : LabelPath) {scope : Scope}
    (hhome : scope.home < t.modules.size) :
    (∃ m < t.modules.size, t.targetModule path scope = (m, t)) ∨
      ∃ base < t.modules.size, t.targetModule path scope = t.walkCreating base path.modules := by
  rw [Symbols.targetModule]
  split
  next start _ => exact .inr ⟨_, ht.base_lt hhome start, rfl⟩
  · refine .inl ⟨_, ?_, rfl⟩
    split
    · exact hhome
    · exact ht.base_lt hhome .global
  · split
    next m hm =>
      obtain ⟨base, hbase, hwalk⟩ := List.exists_of_findSome?_eq_some hm
      exact .inl ⟨m, ht.walk?_lt (ht.lt_of_mem_searchChain hhome hbase) hwalk, rfl⟩
    · exact .inr ⟨_, hhome, rfl⟩

theorem targetModule (path : LabelPath) {scope : Scope} (hhome : scope.home < t.modules.size) :
    t.Extends (t.targetModule path scope).2 ∧
      (t.targetModule path scope).1 < (t.targetModule path scope).2.modules.size := by
  rcases ht.targetModule_cases path hhome with ⟨m, hm, heq⟩ | ⟨base, hbase, heq⟩
  · rw [heq]
    exact ⟨ht.extends_self, hm⟩
  · rw [heq]
    exact ⟨(ht.walkCreating hbase _).1, ht.walkCreating_lt hbase _⟩

end Coherent

/-! ## Well-formed trees

A qualified name can be taken apart because no part of it holds a dot. -/

/-- A tree as the passes build it. -/
structure WellFormed (t : Symbols) : Prop extends Coherent t where
  name_dotless : ∀ m, 3 ≤ m → m < t.modules.size → '.' ∉ (t.moduleAt m).name
  leaf_dotless : ∀ {id label}, t.label? id = some label → '.' ∉ label.name

theorem wellFormed_empty (caseSensitive : Bool) : (empty caseSensitive).WellFormed where
  toCoherent := coherent_empty caseSensitive
  name_dotless m hm hlt := absurd hlt (Nat.not_lt.2 hm)
  leaf_dotless h := by cases h

namespace Step

variable {N : Text → Prop} {t t' : Symbols} (h : Step N t t')
include h

/-- New modules have names that are allowed. -/
theorem name_of_not_lt {m : ModuleId} (hnew : ¬m < t.modules.size) (hm : m < t'.modules.size) :
    N (t'.moduleAt m).name := by
  cases h with
  | @addedModule m' name hm' hname hfree =>
    rw [size_addModule] at hm
    have heq : m = t.modules.size := Nat.le_antisymm (Nat.le_of_lt_succ hm) (Nat.le_of_not_lt hnew)
    rw [moduleAt_addModule hm', if_pos heq]
    exact hname
  | addedLabel => exact absurd (by rwa [addLabel, size_modifyModule] at hm) hnew
  | annotated => exact absurd hm hnew
  | imported => exact absurd (by rwa [addImport, size_modifyModule] at hm) hnew

theorem leaf_dotless (hbefore : ∀ {id label}, t.label? id = some label → '.' ∉ label.name)
    {id : LabelId} {label : Label} (hlabel : t'.label? id = some label) : '.' ∉ label.name := by
  cases h with
  | addedLabel hm hleaf hfree info =>
    rw [label?_addLabel] at hlabel
    split at hlabel
    · cases hlabel
      exact hleaf
    · exact hbefore hlabel
  | annotated id' hname hhome =>
    obtain ⟨old, hold, hsame, -⟩ := Coherent.exists_of_modifyLabel hname hhome hlabel
    rw [hsame]
    exact hbefore hold
  | addedModule | imported => exact hbefore hlabel

end Step

/-- A tree has become another one, which is well-formed, and nothing is lost. -/
structure Grows (t t' : Symbols) : Prop extends Extends t t' where
  wellFormed : t'.WellFormed

theorem Grows.trans {t t' t'' : Symbols} (h : t.Grows t') (h' : t'.Grows t'') : t.Grows t'' where
  toExtends := h.toExtends.trans h'.toExtends
  wellFormed := h'.wellFormed

namespace WellFormed

variable {t : Symbols} (ht : t.WellFormed)
include ht

theorem grows : t.Grows t where
  toExtends := ht.extends_self
  wellFormed := ht

theorem step {t' : Symbols} (h : Step ('.' ∉ ·) t t') : t.Grows t' := by
  have hextends := ht.extends_step h
  refine ⟨hextends, hextends.coherent, fun m hle hlt => ?_, fun hlabel => ?_⟩
  · by_cases hold : m < t.modules.size
    · rw [hextends.name_eq m hold]
      exact ht.name_dotless m hle hold
    · exact h.name_of_not_lt hold hlt
  · exact h.leaf_dotless ht.leaf_dotless hlabel

theorem steps {t' : Symbols} (h : ReflTransGen (Step ('.' ∉ ·)) t t') : t.Grows t' := by
  induction h with
  | refl => exact ht.grows
  | tail _ hlast ih => exact ih.trans (ih.wellFormed.step hlast)

end WellFormed

section Definition

variable {t t' : Symbols}
variable {info : LabelDef} {id : LabelId} {label : Label}

theorem labels_enterModule (m : ModuleId) (name : Text) :
    (t.enterModule m name).2.labels = t.labels := by
  cases hchild : t.child? m name with
  | some c => rw [enterModule_of_some t hchild]
  | none => rw [enterModule_of_none t hchild]; rfl

theorem labels_walkCreating (base : ModuleId) (path : List Text) :
    (t.walkCreating base path).2.labels = t.labels := by
  induction path generalizing t base with
  | nil => rfl
  | cons name path ih =>
    rw [walkCreating_cons, ih, labels_enterModule]

theorem labels_targetModule (path : LabelPath) (scope : Scope) :
    (t.targetModule path scope).2.labels = t.labels := by
  rw [targetModule]
  split
  · exact labels_walkCreating _ _
  · rfl
  · split
    · rfl
    · exact labels_walkCreating _ _

/-- Neither the last part of a path nor one of those in front of it holds a dot. -/
theorem dotless_parts (path : Text) : '.' ∉ (Text.splitOn '.' path).getLast?.getD [] ∧
    ∀ part ∈ (Text.splitOn '.' path).dropLast, '.' ∉ part := by
  refine ⟨?_,
    fun part hpart hdot => (Text.mem_of_mem_splitOn (List.dropLast_subset _ hpart) hdot).2 rfl⟩
  cases hlast : (Text.splitOn '.' path).getLast? with
  | none => exact List.not_mem_nil
  | some last => exact fun hdot => (Text.mem_of_mem_splitOn (List.mem_of_getLast? hlast) hdot).2 rfl

theorem dotless_ofName (name : Text) : '.' ∉ (LabelPath.ofName name).leaf ∧
    ∀ part ∈ (LabelPath.ofName name).modules, '.' ∉ part := by
  obtain ⟨hleaf, hfront⟩ := dotless_parts name
  unfold LabelPath.ofName
  dsimp only
  split
  · exact ⟨hleaf, fun part hpart => by cases hpart⟩
  next first more heq =>
    rw [heq] at hfront
    split
    · exact ⟨hleaf, fun part hpart => hfront part (List.mem_cons_of_mem _ hpart)⟩
    · exact ⟨hleaf, hfront⟩

/-- What a definition makes of a label that is there already. -/
def redefine (info : LabelDef) (label : Label) : Label :=
  { label with info := { info with location := info.location <|> label.info.location } }

theorem insert_apply (m : ModuleId) (leaf : Text) (info : LabelDef) (force : Bool) :
    insert m leaf info force t = match t.labelIn? m leaf with
      | some id =>
        if force then .ok id (t.modifyLabel id (redefine info))
        else .error (.redefined (((t.label? id).map Label.name).getD leaf)
          ((t.label? id).bind (·.info.location))) t
      | none => .ok t.labels.size (t.addLabel m leaf info) := by
  have hrun : insert m leaf info force t = (match t.labelIn? m leaf with
      | some id =>
        if force then (do set (t.modifyLabel id (redefine info)); return id : SymbolM LabelId)
        else throw (SymbolError.redefined (((t.label? id).map Label.name).getD leaf)
          ((t.label? id).bind (·.info.location)))
      | none => (do set (t.addLabel m leaf info); return t.labels.size : SymbolM LabelId)) t := rfl
  rw [hrun]
  cases t.labelIn? m leaf with
  | none => rfl
  | some id =>
    cases force with
    | false => rfl
    | true => rfl

/-- A label is what it was, or it is the one that was just defined. -/
theorem label?_insert {m : ModuleId} {leaf : Text} {force : Bool}
    (h : (stateAfter (insert m leaf info force) t).label? id = some label) :
    t.label? id = some label ∨
      (∃ t', insert m leaf info force t = .ok id t') ∧ label.info.flags = info.flags := by
  rw [stateAfter, insert_apply] at h
  rw [insert_apply]
  cases hin : t.labelIn? m leaf with
  | none =>
    rw [hin] at h
    replace h : (t.addLabel m leaf info).label? id = some label := h
    rw [label?_addLabel] at h
    split at h
    next hid =>
      cases h
      exact .inr ⟨⟨_, by rw [hid]⟩, rfl⟩
    next => exact .inl h
  | some id' =>
    rw [hin] at h
    cases force with
    | false => exact .inl h
    | true =>
      replace h : (t.modifyLabel id' (redefine info)).label? id = some label := h
      rw [label?_modifyLabel] at h
      split at h
      next hid =>
        obtain ⟨old, -, rfl⟩ := Option.map_eq_some_iff.1 h
        exact .inr ⟨⟨_, by rw [hid]; rfl⟩, rfl⟩
      next => exact .inl h

theorem define_apply (name : Text) (scope : Scope) (info : LabelDef) (force : Bool) :
    define name scope info force t = match checkName name with
      | .error e => .error e t
      | .ok () => insert (t.targetModule (LabelPath.ofName name) scope).1
          (LabelPath.ofName name).leaf info force
          (t.targetModule (LabelPath.ofName name) scope).2 := by
  rw [define]
  cases checkName name with
  | error e => rfl
  | ok u => rfl

theorem defineMember_apply (base : LabelId) (path : Text) (info : LabelDef) :
    defineMember base path info t = match t.label? base with
      | none => .error (.invalidName path) t
      | some owner =>
        let parts := Text.splitOn '.' path
        let (m, t') := t.walkCreating owner.home (owner.name :: parts.dropLast)
        insert m (parts.getLast?.getD []) info true t' := by
  have hrun : defineMember base path info t = (match t.label? base with
      | none => (throw (SymbolError.invalidName path) : SymbolM LabelId)
      | some owner => do
        let parts := Text.splitOn '.' path
        let m ← modifyGet (walkCreating · owner.home (owner.name :: parts.dropLast))
        insert m (parts.getLast?.getD []) info true) t := rfl
  rw [hrun]
  cases t.label? base with
  | none => rfl
  | some owner => rfl

namespace Coherent

variable {N : Text → Prop} (hdotless : ∀ name, '.' ∉ name → N name)

theorem steps_enterModule {m : ModuleId} (hm : m < t.modules.size) {name : Text} (hname : N name) :
    ReflTransGen (Step N) t (t.enterModule m name).2 := by
  cases hchild : t.child? m name with
  | some c => rw [enterModule_of_some t hchild]
  | none =>
    rw [enterModule_of_none t hchild]
    exact .single (.addedModule hm hname hchild)

theorem steps_insert {m : ModuleId} (hm : m < t.modules.size) {leaf : Text} (hleaf : '.' ∉ leaf)
    (info : LabelDef) (force : Bool) :
    ReflTransGen (Step N) t (stateAfter (Symbols.insert m leaf info force) t) := by
  rw [stateAfter, insert_apply]
  cases hin : t.labelIn? m leaf with
  | none => exact .single (.addedLabel hm hleaf hin info)
  | some id =>
    cases force with
    | false => exact .refl
    | true => exact .single (.annotated id (f := redefine info) (fun _ => rfl) fun _ => rfl)

variable (ht : t.Coherent)
include ht

theorem steps_walkCreating {base : ModuleId} (hbase : base < t.modules.size) {path : List Text}
    (hpath : ∀ name ∈ path, N name) : ReflTransGen (Step N) t (t.walkCreating base path).2 := by
  induction path generalizing t base with
  | nil => exact .refl
  | cons name path ih =>
    obtain ⟨hname, hrest⟩ := List.forall_mem_cons.1 hpath
    obtain ⟨hextends, hchild⟩ := ht.enterModule hbase name
    exact (steps_enterModule hbase hname).trans
      (ih hextends.coherent (hextends.coherent.child_lt hchild) hrest)

include hdotless

theorem steps_define {scope : Scope} (hhome : scope.home < t.modules.size) (name : Text)
    (info : LabelDef) (force : Bool) :
    ReflTransGen (Step N) t (stateAfter (define name scope info force) t) := by
  rw [stateAfter, define_apply]
  cases checkName name with
  | error e => exact .refl
  | ok u =>
    obtain ⟨hleaf, hmodules⟩ := dotless_ofName name
    have hsteps : ReflTransGen (Step N) t (t.targetModule (LabelPath.ofName name) scope).2 := by
      rcases ht.targetModule_cases (LabelPath.ofName name) hhome with
        ⟨m, _, heq⟩ | ⟨base, hbase, heq⟩
      · rw [heq]
      · rw [heq]
        exact ht.steps_walkCreating hbase fun name hname => hdotless name (hmodules name hname)
    exact hsteps.trans (steps_insert (ht.targetModule _ hhome).2 hleaf info force)

theorem steps_defineMember (base : LabelId)
    (hbase : ∀ {owner}, t.label? base = some owner → N owner.name) (path : Text) (info : LabelDef) :
    ReflTransGen (Step N) t (stateAfter (defineMember base path info) t) := by
  rw [stateAfter, defineMember_apply]
  cases howner : t.label? base with
  | none => exact .refl
  | some owner =>
    obtain ⟨hleaf, hfront⟩ := dotless_parts path
    have hhome := ht.home_lt howner
    have hsteps := ht.steps_walkCreating hhome (List.forall_mem_cons.2
      ⟨hbase howner, fun name hname => hdotless name (hfront name hname)⟩)
    exact hsteps.trans (steps_insert (ht.walkCreating_lt hhome _) hleaf info true)

end Coherent

theorem label?_define {name : Text} {scope : Scope} {force : Bool}
    (h : (stateAfter (define name scope info force) t).label? id = some label) :
    t.label? id = some label ∨
      (∃ t', define name scope info force t = .ok id t') ∧ label.info.flags = info.flags := by
  rw [stateAfter, define_apply] at h
  rw [define_apply]
  cases hname : checkName name with
  | error e =>
    rw [hname] at h
    exact .inl h
  | ok u =>
    rw [hname] at h
    have hlabels : (t.targetModule (LabelPath.ofName name) scope).2.label? id = t.label? id := by
      rw [label?, labels_targetModule]
      rfl
    rw [← hlabels]
    exact label?_insert h

theorem label?_defineMember {base : LabelId} {path : Text}
    (h : (stateAfter (defineMember base path info) t).label? id = some label) :
    t.label? id = some label ∨ label.info.flags = info.flags := by
  rw [stateAfter, defineMember_apply] at h
  cases hbase : t.label? base with
  | none =>
    rw [hbase] at h
    exact .inl h
  | some owner =>
    rw [hbase] at h
    have hlabels : ∀ path, (t.walkCreating owner.home path).2.label? id = t.label? id := by
      intro path
      rw [label?, labels_walkCreating]
      rfl
    rw [← hlabels (owner.name :: (Text.splitOn '.' path).dropLast)]
    rcases label?_insert h with hold | ⟨-, hflags⟩
    · exact .inl hold
    · exact .inr hflags

end Definition

/-! ## Names with their paths -/

section QualifiedName

variable {t t' : Symbols}

theorem modulePath_of_none {m : ModuleId} (h : (t.moduleAt m).parent = none) :
    t.modulePath m = (m, []) := by
  rw [modulePath, h]

theorem modulePath_of_some {m parent : ModuleId} (h : (t.moduleAt m).parent = some parent)
    (hlt : parent < m) : t.modulePath m =
      ((t.modulePath parent).1, (t.modulePath parent).2 ++ [(t.moduleAt m).name]) := by
  rw [modulePath, h]
  exact if_pos hlt

/-- The path of a module is told by names and parents, its own and those of older modules. -/
theorem modulePath_congr {m : ModuleId}
    (hname : ∀ m', m' ≤ m → (t'.moduleAt m').name = (t.moduleAt m').name)
    (hparent : ∀ m', m' ≤ m → (t'.moduleAt m').parent = (t.moduleAt m').parent) :
    t'.modulePath m = t.modulePath m := by
  induction m using Nat.strongRecOn with
  | _ m ih =>
    rw [modulePath, modulePath, hname m (Nat.le_refl m), hparent m (Nat.le_refl m)]
    cases (t.moduleAt m).parent with
    | none => rfl
    | some parent =>
      dsimp only
      split
      next hlt =>
        rw [ih parent hlt (fun m' hle => hname m' (Nat.le_trans hle (Nat.le_of_lt hlt)))
          fun m' hle => hparent m' (Nat.le_trans hle (Nat.le_of_lt hlt))]
      · rfl

theorem Extends.modulePath_eq (h : t.Extends t') {m : ModuleId} (hm : m < t.modules.size) :
    t'.modulePath m = t.modulePath m :=
  modulePath_congr (fun m' hle => h.name_eq m' (Nat.lt_of_le_of_lt hle hm))
    fun m' hle => h.parent_eq m' (Nat.lt_of_le_of_lt hle hm)

theorem Extends.qualifiedName_eq (h : t.Extends t') {label : Label}
    (hhome : label.home < t.modules.size) : t'.qualifiedName label = t.qualifiedName label := by
  rw [qualifiedName, qualifiedName, h.modulePath_eq hhome]

theorem qualifiedName_modifyLabel (id : LabelId) (f : Label → Label) (label : Label) :
    (t.modifyLabel id f).qualifiedName label = t.qualifiedName label := by
  have hpath : (t.modifyLabel id f).modulePath label.home = t.modulePath label.home :=
    modulePath_congr (fun _ _ => rfl) fun _ _ => rfl
  rw [qualifiedName, qualifiedName, hpath]

/-- A label with the same name and home has the same qualified name. -/
theorem qualifiedName_congr {label label' : Label} (hname : label'.name = label.name)
    (hhome : label'.home = label.home) : t.qualifiedName label' = t.qualifiedName label := by
  rw [qualifiedName, qualifiedName, hname, hhome]

namespace WellFormed

variable (ht : t.WellFormed)
include ht

/-- A path starts at a root, and its names hold no dots. -/
theorem modulePath_dotless {m : ModuleId} (hm : m < t.modules.size) :
    (t.modulePath m).1 < 3 ∧ ∀ name ∈ (t.modulePath m).2, '.' ∉ name := by
  induction m using Nat.strongRecOn with
  | _ m ih =>
    rcases Nat.lt_or_ge m 3 with hroot | hdeclared
    · rw [modulePath_of_none (ht.parent_root m hroot)]
      exact ⟨hroot, fun name hname => by cases hname⟩
    · obtain ⟨parent, hlt, hparent, -⟩ := ht.parent_declared m hdeclared hm
      obtain ⟨htop, hnames⟩ := ih parent hlt (Nat.lt_trans hlt hm)
      rw [modulePath_of_some hparent hlt]
      refine ⟨htop, fun name hname => ?_⟩
      rcases List.mem_append.1 hname with hname | hname
      · exact hnames name hname
      · rw [List.mem_singleton.1 hname]
        exact ht.name_dotless m hdeclared hm

/-- No two modules have the same path. -/
theorem modulePath_injective {m m' : ModuleId} (hm : m < t.modules.size)
    (hm' : m' < t.modules.size) (h : t.modulePath m = t.modulePath m') : m = m' := by
  induction m using Nat.strongRecOn generalizing m' with
  | _ m ih =>
    rcases Nat.lt_or_ge m 3 with hroot | hdeclared <;>
      rcases Nat.lt_or_ge m' 3 with hroot' | hdeclared'
    · rw [modulePath_of_none (ht.parent_root m hroot),
        modulePath_of_none (ht.parent_root m' hroot')] at h
      exact congrArg Prod.fst h
    · obtain ⟨parent', hlt', hparent', -⟩ := ht.parent_declared m' hdeclared' hm'
      rw [modulePath_of_none (ht.parent_root m hroot), modulePath_of_some hparent' hlt'] at h
      exact absurd (congrArg Prod.snd h).symm (List.concat_ne_nil _ _)
    · obtain ⟨parent, hlt, hparent, -⟩ := ht.parent_declared m hdeclared hm
      rw [modulePath_of_none (ht.parent_root m' hroot'), modulePath_of_some hparent hlt] at h
      exact absurd (congrArg Prod.snd h) (List.concat_ne_nil _ _)
    · obtain ⟨parent, hlt, hparent, hfiled⟩ := ht.parent_declared m hdeclared hm
      obtain ⟨parent', hlt', hparent', hfiled'⟩ := ht.parent_declared m' hdeclared' hm'
      rw [modulePath_of_some hparent hlt, modulePath_of_some hparent' hlt'] at h
      obtain ⟨htop, hnames⟩ := Prod.mk.inj h
      obtain ⟨hfront, hlast⟩ := List.append_inj' hnames rfl
      have hsame : parent = parent' := ih parent hlt (Nat.lt_trans hlt hm)
        (Nat.lt_trans hlt' hm') (Prod.ext htop hfront)
      -- both modules are filed under the same key of the same module
      rw [← hsame, ← List.singleton_inj.1 hlast, hfiled] at hfiled'
      exact Option.some.inj hfiled'

theorem qualifiedParts_dotless {id : LabelId} {label : Label} (h : t.label? id = some label) :
    ∀ part ∈ rootName (t.modulePath label.home).1 :: (t.modulePath label.home).2 ++ [label.name],
      '.' ∉ part := by
  have hroots : ∀ m < 3, '.' ∉ rootName m := by decide
  obtain ⟨htop, hnames⟩ := ht.modulePath_dotless (ht.home_lt h)
  intro part hpart
  rcases List.mem_append.1 hpart with hpart | hpart
  · rcases List.mem_cons.1 hpart with rfl | hpart
    · exact hroots _ htop
    · exact hnames part hpart
  · rw [List.mem_singleton.1 hpart]
    exact ht.leaf_dotless h

/-- **No two labels have the same qualified name.** -/
theorem qualifiedName_injective {i j : LabelId} {v w : Label} (hv : t.label? i = some v)
    (hw : t.label? j = some w) (h : t.qualifiedName v = t.qualifiedName w) : i = j := by
  have hinjective : ∀ m < 3, ∀ m' < 3, rootName m = rootName m' → m = m' := by decide
  -- the parts of the path can be read off the name, as none of them holds a dot
  have hparts : rootName (t.modulePath v.home).1 :: (t.modulePath v.home).2 ++ [v.name] =
      rootName (t.modulePath w.home).1 :: (t.modulePath w.home).2 ++ [w.name] :=
    Text.eq_of_intercalate_eq (by simp) (by simp) (ht.qualifiedParts_dotless hv)
      (ht.qualifiedParts_dotless hw) h
  obtain ⟨hfront, hleaf⟩ := List.append_inj' hparts rfl
  obtain ⟨hroot, hpath⟩ := List.cons.inj hfront
  have hhome : v.home = w.home := ht.modulePath_injective (ht.home_lt hv) (ht.home_lt hw)
    (Prod.ext (hinjective _ (ht.modulePath_dotless (ht.home_lt hv)).1 _
      (ht.modulePath_dotless (ht.home_lt hw)).1 hroot) hpath)
  have hfiled := ht.filed hv
  rw [hhome, List.singleton_inj.1 hleaf, ht.filed hw] at hfiled
  exact (Option.some.inj hfiled).symm

end WellFormed

end QualifiedName

end Symbols

/-- A step of a pass in the symbol tree keeps it well-formed, and nothing is lost. -/
theorem TreeStep.grows {scope : Scope} {t t' : Symbols} (h : TreeStep stage failing scope t t')
    (ht : t.WellFormed) (hhome : scope.home < t.modules.size) : t.Grows t' := by
  have hdefine := fun name info force =>
    ht.steps (ht.steps_define (fun _ => id) hhome name info force)
  cases h with
  | @defined _ name info force id hflags h =>
    rw [← stateAfter_of_ok h]
    exact hdefine name info force
  | @refused _ name info force e h =>
    rw [← stateAfter_of_error h]
    exact hdefine name info force
  | @placed t' name info id address h haddress =>
    rw [← stateAfter_of_ok h]
    exact (hdefine name info false).trans
      ((hdefine name info false).wellFormed.step (.annotated id (fun _ => rfl) fun _ => rfl))
  | @unsettled t' name info id h hkind =>
    rw [← stateAfter_of_ok h]
    exact (hdefine name info false).trans
      ((hdefine name info false).wellFormed.step (.annotated id (fun _ => rfl) fun _ => rfl))
  | @unplaced _ name info id h hfailing =>
    rw [← stateAfter_of_ok h]
    exact hdefine name info false
  | field hflags => exact ht.steps (ht.steps_defineMember (fun _ => id) _ ht.leaf_dotless _ _)
  | annotated hname hhome hinfo => exact ht.step (.annotated _ hname hhome)
  | imported => exact ht.step (.imported _ _)

/-! ## Through a pass -/

/-- A state whose tree is well-formed, and whose modules are in the tree. -/
structure State.Rooted (st : State) : Prop where
  wellFormed : st.symbols.WellFormed
  home_lt : st.home < st.symbols.modules.size
  homeStack_lt : ∀ m ∈ st.homeStack, m < st.symbols.modules.size

theorem State.rooted_initial (settings : Settings) (store : SourceStore)
    (diagnostics : Diagnostics) : (State.initial settings store diagnostics).Rooted where
  wellFormed := Symbols.wellFormed_empty settings.caseSensitive
  home_lt := Nat.lt_succ_self 2
  homeStack_lt m hm := by cases hm

/-- Every act keeps a state rooted, and its tree grows. -/
theorem Act.rooted {st st' : State} (h : Act stage failing st st') (hst : st.Rooted) :
    st'.Rooted ∧ st.symbols.Grows st'.symbols := by
  cases h with
  | control h =>
    have hsymbols : st'.symbols = st.symbols := congrArg Tracked.symbols h
    have hhome : st'.home = st.home := congrArg Tracked.home h
    have hstack : st'.homeStack = st.homeStack := congrArg Tracked.homeStack h
    refine ⟨⟨?_, ?_, ?_⟩, ?_⟩
    · rw [hsymbols]
      exact hst.wellFormed
    · rw [hsymbols, hhome]
      exact hst.home_lt
    · rw [hsymbols, hstack]
      exact hst.homeStack_lt
    · rw [hsymbols]
      exact hst.wellFormed.grows
  | tree h | declared _ h =>
    have hgrows := h.grows hst.wellFormed hst.home_lt
    refine ⟨⟨hgrows.wellFormed, Nat.lt_of_lt_of_le hst.home_lt hgrows.size_le, ?_⟩, hgrows⟩
    exact fun m hm => Nat.lt_of_lt_of_le (hst.homeStack_lt m hm) hgrows.size_le
  | @enter parent name hparent hname =>
    have hlt : parent < st.symbols.modules.size := by
      rcases hparent with rfl | rfl
      · exact hst.home_lt
      · exact Nat.lt_of_lt_of_le (Nat.zero_lt_succ 2) hst.wellFormed.three_le
    have hgrows :=
      hst.wellFormed.steps (Symbols.Coherent.steps_enterModule (N := ('.' ∉ ·)) hlt hname)
    have hentered := hgrows.coherent.child_lt (hst.wellFormed.toCoherent.enterModule hlt name).2
    refine ⟨⟨hgrows.wellFormed, hentered, fun m hm => ?_⟩, hgrows⟩
    rcases List.mem_cons.1 hm with rfl | hm
    · exact Nat.lt_of_lt_of_le hst.home_lt hgrows.size_le
    · exact Nat.lt_of_lt_of_le (hst.homeStack_lt m hm) hgrows.size_le
  | @leave home rest h =>
    have hstack := hst.homeStack_lt
    rw [h] at hstack
    refine ⟨⟨hst.wellFormed, hstack home List.mem_cons_self, ?_⟩, hst.wellFormed.grows⟩
    exact fun m hm => hstack m (List.mem_cons_of_mem _ hm)
  | _ => exact ⟨⟨hst.wellFormed, hst.home_lt, hst.homeStack_lt⟩, hst.wellFormed.grows⟩

/-- Every change keeps a state rooted, and its tree grows. -/
theorem Change.rooted {st st' : State} (h : Change stage failing st st') (hst : st.Rooted) :
    st'.Rooted ∧ st.symbols.Grows st'.symbols := by
  cases h with
  | act h => exact h.rooted hst
  | _ => exact ⟨⟨hst.wellFormed, hst.home_lt, hst.homeStack_lt⟩, hst.wellFormed.grows⟩

end MacroAssembler
