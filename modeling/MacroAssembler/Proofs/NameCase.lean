import MacroAssembler.Proofs.DefinitionErrors
import MacroAssembler.Proofs.Deferral
import MacroAssembler.Proofs.LetterCase

/-!
# Names and the case of letters

In an assembly that is not case-sensitive, names that differ in the case of letters only should be
the same name.  Case is folded in several places: in the keys that modules and labels are filed
under, and where the start of a path is recognised.  All of these fold alike.  So a path goes the
same way in both spellings, and the modules that a definition creates on the way are filed under the
same keys (`SameShape`).

There is one more place where letters are compared.  A name without a path is local if it starts
with the local mark, and there the letters count as they are written.  With a mark like `_` this
makes no difference.  With a mark that holds a letter, one spelling of a name may belong to the
module and the other to the whole program.
-/

namespace MacroAssembler

open Text LabelPath

namespace Text

/-! ## Folded texts -/

theorem isCaseIgnorable_toUpper (c : Char) : isCaseIgnorable c.toUpper = isCaseIgnorable c :=
  of_toUpper (by decide) c

theorem isCased_toUpper (c : Char) : isCased c.toUpper = isCased c :=
  of_toUpper (by decide) c

theorem startsCased_asciiUpper (text : Text) :
    startsCased (asciiUpper text) = startsCased text := by
  induction text with
  | nil => rfl
  | cons c text ih =>
    rw [asciiUpper, List.map_cons]
    unfold startsCased at ih ⊢
    rw [List.dropWhile_cons, List.dropWhile_cons, isCaseIgnorable_toUpper]
    split
    · exact ih
    · exact isCased_toUpper c

theorem lowerFrom_asciiUpper (before text : Text) :
    lowerFrom (asciiUpper before) (asciiUpper text) = lowerFrom before text := by
  have hsigma (c : Char) : (c.toUpper.toNat == 0x3A3) = (c.toNat == 0x3A3) :=
    of_toUpper (f := fun c => c.toNat == 0x3A3) (by decide) c
  have hchar (c : Char) : lowerChar c.toUpper = lowerChar c := of_toUpper (by decide) c
  induction text generalizing before with
  | nil => rfl
  | cons c text ih =>
    have hrest : lowerFrom (c.toUpper :: asciiUpper before) (asciiUpper text) =
        lowerFrom (c :: before) text := ih (c :: before)
    show lowerFrom _ (c.toUpper :: asciiUpper text) = _
    rw [lowerFrom, lowerFrom, hrest, hsigma, hchar, startsCased_asciiUpper, startsCased_asciiUpper]

theorem lowerText_asciiUpper (text : Text) : lowerText (asciiUpper text) = lowerText text :=
  lowerFrom_asciiUpper [] text

theorem asciiLower_asciiUpper (text : Text) : asciiLower (asciiUpper text) = asciiLower text := by
  rw [asciiLower, asciiUpper, List.map_map]
  exact List.map_congr_left fun c _ => toLower_toUpper c

theorem splitOn_asciiUpper {sep : Char} (hsep : sep.isAlpha = false) (text : Text) :
    splitOn sep (asciiUpper text) = (splitOn sep text).map asciiUpper := by
  induction text with
  | nil => rfl
  | cons c text ih =>
    have hcons : asciiUpper (c :: text) = c.toUpper :: asciiUpper text := rfl
    rw [hcons, splitOn, splitOn, ih]
    cases splitOn sep text with
    | nil => rfl
    | cons part parts =>
      simp only [List.map_cons]
      by_cases hc : c = sep
      · rw [if_pos hc, if_pos ((toUpper_eq_iff hsep).2 hc)]
        rfl
      · rw [if_neg hc, if_neg fun h => hc ((toUpper_eq_iff hsep).1 h)]
        rfl

end Text

theorem isValidName_asciiUpper (name : Text) :
    isValidName (Text.asciiUpper name) = isValidName name := by
  have hdigit (c : Char) : c.toUpper.isDigit = c.isDigit := of_toUpper (by decide) c
  have hinvalid (c : Char) : invalidNameChars.contains c.toUpper = invalidNameChars.contains c :=
    of_toUpper (by decide) c
  have hhead : (Text.asciiUpper name).head?.any Char.isDigit = name.head?.any Char.isDigit := by
    cases name with
    | nil => rfl
    | cons c name => exact hdigit c
  have hparts : ((Text.splitOn '.' name).map Text.asciiUpper).any List.isEmpty =
      (Text.splitOn '.' name).any List.isEmpty := by
    rw [List.any_map]
    congr 1
    funext part
    cases part <;> rfl
  have hchars : ((Text.asciiUpper name).all fun c => !invalidNameChars.contains c && !isBlank c) =
      name.all fun c => !invalidNameChars.contains c && !isBlank c := by
    rw [Text.asciiUpper, List.all_map]
    congr 1
    funext c
    rw [Function.comp_apply, hinvalid, isBlank_toUpper]
  rw [isValidName, isValidName, hhead, splitOn_asciiUpper rfl, hparts, hchars]

/-! ## Paths -/

namespace LabelPath

/-- The path in upper case. -/
def upper (path : LabelPath) : LabelPath :=
  ⟨path.start, path.modules.map Text.asciiUpper, Text.asciiUpper path.leaf⟩

theorem ofName_asciiUpper (name : Text) : ofName (Text.asciiUpper name) = (ofName name).upper := by
  have hstart (part : Text) : PathStart.ofPart (Text.asciiUpper part) = PathStart.ofPart part := by
    rw [PathStart.ofPart, PathStart.ofPart, asciiLower_asciiUpper]
  have hleaf : ((Text.splitOn '.' name).map Text.asciiUpper).getLast?.getD [] =
      Text.asciiUpper ((Text.splitOn '.' name).getLast?.getD []) := by
    rw [List.getLast?_map]
    cases (Text.splitOn '.' name).getLast? <;> rfl
  unfold ofName
  rw [splitOn_asciiUpper rfl]
  dsimp only
  rw [hleaf, ← List.map_dropLast]
  cases (Text.splitOn '.' name).dropLast with
  | nil => rfl
  | cons first more =>
    simp only [List.map_cons, hstart]
    cases PathStart.ofPart first <;> rfl

end LabelPath

/-! ## The way along a path -/

namespace Symbols

variable {t t' : Symbols}

theorem key_asciiUpper (hcase : t.caseSensitive = false) (name : Text) :
    t.key (Text.asciiUpper name) = t.key name := by
  rw [key, key, hcase, Text.nameKey, Text.nameKey]
  exact lowerText_asciiUpper name

theorem walk?_map_asciiUpper (hcase : t.caseSensitive = false) (base : ModuleId)
    (path : List Text) : t.walk? base (path.map Text.asciiUpper) = t.walk? base path := by
  have hchild (m : ModuleId) (name : Text) : t.child? m (Text.asciiUpper name) =
      t.child? m name := by
    rw [child?, child?, key_asciiUpper hcase]
  rw [walk?, walk?, List.foldlM_map]
  simp only [hchild]

/-- The same modules with the same children.  The names that the modules were created with may
differ. -/
structure SameShape (t t' : Symbols) : Prop where
  caseSensitive_eq : t'.caseSensitive = t.caseSensitive
  size_eq : t'.modules.size = t.modules.size
  children_eq : ∀ m, (t'.moduleAt m).children = (t.moduleAt m).children

theorem SameShape.refl (t : Symbols) : t.SameShape t :=
  ⟨rfl, rfl, fun _ => rfl⟩

theorem children_addModule (m : ModuleId) (name : Text) (m' : ModuleId) :
    ((t.addModule m name).moduleAt m').children =
      (if m' = t.modules.size then [] else (t.moduleAt m').children) ++
        if m = m' ∧ m' < t.modules.size + 1 then [(t.key name, t.modules.size)] else [] := by
  have hpush : (({ t with modules := t.modules.push { name := name, parent := some m } } :
      Symbols).moduleAt m').children =
        if m' = t.modules.size then [] else (t.moduleAt m').children := by
    simp only [moduleAt, Array.getD_eq_getD_getElem?, Array.getElem?_push]
    split
    · rfl
    · rfl
  rw [addModule, moduleAt_modifyModule, ← hpush, Array.size_push]
  split
  · rfl
  · rw [List.append_nil]

theorem SameShape.enterModule (h : t.SameShape t') {m : ModuleId} {name name' : Text}
    (hkey : t.key name' = t.key name) :
    (t'.enterModule m name').1 = (t.enterModule m name).1 ∧
      (t.enterModule m name).2.SameShape (t'.enterModule m name').2 := by
  have hkey' : t'.key name' = t.key name := by
    rw [← hkey, key_congr h.caseSensitive_eq]
  have hchild : t'.child? m name' = t.child? m name := by
    rw [child?, child?, h.children_eq, hkey']
  cases hfound : t.child? m name with
  | some c =>
    rw [enterModule_of_some t hfound, enterModule_of_some t' (hchild.trans hfound)]
    exact ⟨rfl, h⟩
  | none =>
    rw [enterModule_of_none t hfound, enterModule_of_none t' (hchild.trans hfound)]
    refine ⟨h.size_eq, h.caseSensitive_eq, ?_, fun m' => ?_⟩
    · rw [size_addModule, size_addModule, h.size_eq]
    · rw [children_addModule, children_addModule, h.size_eq, h.children_eq, hkey']

theorem SameShape.walkCreating (h : t.SameShape t') (hcase : t.caseSensitive = false)
    (base : ModuleId) (path : List Text) :
    (t'.walkCreating base (path.map Text.asciiUpper)).1 = (t.walkCreating base path).1 := by
  induction path generalizing t t' base with
  | nil => rfl
  | cons name path ih =>
    obtain ⟨hmodule, hshape⟩ := h.enterModule (m := base) (key_asciiUpper hcase name)
    have hcase' : (t.enterModule base name).2.caseSensitive = false := by
      rw [Symbols.enterModule]
      split
      · exact hcase
      · exact hcase
    rw [List.map_cons, walkCreating_cons, walkCreating_cons, hmodule]
    exact ih hshape hcase' _

/-! ## Names that differ in case -/

theorem key_of_sameIgnoringCase (hcase : t.caseSensitive = false) {a b : Text}
    (hsame : Text.sameIgnoringCase a b = true) : t.key a = t.key b := by
  rw [← key_asciiUpper hcase a, sameIgnoringCase_iff.1 hsame, key_asciiUpper hcase]

theorem labelIn?_asciiUpper (hcase : t.caseSensitive = false) (m : ModuleId) (leaf : Text) :
    t.labelIn? m (Text.asciiUpper leaf) = t.labelIn? m leaf := by
  rw [labelIn?, labelIn?, key_asciiUpper hcase]

/-- A path denotes the same label in upper case. -/
theorem resolve_asciiUpper (hcase : t.caseSensitive = false) {name : Text} (hdot : '.' ∈ name)
    (scope : Scope) : t.resolve (Text.asciiUpper name) scope = t.resolve name scope := by
  have hmodules := modules_ne_nil_of_dotted hdot
  rw [resolve, resolve, ofName_asciiUpper]
  generalize LabelPath.ofName name = path at hmodules ⊢
  obtain ⟨start, modules, leaf⟩ := path
  cases start with
  | some start => simp only [LabelPath.upper, walk?_map_asciiUpper hcase, labelIn?_asciiUpper hcase]
  | none =>
    cases modules with
    | nil => exact absurd rfl (hmodules rfl)
    | cons first more =>
      have hwalk := fun base => walk?_map_asciiUpper hcase base (first :: more)
      simp only [LabelPath.upper, List.map_cons] at hwalk ⊢
      simp only [hwalk, labelIn?_asciiUpper hcase]

/-- A definition at a path goes to the same module in upper case. -/
theorem targetModule_asciiUpper (hcase : t.caseSensitive = false) {name : Text} (hdot : '.' ∈ name)
    (scope : Scope) : (t.targetModule (LabelPath.ofName (Text.asciiUpper name)) scope).1 =
      (t.targetModule (LabelPath.ofName name) scope).1 := by
  have hmodules := modules_ne_nil_of_dotted hdot
  have hcreate (base : ModuleId) (path : List Text) :=
    (SameShape.refl t).walkCreating hcase base path
  rw [targetModule, targetModule, ofName_asciiUpper]
  generalize LabelPath.ofName name = path at hmodules ⊢
  obtain ⟨start, modules, leaf⟩ := path
  cases start with
  | some start => exact hcreate _ modules
  | none =>
    cases modules with
    | nil => exact absurd rfl (hmodules rfl)
    | cons first more =>
      have hwalk := fun base => walk?_map_asciiUpper hcase base (first :: more)
      simp only [LabelPath.upper, List.map_cons] at hwalk ⊢
      simp only [hwalk]
      cases (t.searchChain scope.home).findSome? (t.walk? · (first :: more)) with
      | some m => rfl
      | none => exact hcreate _ (first :: more)

theorem targetModule_undotted (t : Symbols) {name : Text} (hdot : '.' ∉ name) (scope : Scope) :
    (t.targetModule (LabelPath.ofName name) scope).1 = if scope.isLocal name then scope.home
      else global := by
  rw [targetModule, ofName_of_undotted hdot]

end Symbols

/-- A scope tells the names apart: they have no path, and one of them is local and the other is
not. -/
def Scope.Distinguishes (scope : Scope) (a b : Text) : Prop :=
  '.' ∉ a ∧ scope.isLocal a ≠ scope.isLocal b

theorem mem_iff_of_sameIgnoringCase {c : Char} (hc : c.isAlpha = false) {a b : Text}
    (hsame : Text.sameIgnoringCase a b = true) : c ∈ a ↔ c ∈ b := by
  have hupper (text : Text) : c ∈ Text.asciiUpper text ↔ c ∈ text := by
    rw [Text.asciiUpper, List.mem_map]
    constructor
    · rintro ⟨d, hd, heq⟩
      rwa [← (toUpper_eq_iff hc).1 heq]
    · exact fun h => ⟨c, h, (toUpper_eq_iff hc).2 rfl⟩
  rw [← hupper a, sameIgnoringCase_iff.1 hsame, hupper]

/-- Without letters in its mark, a scope tells no names apart that differ in case only. -/
theorem Scope.not_distinguishes {scope : Scope}
    (hmark : ∀ c ∈ scope.localMark, c.isAlpha = false) {a b : Text}
    (hsame : Text.sameIgnoringCase a b = true) : ¬ scope.Distinguishes a b := by
  have hupper : ∀ (mark text : Text), (∀ c ∈ mark, c.isAlpha = false) →
      mark.isPrefixOf (Text.asciiUpper text) = mark.isPrefixOf text := by
    intro mark text hmark
    induction mark generalizing text with
    | nil => simp [List.isPrefixOf]
    | cons c mark ih =>
      obtain ⟨hc, hmark⟩ := List.forall_mem_cons.1 hmark
      cases text with
      | nil => rfl
      | cons d text =>
        have hhead : (c == d.toUpper) = (c == d) := by
          rw [Bool.eq_iff_iff, beq_iff_eq, beq_iff_eq, eq_comm, toUpper_eq_iff hc, eq_comm]
        show (c == d.toUpper && mark.isPrefixOf (Text.asciiUpper text)) = _
        rw [hhead, ih text hmark]
        rfl
  rintro ⟨-, hne⟩
  refine hne ?_
  rw [isLocal, isLocal, ← hupper _ a hmark, sameIgnoringCase_iff.1 hsame, hupper _ b hmark]

namespace Symbols

variable {t : Symbols}

/-- **Names that differ in case only are one name, unless the local mark tells them apart.**  In a
tree that is not case-sensitive, two such names are valid or not alike, and have the same key.  If
the scope does not tell them apart, and it never does when its mark holds no letter, then they
denote the same label and are defined in the same module.  If it does, one of them is looked up and
defined in the module of the scope and the other one among the global labels, which is the same only
by chance. -/
theorem spellings_alike_iff (hcase : t.caseSensitive = false) {a b : Text}
    (hsame : Text.sameIgnoringCase a b = true) (scope : Scope) :
    isValidName a = isValidName b ∧
    t.key (LabelPath.ofName a).leaf = t.key (LabelPath.ofName b).leaf ∧
    (t.resolve a scope = t.resolve b scope ↔
      ¬ scope.Distinguishes a b ∨ t.localLabel? scope.home a = t.labelIn? global a) ∧
    ((t.targetModule (LabelPath.ofName a) scope).1 = (t.targetModule (LabelPath.ofName b) scope).1 ↔
      ¬ scope.Distinguishes a b ∨ scope.home = global) ∧
    ((∀ c ∈ scope.localMark, c.isAlpha = false) → ¬ scope.Distinguishes a b) := by
  have hupper := sameIgnoringCase_iff.1 hsame
  have hdots := mem_iff_of_sameIgnoringCase (c := '.') rfl hsame
  refine ⟨?_, ?_, ?_, ?_, fun hmark => Scope.not_distinguishes hmark hsame⟩
  · rw [← isValidName_asciiUpper a, hupper, isValidName_asciiUpper]
  · have hleaf : (LabelPath.ofName a).upper.leaf = (LabelPath.ofName b).upper.leaf := by
      rw [← ofName_asciiUpper, hupper, ofName_asciiUpper]
    exact (key_asciiUpper hcase _).symm.trans
      ((congrArg t.key hleaf).trans (key_asciiUpper hcase _))
  · by_cases hdot : '.' ∈ a
    · have hresolve : t.resolve a scope = t.resolve b scope := by
        rw [← resolve_asciiUpper hcase hdot, hupper, resolve_asciiUpper hcase (hdots.1 hdot)]
      exact iff_of_true hresolve (.inl fun h => h.1 hdot)
    · have hlabel (m : ModuleId) : t.labelIn? m b = t.labelIn? m a := by
        rw [labelIn?, labelIn?, key_of_sameIgnoringCase hcase hsame]
      have hlocal : t.localLabel? scope.home b = t.localLabel? scope.home a := by
        simp only [localLabel?, hlabel]
      rw [resolve_undotted t hdot, resolve_undotted t (mt hdots.2 hdot), hlocal, hlabel]
      cases ha : scope.isLocal a <;> cases hb : scope.isLocal b <;>
        simp [Scope.Distinguishes, hdot, ha, hb, eq_comm]
  · by_cases hdot : '.' ∈ a
    · have htarget : (t.targetModule (LabelPath.ofName a) scope).1 =
          (t.targetModule (LabelPath.ofName b) scope).1 := by
        rw [← targetModule_asciiUpper hcase hdot, hupper,
          targetModule_asciiUpper hcase (hdots.1 hdot)]
      exact iff_of_true htarget (.inl fun h => h.1 hdot)
    · rw [targetModule_undotted t hdot, targetModule_undotted t (mt hdots.2 hdot)]
      cases ha : scope.isLocal a <;> cases hb : scope.isLocal b <;>
        simp [Scope.Distinguishes, hdot, ha, hb, eq_comm]

/-- A label of an inner module, in two spellings of its path. -/
theorem spellings_alike_iff_innerModule :
    screenTree.resolve "This.GFX.width".toList ⟨3, ['_'], false⟩ = some 0 ∧
    screenTree.resolve "this.gfx.WIDTH".toList ⟨3, ['_'], false⟩ = some 0 := by
  have hcase : screenTree.caseSensitive = false := by decide +kernel
  have hsame : Text.sameIgnoringCase "This.GFX.width".toList "this.gfx.WIDTH".toList =
      true := by decide
  obtain ⟨-, -, hresolve, -, hmark⟩ := spellings_alike_iff hcase hsame ⟨3, ['_'], false⟩
  have hfirst : screenTree.resolve "This.GFX.width".toList ⟨3, ['_'], false⟩ =
      some 0 := by decide +kernel
  exact ⟨hfirst, (hresolve.2 (.inl (hmark (List.forall_mem_singleton.2 rfl)))).symm.trans hfirst⟩

/-- A module with a local label, in a scope whose local names start with the letter `l`. -/
def letteredTree : Symbols :=
  stateAfter (define "lx".toList ⟨3, ['l'], false⟩ { value := 1 } false)
    ((empty false).enterModule root "m".toList).2

/-- With a letter for the local mark, a label is not found under another spelling of its name, and a
definition under that spelling would go to another module. -/
theorem spelling_lost_letterMark : letteredTree.Built ∧ letteredTree.caseSensitive = false ∧
    Text.sameIgnoringCase "lx".toList "Lx".toList = true ∧
    letteredTree.resolve "lx".toList ⟨3, ['l'], false⟩ = some 0 ∧
    letteredTree.resolve "Lx".toList ⟨3, ['l'], false⟩ = none ∧
    (letteredTree.targetModule (LabelPath.ofName "lx".toList) ⟨3, ['l'], false⟩).1 = 3 ∧
    (letteredTree.targetModule (LabelPath.ofName "Lx".toList) ⟨3, ['l'], false⟩).1 = global := by
  refine ⟨⟨false, (Relation.ReflTransGen.single (.entered (by decide) _)).tail
    (.defined (by decide +kernel) _ _ _)⟩, ?_⟩
  decide +kernel

end Symbols

end MacroAssembler
