import Mathlib.Order.CompletePartialOrder
import Mathlib.Order.Interval.Set.Disjoint
import Mathlib.Data.List.Nodup
import Mathlib.Data.List.Pairwise
import Mathlib.Logic.Relation
import MacroAssembler.Proofs.Allocation
import MacroAssembler.Proofs.Passes
import MacroAssembler.Proofs.SymbolTree

/-!
# Where all variables of a program are placed

The permanent variables are placed first, then the temporary ones outside of all declared modules,
and then those of the declared modules, from the outside in.  Modules side by side start from the
same free space, so it takes some care to say what has been placed before a module.

Here the variables are put into groups, one for each of these steps, and every group but the first
comes right after exactly one other.  So the areas from which a group is placed are settled by the
groups on the way to it, however often the allocator comes back to them.  Two variables have
different places if the group of one is on the way to the group of the other, and these are just the
variables of which one is permanent or belongs to a module around the other's.
-/

namespace MacroAssembler

open Relation VarArea
variable {stage : Stage} {st st' : State} {failing : Prop} {draft : State}

/-! ## Declarations are labels -/

/-- The declared variables of a state are labels of its tree, each of them another one. -/
structure State.DeclaresLabels (st : State) : Prop where
  rooted : st.Rooted
  named : ∀ decl ∈ st.varDecls, ∃ id label, st.symbols.label? id = some label ∧
    decl.label = st.symbols.qualifiedName label
  home_lt : ∀ decl ∈ st.varDecls, decl.home < st.symbols.modules.size
  distinct : st.varDecls.Pairwise fun d d' => d.label ≠ d'.label

/-- Declarations stay what they are while the tree grows. -/
theorem State.DeclaresLabels.of_grows (hst : st.DeclaresLabels) (hrooted : st'.Rooted)
    (hgrows : st.symbols.Grows st'.symbols) (hdecls : st'.varDecls = st.varDecls) :
    st'.DeclaresLabels := by
  refine ⟨hrooted, ?_, ?_, ?_⟩
  · intro decl hdecl
    rw [hdecls] at hdecl
    obtain ⟨id, label, hlabel, hname⟩ := hst.named decl hdecl
    obtain ⟨label', hlabel', hname', hhome'⟩ := hgrows.label_eq hlabel
    refine ⟨id, label', hlabel', ?_⟩
    rw [Symbols.qualifiedName_congr hname' hhome',
      hgrows.qualifiedName_eq (hst.rooted.wellFormed.home_lt hlabel)]
    exact hname
  · intro decl hdecl
    rw [hdecls] at hdecl
    exact Nat.lt_of_lt_of_le (hst.home_lt decl hdecl) hgrows.size_le
  · rw [hdecls]
    exact hst.distinct

/-- A label that must be new is the last one. -/
theorem Symbols.eq_size_of_define {t t' : Symbols} {name : Text} {scope : Scope} {info : LabelDef}
    {id : LabelId} (h : define name scope info false t = .ok id t') :
    id = t.labels.size ∧ ∃ label, t'.label? id = some label ∧
      label.name = (LabelPath.ofName name).leaf ∧
      label.home = (t.targetModule (LabelPath.ofName name) scope).1 ∧ label.info = info := by
  rw [define_apply] at h
  cases hname : checkName name with
  | error e =>
    rw [hname] at h
    cases h
  | ok u =>
    rw [hname] at h
    dsimp only at h
    have hlabels := labels_targetModule (t := t) (LabelPath.ofName name) scope
    generalize t.targetModule (LabelPath.ofName name) scope = target at h hlabels
    obtain ⟨m, t₁⟩ := target
    dsimp only at h hlabels
    rw [insert_apply] at h
    cases hin : t₁.labelIn? m (LabelPath.ofName name).leaf with
    | some old =>
      rw [hin] at h
      cases h
    | none =>
      rw [hin] at h
      cases h
      rw [← hlabels]
      exact ⟨rfl, _, by rw [label?_addLabel, if_pos rfl], rfl, rfl, rfl⟩

theorem Act.declaresLabels (h : Act stage failing st st') (hst : st.DeclaresLabels) :
    st'.DeclaresLabels := by
  obtain ⟨hrooted, hgrows⟩ := h.rooted hst.rooted
  cases h with
  | control h =>
    have hdecls : st'.varDecls = st.varDecls := congrArg Tracked.varDecls h
    exact hst.of_grows hrooted hgrows hdecls
  | @declared t name info id value decl h htree hlabel hhome =>
    -- what was declared before, in the tree as it is now
    have hbefore : { st with symbols := t.setValue id value }.DeclaresLabels :=
      hst.of_grows ⟨hrooted.wellFormed, hrooted.home_lt, hrooted.homeStack_lt⟩ hgrows rfl
    obtain ⟨hid, label, hdefined, -⟩ := Symbols.eq_size_of_define h
    have hnew : (t.setValue id value).label? id =
        some { label with info := { label.info with value := value } } := by
      rw [Symbols.setValue, Symbols.label?_modifyLabel, if_pos rfl, hdefined]
      rfl
    have hname : decl.label = (t.setValue id value).qualifiedName
        { label with info := { label.info with value := value } } := by
      rw [hlabel, Symbols.qualifiedAt, hdefined, Symbols.setValue,
        Symbols.qualifiedName_modifyLabel]
      rfl
    refine ⟨hrooted, ?_, ?_, ?_⟩
    · intro decl' hdecl'
      rcases List.mem_append.1 hdecl' with hdecl' | hdecl'
      · exact hbefore.named decl' hdecl'
      · rw [List.mem_singleton.1 hdecl']
        exact ⟨id, _, hnew, hname⟩
    · intro decl' hdecl'
      rcases List.mem_append.1 hdecl' with hdecl' | hdecl'
      · exact hbefore.home_lt decl' hdecl'
      · rw [List.mem_singleton.1 hdecl', hhome]
        exact hrooted.home_lt
    · refine List.pairwise_append.2 ⟨hst.distinct, List.pairwise_singleton _ _, ?_⟩
      intro d hd d' hd' heq
      rw [List.mem_singleton.1 hd'] at heq
      -- the label is younger than all that were declared before
      obtain ⟨id', label', hlabel', hname'⟩ := hst.named d hd
      obtain ⟨label'', hlabel'', hname'', hhome''⟩ := hgrows.label_eq hlabel'
      have hsame : id' = id := by
        refine hrooted.wellFormed.qualifiedName_injective hlabel'' hnew ?_
        show (t.setValue id value).qualifiedName label'' = _
        rw [Symbols.qualifiedName_congr hname'' hhome'',
          hgrows.qualifiedName_eq (hst.rooted.wellFormed.home_lt hlabel'), ← hname', heq, hname]
      rw [hsame, hid, Symbols.label?, Array.getElem?_eq_none (Nat.le_refl _)] at hlabel'
      cases hlabel'
  | _ => exact hst.of_grows hrooted hgrows rfl

theorem Change.declaresLabels (h : Change stage failing st st') (hst : st.DeclaresLabels) :
    st'.DeclaresLabels := by
  cases h with
  | act h => exact h.declaresLabels hst
  | _ => exact ⟨⟨hst.rooted.wellFormed, hst.rooted.home_lt, hst.rooted.homeStack_lt⟩, hst.named,
      hst.home_lt, hst.distinct⟩

/-! ## Groups -/

/-- The step of a placement at which a variable is placed. -/
inductive VarGroup where
  | permanent
  /-- The temporary variables outside of all declared modules. -/
  | outside
  /-- The temporary variables of a declared module. -/
  | inside (m : ModuleId)
  deriving DecidableEq

namespace VarDecl

/-- The group that a variable is placed with. -/
def group (d : VarDecl) : VarGroup :=
  if d.isTemporary then
    if d.home ∈ Symbols.roots then .outside else .inside d.home
  else .permanent

/-- What the allocator is told of a variable. -/
def request (d : VarDecl) : VarRequest :=
  ⟨d.label, d.size⟩

end VarDecl

namespace VarGroup

/-- The variables of a group. -/
def requests (decls : List VarDecl) (g : VarGroup) : List VarRequest :=
  (decls.filter fun d => d.group = g).map VarDecl.request

theorem requests_permanent (decls : List VarDecl) :
    ((decls.filter (!·.isTemporary)).map fun d => ⟨d.label, d.size⟩) =
      permanent.requests decls := by
  rw [requests]
  refine congrArg _ (List.filter_congr fun d _ => ?_)
  cases htemporary : d.isTemporary <;> simp [VarDecl.group, htemporary]
  split <;> simp

theorem requests_outside (decls : List VarDecl) :
    temporariesIn decls Symbols.roots = outside.requests decls := by
  rw [requests, temporariesIn]
  refine congrArg _ (List.filter_congr fun d _ => ?_)
  by_cases hhome : d.home ∈ Symbols.roots
  · cases htemporary : d.isTemporary <;> simp [VarDecl.group, htemporary, hhome]
  · cases htemporary : d.isTemporary <;> simp [VarDecl.group, htemporary, hhome]

theorem requests_inside (decls : List VarDecl) {m : ModuleId} (hm : m ∉ Symbols.roots) :
    temporariesIn decls [m] = (inside m).requests decls := by
  rw [requests, temporariesIn]
  refine congrArg _ (List.filter_congr fun d _ => ?_)
  cases htemporary : d.isTemporary with
  | false => simp [VarDecl.group, htemporary]
  | true =>
    by_cases hhome : d.home ∈ Symbols.roots
    · have hne : d.home ≠ m := fun h => hm (h ▸ hhome)
      simp [VarDecl.group, htemporary, hhome, hne]
    · by_cases heq : d.home = m
      · simp [VarDecl.group, htemporary, heq, hm]
      · simp [VarDecl.group, htemporary, hhome, heq]

/-- One group is placed right before another. -/
inductive Precedes (t : Symbols) : VarGroup → VarGroup → Prop
  | outside : Precedes t permanent outside
  | top {r c : ModuleId} (hr : r ∈ Symbols.roots) (hc : c ∈ t.childrenOf r) :
      Precedes t outside (inside c)
  | child {m c : ModuleId} (hm : m ∉ Symbols.roots) (hc : c ∈ t.childrenOf m) :
      Precedes t (inside m) (inside c)

/-- No group is placed right after two others, because no module has two parents. -/
theorem Precedes.unique {t : Symbols} (ht : t.Coherent) {g g' h : VarGroup}
    (hg : g.Precedes t h) (hg' : g'.Precedes t h) : g = g' := by
  have hparent : ∀ {m m' c}, c ∈ t.childrenOf m → c ∈ t.childrenOf m' → m = m' := by
    intro m m' c hc hc'
    exact Option.some.inj ((ht.child_parent hc).2.symm.trans (ht.child_parent hc').2)
  cases hg with
  | outside =>
    cases hg'
    rfl
  | top hr hc =>
    cases hg' with
    | top _ _ => rfl
    | child hm hc' => exact absurd (hparent hc hc' ▸ hr) hm
  | child hm hc =>
    cases hg' with
    | top hr hc' => exact absurd (hparent hc' hc ▸ hr) hm
    | child _ hc' => rw [hparent hc hc']

theorem not_precedes_permanent {t : Symbols} {g : VarGroup} :
    ¬TransGen (Precedes t) g permanent := by
  intro h
  cases h with
  | single hlast => cases hlast
  | tail _ hlast => cases hlast

end VarGroup

namespace Symbols

/-- A module is the same as another one or around it.  The roots count as being around every
module. -/
def Encloses (t : Symbols) (m m' : ModuleId) : Prop :=
  m ∈ roots ∨ m = m' ∨ m ∈ t.ancestors m'

namespace Coherent

variable {t : Symbols} (ht : t.Coherent)
include ht

/-- Nothing is around a root. -/
theorem notMem_roots_of_mem_ancestors {m m' : ModuleId} (h : m' ∈ t.ancestors m) : m ∉ roots := by
  intro hmem
  rw [ancestors, ht.parent_root m (mem_roots_iff.1 hmem)] at h
  cases h

/-- A declared module is a child of its parent. -/
theorem exists_parent {m : ModuleId} (hroot : m ∉ roots) (hm : m < t.modules.size) :
    ∃ parent, parent < m ∧ m ∈ t.childrenOf parent ∧
      t.ancestors m = parent :: t.ancestors parent := by
  have hle : 3 ≤ m := Nat.le_of_not_lt fun h => hroot (mem_roots_iff.2 h)
  obtain ⟨parent, hlt, hparent, hfiled⟩ := ht.parent_declared m hle hm
  refine ⟨parent, hlt, ht.mem_childrenOf hfiled, ?_⟩
  rw [ancestors, hparent]
  exact if_pos hlt

/-- A child is younger than its parent, and not a root. -/
theorem child_declared {m c : ModuleId} (hc : c ∈ t.childrenOf m) :
    m < c ∧ c < t.modules.size ∧ c ∉ roots := by
  obtain ⟨hlt, hparent⟩ := ht.child_parent hc
  have hroot : c ∉ roots := by
    intro hmem
    rw [ht.parent_root c (mem_roots_iff.1 hmem)] at hparent
    cases hparent
  have hle : 3 ≤ c := Nat.le_of_not_lt fun h => hroot (mem_roots_iff.2 h)
  obtain ⟨parent, hyounger, heq, -⟩ := ht.parent_declared c hle hlt
  rw [hparent] at heq
  cases heq
  exact ⟨hyounger, hlt, hroot⟩

theorem temporaryScope_eq (decls : List VarDecl) (m : ModuleId) :
    temporaryScope t decls m =
      .node (temporariesIn decls [m]) ((t.childrenOf m).map (temporaryScope t decls)) := by
  have hfilter : ((t.childrenOf m).filter fun c => m < c && c < t.modules.size) =
      t.childrenOf m := by
    refine List.filter_eq_self.2 fun c hc => ?_
    obtain ⟨hyounger, hlt, -⟩ := ht.child_declared hc
    simp [hyounger, hlt]
  rw [temporaryScope, List.attach_map_val, hfilter]

end Coherent

end Symbols

namespace VarGroup

section Order

variable {t : Symbols} (ht : t.Coherent)
include ht

theorem precedes_inside {m : ModuleId} (hroot : m ∉ Symbols.roots) (hm : m < t.modules.size) :
    TransGen (Precedes t) outside (inside m) := by
  induction m using Nat.strongRecOn with
  | _ m ih =>
    obtain ⟨parent, hlt, hchild, -⟩ := ht.exists_parent hroot hm
    by_cases hparent : parent ∈ Symbols.roots
    · exact .single (.top hparent hchild)
    · exact (ih parent hlt hparent (Nat.lt_trans hlt hm)).tail (.child hparent hchild)

theorem precedes_of_ancestor {m m' : ModuleId} (hm : m < t.modules.size)
    (h : m' ∈ t.ancestors m) (hroot' : m' ∉ Symbols.roots) :
    TransGen (Precedes t) (inside m') (inside m) := by
  induction m using Nat.strongRecOn with
  | _ m ih =>
    obtain ⟨parent, hlt, hchild, hancestors⟩ :=
      ht.exists_parent (ht.notMem_roots_of_mem_ancestors h) hm
    rw [hancestors] at h
    rcases List.mem_cons.1 h with rfl | h
    · exact .single (.child hroot' hchild)
    · exact (ih parent hlt (Nat.lt_trans hlt hm) h).tail
        (.child (ht.notMem_roots_of_mem_ancestors h) hchild)

/-- Permanent variables are placed before or together with all others. -/
theorem precedes_of_permanent {d d' : VarDecl} (hd : d.isTemporary = false)
    (hhome' : d'.home < t.modules.size) : ReflTransGen (Precedes t) d.group d'.group := by
  have hgroup : d.group = permanent := by simp [VarDecl.group, hd]
  rw [hgroup, VarDecl.group]
  split
  · split
    · exact .single .outside
    next hroot => exact .head .outside (precedes_inside ht hroot hhome').to_reflTransGen
  · exact .refl

/-- Temporary variables are placed before or together with those of the modules inside of theirs. -/
theorem precedes_of_encloses {d d' : VarDecl} (hd : d.isTemporary = true)
    (hd' : d'.isTemporary = true) (hhome' : d'.home < t.modules.size)
    (h : t.Encloses d.home d'.home) : ReflTransGen (Precedes t) d.group d'.group := by
  simp only [VarDecl.group, hd, hd', if_true]
  by_cases hroot : d.home ∈ Symbols.roots
  · rw [if_pos hroot]
    split
    · exact .refl
    next hroot' => exact (precedes_inside ht hroot' hhome').to_reflTransGen
  · rw [if_neg hroot]
    rcases h with h | h | h
    · exact absurd h hroot
    · rw [← h, if_neg hroot]
    · rw [if_neg (ht.notMem_roots_of_mem_ancestors h)]
      exact (precedes_of_ancestor ht hhome' h hroot).to_reflTransGen

end Order

end VarGroup

/-! ## What has been placed before a group -/

section Starts

variable {t : Symbols} {decls : List VarDecl} {start : List VarArea}
variable {g : VarGroup} {own : List (Text × Nat)} {areas : List VarArea}

/-- The areas from which a group is placed. -/
inductive StartsIn (t : Symbols) (decls : List VarDecl) (start : List VarArea) :
    VarGroup → List VarArea → Prop
  | first : StartsIn t decls start .permanent start
  | next {g h : VarGroup} {areas after : List VarArea} {own : List (Text × Nat)}
      (hg : StartsIn t decls start g areas)
      (hown : VarArea.allocate (g.requests decls) areas = .ok own after)
      (hprecedes : g.Precedes t h) : StartsIn t decls start h after

theorem StartsIn.unique (ht : t.Coherent) {areas' : List VarArea}
    (h : StartsIn t decls start g areas) (h' : StartsIn t decls start g areas') :
    areas = areas' := by
  induction h generalizing areas' with
  | first =>
    cases h' with
    | first => rfl
    | next _ _ hprecedes => cases hprecedes
  | next hg hown hprecedes ih =>
    cases h' with
    | first => cases hprecedes
    | next hg' hown' hprecedes' =>
      cases hprecedes.unique ht hprecedes'
      cases ih hg'
      rw [hown] at hown'
      cases hown'
      rfl

/-- A group is placed, with these entries. -/
def Places (t : Symbols) (decls : List VarDecl) (start : List VarArea) (g : VarGroup)
    (own : List (Text × Nat)) : Prop :=
  ∃ areas after, StartsIn t decls start g areas ∧
    VarArea.allocate (g.requests decls) areas = .ok own after

theorem Places.unique (ht : t.Coherent) {own' : List (Text × Nat)} (h : Places t decls start g own)
    (h' : Places t decls start g own') : own = own' := by
  obtain ⟨areas, after, hstarts, hown⟩ := h
  obtain ⟨areas', after', hstarts', hown'⟩ := h'
  cases hstarts.unique ht hstarts'
  rw [hown] at hown'
  cases hown'
  rfl

theorem Places.names_perm (h : Places t decls start g own) :
    (own.map Prod.fst).Perm ((decls.filter fun d => d.group = g).map VarDecl.label) := by
  obtain ⟨areas, after, -, hown⟩ := h
  rw [names_allocate hown]
  have hperm := (VarRequest.largestFirst_perm (g.requests decls)).map VarRequest.name
  rwa [VarGroup.requests, List.map_map] at hperm

/-- A variable gets an address when its group is placed. -/
def Gets (t : Symbols) (decls : List VarDecl) (start : List VarArea) (d : VarDecl)
    (address : Nat) : Prop :=
  ∃ own, Places t decls start d.group own ∧ (d.label, address) ∈ own

variable (ht : t.Coherent) (hlabels : (decls.map VarDecl.label).Nodup)
include ht hlabels

omit ht in
/-- What is put down under the name of a variable is its place. -/
theorem mem_of_entry_mem {new : List Spot} (hperm : (new.map (·.var)).Perm (g.requests decls))
    {d : VarDecl} (hd : d ∈ decls) {address : Nat} (hmem : (d.label, address) ∈ new.map (·.entry)) :
    ⟨d.request, address⟩ ∈ new.map Spot.toPlacedVar := by
  obtain ⟨v, hv, hentry⟩ := List.mem_map.1 hmem
  obtain ⟨hname, haddress⟩ := Prod.mk.inj hentry
  obtain ⟨d', hd', hvar⟩ := List.mem_map.1 (hperm.mem_iff.1 (List.mem_map_of_mem hv))
  have hsame : d' = d := by
    refine List.inj_on_of_nodup_map hlabels (List.mem_filter.1 hd').1 hd ?_
    rw [← hname, ← hvar]
    rfl
  rw [← hsame, hvar, ← haddress]
  exact List.mem_map_of_mem hv

/-- The variables of a group are placed behind those that were placed before. -/
theorem StartsIn.allocate {after : List VarArea} (h : StartsIn t decls start g areas)
    (hown : VarArea.allocate (g.requests decls) areas = .ok own after) {placed : List Spot}
    (hfilled : VarArea.Filled areas placed) : ∃ new, VarArea.Filled after (new ++ placed) ∧
      after.map VarArea.bounds = areas.map VarArea.bounds ∧
      ∀ d ∈ decls, d.group = g → ∀ address, Gets t decls start d address →
        ⟨d.request, address⟩ ∈ new.map Spot.toPlacedVar := by
  obtain ⟨new, hperm, hentries, hfilled', hbounds⟩ := hfilled.allocate hown
  refine ⟨new, hfilled', hbounds, fun d hd hgroup address hgets => ?_⟩
  obtain ⟨own', hplaces, hmem⟩ := hgets
  rw [hgroup] at hplaces
  cases hplaces.unique ht ⟨areas, after, h, hown⟩
  rw [← hentries] at hmem
  exact mem_of_entry_mem hlabels hperm hd hmem

/-- When a group has been placed, it has its places together with the groups on the way to it. -/
theorem StartsIn.filled (hstart : VarArea.Filled start []) {after : List VarArea}
    (h : StartsIn t decls start g areas)
    (hown : VarArea.allocate (g.requests decls) areas = .ok own after) :
    ∃ placed, VarArea.Filled after placed ∧ after.map VarArea.bounds = start.map VarArea.bounds ∧
      ∀ d ∈ decls, ReflTransGen (VarGroup.Precedes t) d.group g → ∀ address,
        Gets t decls start d address → ⟨d.request, address⟩ ∈ placed.map Spot.toPlacedVar := by
  induction h generalizing own after with
  | first =>
    obtain ⟨new, hfilled, hbounds, hnew⟩ := StartsIn.first.allocate ht hlabels hown hstart
    refine ⟨new ++ [], hfilled, hbounds, fun d hd hbefore address hgets => ?_⟩
    rw [List.append_nil]
    rcases reflTransGen_iff_eq_or_transGen.1 hbefore with hsame | hbefore
    · exact hnew d hd hsame.symm address hgets
    · exact absurd hbefore VarGroup.not_precedes_permanent
  | @next g h areas mid own' hg hown' hprecedes ih =>
    obtain ⟨placed, hfilled, hbounds, hplaced⟩ := ih hown'
    obtain ⟨new, hfilled', hbounds', hnew⟩ :=
      (hg.next hown' hprecedes).allocate ht hlabels hown hfilled
    refine ⟨new ++ placed, hfilled', hbounds'.trans hbounds, fun d hd hbefore address hgets => ?_⟩
    rw [List.map_append]
    cases hbefore with
    | refl => exact List.mem_append_left _ (hnew d hd rfl address hgets)
    | tail hbefore hlast =>
      cases hlast.unique ht hprecedes
      exact List.mem_append_right _ (hplaced d hd hbefore address hgets)

section Apart

variable (hstart : VarArea.Filled start [])
include hstart

theorem Gets.inside {d : VarDecl} (hd : d ∈ decls) {address : Nat}
    (h : Gets t decls start d address) :
    ∃ area ∈ start, area.start ≤ address ∧ address + d.size ≤ area.start + area.size := by
  obtain ⟨own, ⟨areas, after, hstarts, hown⟩, -⟩ := id h
  obtain ⟨placed, hfilled, hbounds, hplaced⟩ := hstarts.filled ht hlabels hstart hown
  obtain ⟨v, hv, heq⟩ := List.mem_map.1 (hplaced d hd .refl address h)
  obtain ⟨area, harea, hinside⟩ := hfilled.inside hbounds hv
  rw [heq] at hinside
  exact ⟨area, List.mem_of_getElem? harea, hinside⟩

/-- **A variable overlaps none of a group on the way to its own, and none of its own group.** -/
theorem Gets.disjoint (hareas : start.Pairwise fun a b => Disjoint a.extent b.extent)
    {d d' : VarDecl} (hd : d ∈ decls) (hd' : d' ∈ decls) (hne : d ≠ d')
    (hbefore : ReflTransGen (VarGroup.Precedes t) d.group d'.group) {address address' : Nat}
    (h : Gets t decls start d address) (h' : Gets t decls start d' address') :
    Disjoint (Set.Ico address (address + d.size)) (Set.Ico address' (address' + d'.size)) := by
  obtain ⟨own, ⟨areas, after, hstarts, hown⟩, -⟩ := id h'
  obtain ⟨placed, hfilled, hbounds, hplaced⟩ := hstarts.filled ht hlabels hstart hown
  have hmem := hplaced d hd hbefore address h
  have hmem' := hplaced d' hd' .refl address' h'
  have hsymm : Std.Symm fun v w : PlacedVar => Disjoint v.extent w.extent :=
    ⟨fun _ _ hdisjoint => hdisjoint.symm⟩
  have hapart : (placed.map Spot.toPlacedVar).Pairwise fun v w => Disjoint v.extent w.extent :=
    List.pairwise_map.2 (hfilled.disjoint hbounds hareas)
  refine hapart.forall hmem hmem' fun heq => hne ?_
  exact List.inj_on_of_nodup_map hlabels hd hd' (congrArg (fun v => v.var.name) heq)

end Apart

end Starts

/-! ## The allocator comes to every group -/

namespace VarArea

theorem exists_of_allocateScoped {vars : List VarRequest} {children : List TempScope}
    {areas areas' : List VarArea} {entries : List (Text × Nat)}
    (h : allocateScoped (.node vars children) areas = .ok entries areas') :
    ∃ own after inner, allocate vars areas = .ok own after ∧
      allocateSiblings children after = .ok inner areas' ∧ entries = own ++ inner := by
  rw [allocateScoped] at h
  obtain ⟨own, after, hown, h⟩ := bind_eq_ok h
  obtain ⟨inner, areas₂, hinner, h⟩ := bind_eq_ok h
  cases h
  exact ⟨own, after, inner, hown, hinner, rfl⟩

/-- Modules side by side are all placed from the same areas. -/
theorem allocateSiblings_spec {children : List TempScope} {areas areas' : List VarArea}
    {entries : List (Text × Nat)} (h : allocateSiblings children areas = .ok entries areas') :
    (∀ child ∈ children, ∃ own after, allocateScoped child areas = .ok own after ∧
      own ⊆ entries) ∧
    ∀ entry ∈ entries, ∃ child ∈ children, ∃ own after,
      allocateScoped child areas = .ok own after ∧ entry ∈ own := by
  induction children generalizing entries areas' with
  | nil =>
    cases h
    constructor
    · intro child hchild
      cases hchild
    · intro entry hentry
      cases hentry
  | cons child children ih =>
    rw [allocateSiblings] at h
    obtain ⟨before, areas₁, hget, h⟩ := bind_eq_ok h
    cases hget
    obtain ⟨own, areas₂, hown, h⟩ := bind_eq_ok h
    obtain ⟨u, areas₃, hset, h⟩ := bind_eq_ok h
    cases hset
    obtain ⟨rest, areas₄, hrest, h⟩ := bind_eq_ok h
    cases h
    obtain ⟨hall, hfrom⟩ := ih hrest
    constructor
    · intro child' hchild'
      rcases List.mem_cons.1 hchild' with rfl | hchild'
      · exact ⟨own, areas₂, hown, List.subset_append_left _ _⟩
      · obtain ⟨own', after, hrun, hsub⟩ := hall child' hchild'
        exact ⟨own', after, hrun, fun e he => List.mem_append_right _ (hsub he)⟩
    · intro entry hentry
      rcases List.mem_append.1 hentry with hentry | hentry
      · exact ⟨child, List.mem_cons_self, own, areas₂, hown, hentry⟩
      · obtain ⟨child', hchild', hrun⟩ := hfrom entry hentry
        exact ⟨child', List.mem_cons_of_mem _ hchild', hrun⟩

end VarArea

section Runs

variable {t : Symbols} {decls : List VarDecl} {start : List VarArea} (ht : t.Coherent)
include ht

/-- Whatever is put down for a declared module and those inside of it comes from one of their
groups. -/
theorem places_of_mem_scope {m : ModuleId} (hroot : m ∉ Symbols.roots) {areas after : List VarArea}
    (hstarts : StartsIn t decls start (.inside m) areas) {entries : List (Text × Nat)}
    (hrun : VarArea.allocateScoped (temporaryScope t decls m) areas = .ok entries after)
    {entry : Text × Nat} (hentry : entry ∈ entries) :
    ∃ g own, Places t decls start g own ∧ entry ∈ own := by
  -- children are younger than their parents, and there are only so many modules
  induction hn : t.modules.size - m using Nat.strongRecOn generalizing m areas after entries with
  | _ n ih =>
    rw [ht.temporaryScope_eq, VarGroup.requests_inside decls hroot] at hrun
    obtain ⟨own, mid, inner, hown, hinner, rfl⟩ := exists_of_allocateScoped hrun
    rcases List.mem_append.1 hentry with hentry | hentry
    · exact ⟨.inside m, own, ⟨areas, mid, hstarts, hown⟩, hentry⟩
    · obtain ⟨child, hchild, own', after', hrun', hentry'⟩ :=
        (allocateSiblings_spec hinner).2 entry hentry
      obtain ⟨c, hc, rfl⟩ := List.mem_map.1 hchild
      obtain ⟨hyounger, hlt, hroot'⟩ := ht.child_declared hc
      refine ih (t.modules.size - c) ?_ hroot' (hstarts.next hown (.child hroot hc)) hrun' hentry'
        rfl
      rw [← hn]
      exact Nat.sub_lt_sub_left (Nat.lt_trans hyounger hlt) hyounger

/-- A successful placement, step by step: the permanent variables, the temporary ones outside of all
declared modules, and those of the declared modules. -/
structure Placement (t : Symbols) (decls : List VarDecl) (start : List VarArea) where
  own : List (Text × Nat)
  outer : List (Text × Nat)
  inner : List (Text × Nat)
  mid : List VarArea
  after : List VarArea
  last : List VarArea
  own_run : VarArea.allocate (VarGroup.permanent.requests decls) start = .ok own mid
  outer_run : VarArea.allocate (VarGroup.outside.requests decls) mid = .ok outer after
  inner_run : VarArea.allocateSiblings
    ((Symbols.roots.flatMap t.childrenOf).map (temporaryScope t decls)) after = .ok inner last

namespace Placement

variable (p : Placement t decls start)

/-- All that was put down. -/
def entries : List (Text × Nat) :=
  p.own ++ (p.outer ++ p.inner)

omit ht in
theorem places_permanent : Places t decls start .permanent p.own :=
  ⟨start, p.mid, .first, p.own_run⟩

omit ht in
theorem startsIn_outside : StartsIn t decls start .outside p.mid :=
  .next .first p.own_run .outside

omit ht in
theorem startsIn_top {r c : ModuleId} (hr : r ∈ Symbols.roots) (hc : c ∈ t.childrenOf r) :
    StartsIn t decls start (.inside c) p.after :=
  p.startsIn_outside.next p.outer_run (.top hr hc)

/-- Every entry comes from a group. -/
theorem places_of_mem {entry : Text × Nat} (hentry : entry ∈ p.entries) :
    ∃ g own, Places t decls start g own ∧ entry ∈ own := by
  rcases List.mem_append.1 hentry with hentry | hentry
  · exact ⟨_, p.own, p.places_permanent, hentry⟩
  rcases List.mem_append.1 hentry with hentry | hentry
  · exact ⟨_, p.outer, ⟨p.mid, p.after, p.startsIn_outside, p.outer_run⟩, hentry⟩
  · obtain ⟨child, hchild, own, after, hrun, hentry'⟩ :=
      (allocateSiblings_spec p.inner_run).2 entry hentry
    obtain ⟨c, hc, rfl⟩ := List.mem_map.1 hchild
    obtain ⟨r, hr, hc⟩ := List.mem_flatMap.1 hc
    exact places_of_mem_scope ht (ht.child_declared hc).2.2 (p.startsIn_top hr hc) hrun hentry'

/-- The allocator comes to every declared module. -/
theorem exists_scope {m : ModuleId} (hroot : m ∉ Symbols.roots) (hm : m < t.modules.size) :
    ∃ areas after own, StartsIn t decls start (.inside m) areas ∧
      VarArea.allocateScoped (temporaryScope t decls m) areas = .ok own after ∧
      own ⊆ p.entries := by
  induction m using Nat.strongRecOn with
  | _ m ih =>
    obtain ⟨parent, hlt, hchild, -⟩ := ht.exists_parent hroot hm
    by_cases hparent : parent ∈ Symbols.roots
    · obtain ⟨own, after, hrun, hsub⟩ := (allocateSiblings_spec p.inner_run).1 _
        (List.mem_map_of_mem (List.mem_flatMap.2 ⟨parent, hparent, hchild⟩))
      refine ⟨p.after, after, own, p.startsIn_top hparent hchild, hrun, ?_⟩
      intro e he
      exact List.mem_append_right _ (List.mem_append_right _ (hsub he))
    · obtain ⟨areas, after, own, hstarts, hrun, hsub⟩ :=
        ih parent hlt hparent (Nat.lt_trans hlt hm)
      rw [ht.temporaryScope_eq, VarGroup.requests_inside decls hparent] at hrun
      obtain ⟨own', mid, inner, hown, hinner, rfl⟩ := exists_of_allocateScoped hrun
      obtain ⟨own'', after'', hrun', hsub'⟩ := (allocateSiblings_spec hinner).1 _
        (List.mem_map_of_mem hchild)
      refine ⟨mid, after'', own'', hstarts.next hown (.child hparent hchild), hrun', ?_⟩
      intro e he
      exact hsub (List.mem_append_right _ (hsub' he))

/-- The group of every variable is placed. -/
theorem exists_places {d : VarDecl} (hhome : d.home < t.modules.size) :
    ∃ own, Places t decls start d.group own ∧ own ⊆ p.entries := by
  rw [VarDecl.group]
  split
  · split
    · refine ⟨p.outer, ⟨p.mid, p.after, p.startsIn_outside, p.outer_run⟩, fun e he => ?_⟩
      exact List.mem_append_right _ (List.mem_append_left _ he)
    next hroot =>
      obtain ⟨areas, after, placed, hstarts, hrun, hsub⟩ := p.exists_scope ht hroot hhome
      rw [ht.temporaryScope_eq, VarGroup.requests_inside decls hroot] at hrun
      obtain ⟨own, mid, inner, hown, -, rfl⟩ := exists_of_allocateScoped hrun
      exact ⟨own, ⟨areas, mid, hstarts, hown⟩, fun e he => hsub (List.mem_append_left _ he)⟩
  · exact ⟨p.own, p.places_permanent, fun e he => List.mem_append_left _ he⟩

/-- What is found under a name is the place of a variable with that label. -/
theorem gets_of_lookup {name : Text} {address : Nat}
    (h : (Index.ofEntries p.entries).lookup name = some address) :
    ∃ d ∈ decls, d.label = name ∧ Gets t decls start d address := by
  rw [Index.lookup_ofEntries] at h
  obtain ⟨front, back, hsplit, -⟩ := List.lookup_eq_some_iff.1 h
  have hmem : (name, address) ∈ p.entries := by
    rw [← List.mem_reverse, hsplit]
    simp
  obtain ⟨g, own, hplaces, hmem⟩ := p.places_of_mem ht hmem
  have hlabel : name ∈ (decls.filter fun d => d.group = g).map VarDecl.label :=
    hplaces.names_perm.mem_iff.1 (List.mem_map_of_mem (f := Prod.fst) hmem)
  obtain ⟨d, hd, rfl⟩ := List.mem_map.1 hlabel
  obtain ⟨hdecl, hgroup⟩ := List.mem_filter.1 hd
  rw [← of_decide_eq_true hgroup] at hplaces
  exact ⟨d, hdecl, rfl, own, hplaces, hmem⟩

/-- **Every variable is found under its label.** -/
theorem exists_lookup {d : VarDecl} (hd : d ∈ decls) (hhome : d.home < t.modules.size) :
    ∃ address, (Index.ofEntries p.entries).lookup d.label = some address := by
  obtain ⟨own, hplaces, hsub⟩ := p.exists_places ht hhome
  have hname : d.label ∈ own.map Prod.fst := by
    refine hplaces.names_perm.mem_iff.2 (List.mem_map_of_mem (List.mem_filter.2 ⟨hd, ?_⟩))
    exact decide_eq_true rfl
  obtain ⟨entry, hentry, hfst⟩ := List.mem_map.1 hname
  rw [Index.lookup_ofEntries]
  refine Option.ne_none_iff_exists'.1 fun hnone => ?_
  have hne := List.lookup_eq_none_iff.1 hnone entry (List.mem_reverse.2 (hsub hentry))
  rw [hfst] at hne
  simp at hne

end Placement

end Runs

/-- The placement behind the addresses of the variables of a program. -/
theorem exists_placement_of_placeVariables {allocation : Index Nat}
    (h : placeVariables draft = .ok allocation) :
    ∃ p : Placement draft.symbols draft.varDecls draft.varAreas,
      allocation = Index.ofEntries p.entries := by
  obtain ⟨own, temporary, areas, areas', hown, htemporary, rfl⟩ := allocations_of_placeVariables h
  rw [VarGroup.requests_permanent] at hown
  rw [temporaryScopes, VarGroup.requests_outside] at htemporary
  obtain ⟨outer, after, inner, houter, hinner, rfl⟩ := exists_of_allocateScoped htemporary
  exact ⟨⟨own, outer, inner, areas, after, areas', hown, houter, hinner⟩, rfl⟩

/-- No pass uses the areas that it declares. -/
theorem Change.areas_unused (h : Change stage failing st st')
    (hst : ∀ area ∈ st.varAreas, area.used = 0) : ∀ area ∈ st'.varAreas, area.used = 0 := by
  cases h with
  | act h =>
    cases h with
    | control h =>
      have hareas : st'.varAreas = st.varAreas := congrArg Tracked.varAreas h
      rw [hareas]
      exact hst
    | area start size =>
      intro area harea
      rcases List.mem_append.1 harea with harea | harea
      · exact hst area harea
      · rw [List.mem_singleton.1 harea]
    | _ => exact hst
  | _ => exact hst

/-- What a pass has declared, at its end. -/
theorem declaresLabels_of_settleSource {main : Nat} {settings : Settings} {store : SourceStore}
    {diagnostics : Diagnostics}
    (h : PassM.settleSource main stage (State.initial settings store diagnostics) = .ok () draft) :
    draft.DeclaresLabels ∧ ∀ area ∈ draft.varAreas, area.used = 0 := by
  have hsteps := Assembler.steps_of_settleSource h
  constructor
  · refine keeps_of_steps (P := State.DeclaresLabels) (fun _ _ hstep => hstep.declaresLabels)
      hsteps ⟨State.rooted_initial _ _ _, ?_, ?_, .nil⟩
    · intro decl hdecl
      cases hdecl
    · intro decl hdecl
      cases hdecl
  · refine keeps_of_steps (P := fun st => ∀ area ∈ st.varAreas, area.used = 0)
      (fun _ _ hstep => hstep.areas_unused) hsteps ?_
    intro area harea
    cases harea

/-- What is known of the variables of a program once they have been placed: every declaration has an
address, which it gets when its group is placed, inside of an area and away from the groups on the
way there. -/
structure Settled (draft : State) (allocation : Index Nat) : Prop where
  declares : draft.DeclaresLabels
  gets : ∀ {name address}, allocation.lookup name = some address →
    ∃ d ∈ draft.varDecls, d.label = name ∧
      Gets draft.symbols draft.varDecls draft.varAreas d address
  found : ∀ d ∈ draft.varDecls, ∃ address, allocation.lookup d.label = some address
  inside : ∀ {d address}, d ∈ draft.varDecls →
    Gets draft.symbols draft.varDecls draft.varAreas d address →
    ∃ area ∈ draft.varAreas, area.start ≤ address ∧ address + d.size ≤ area.start + area.size
  disjoint : ∀ {d d' address address'}, d ∈ draft.varDecls → d' ∈ draft.varDecls → d ≠ d' →
    ReflTransGen (VarGroup.Precedes draft.symbols) d.group d'.group →
    Gets draft.symbols draft.varDecls draft.varAreas d address →
    Gets draft.symbols draft.varDecls draft.varAreas d' address' →
    Disjoint (Set.Ico address (address + d.size)) (Set.Ico address' (address' + d'.size))

theorem settled_of_settleSource {main : Nat} {settings : Settings} {store : SourceStore}
    {diagnostics : Diagnostics} {allocation : Index Nat}
    (hdraft : PassM.settleSource main stage
      (State.initial settings store diagnostics) = .ok () draft)
    (hareas : draft.varAreas.Pairwise fun a b => Disjoint a.extent b.extent)
    (h : placeVariables draft = .ok allocation) : Settled draft allocation := by
  obtain ⟨hdecls, hunused⟩ := declaresLabels_of_settleSource hdraft
  obtain ⟨p, rfl⟩ := exists_placement_of_placeVariables h
  have ht : draft.symbols.Coherent := hdecls.rooted.wellFormed.toCoherent
  have hlabels : (draft.varDecls.map VarDecl.label).Nodup :=
    List.pairwise_map.2 hdecls.distinct
  have hstart : VarArea.Filled draft.varAreas [] := filled_nil fun area harea => by
    rw [hunused area harea]
    exact Nat.zero_le _
  exact ⟨hdecls, p.gets_of_lookup ht, fun d hd => p.exists_lookup ht hd (hdecls.home_lt d hd),
    fun hd hgets => hgets.inside ht hlabels hstart hd,
    fun hd hd' hne hbefore hgets hgets' =>
      hgets.disjoint ht hlabels hstart hareas hd hd' hne hbefore hgets'⟩

/-- **All variables are placed, and apart from each other.**  Take any state that a pass over the
sources leaves, with areas that do not overlap, and suppose that its variables can be placed.  Then
every declaration is found under the qualified name of its label, and lies inside of one area.  Two
of them share an address only if both are temporary and neither was declared in a module around the
other's, or in the same. -/
theorem declarations_placed_apart {stage : Stage} {main : Nat} {settings : Settings}
    {store : SourceStore} {diagnostics : Diagnostics} {draft : State} {allocation : Index Nat}
    (hdraft : PassM.settleSource main stage (State.initial settings store diagnostics) =
      .ok () draft)
    (hareas : draft.varAreas.Pairwise fun a b => Disjoint a.extent b.extent)
    (h : placeVariables draft = .ok allocation) :
    (∀ d ∈ draft.varDecls,
      (∃ id label, draft.symbols.label? id = some label ∧
        d.label = draft.symbols.qualifiedName label) ∧
      ∃ address, allocation.lookup d.label = some address ∧
        ∃ area ∈ draft.varAreas, area.start ≤ address ∧
          address + d.size ≤ area.start + area.size) ∧
    draft.varDecls.Pairwise fun d d' => ∀ address address',
      allocation.lookup d.label = some address → allocation.lookup d'.label = some address' →
      ¬Disjoint (Set.Ico address (address + d.size)) (Set.Ico address' (address' + d'.size)) →
      d.isTemporary = true ∧ d'.isTemporary = true ∧
        ¬draft.symbols.Encloses d.home d'.home ∧ ¬draft.symbols.Encloses d'.home d.home := by
  have hsettled := settled_of_settleSource hdraft hareas h
  have hdecls := hsettled.declares
  have ht : draft.symbols.Coherent := hdecls.rooted.wellFormed.toCoherent
  have hgets {d : VarDecl} {address : Nat} (hd : d ∈ draft.varDecls)
      (hlookup : allocation.lookup d.label = some address) :
      Gets draft.symbols draft.varDecls draft.varAreas d address := by
    obtain ⟨d', hd', hlabel, hgets⟩ := hsettled.gets hlookup
    cases List.inj_on_of_nodup_map (List.pairwise_map.2 hdecls.distinct) hd' hd hlabel
    exact hgets
  constructor
  · intro d hd
    obtain ⟨address, hlookup⟩ := hsettled.found d hd
    exact ⟨hdecls.named d hd, address, hlookup, hsettled.inside hd (hgets hd hlookup)⟩
  refine hdecls.distinct.imp_of_mem ?_
  intro d d' hd hd' hne address address' hlookup hlookup' hoverlap
  have hne : d ≠ d' := fun heq => hne (congrArg VarDecl.label heq)
  have hg := hgets hd hlookup
  have hg' := hgets hd' hlookup'
  -- if one group were on the way to the other, then the two would be apart
  have hafter {d d' : VarDecl} (hhome' : d'.home < draft.symbols.modules.size)
      (happart : ¬ReflTransGen (VarGroup.Precedes draft.symbols) d.group d'.group) :
      d.isTemporary = true ∧ (d'.isTemporary = true → ¬draft.symbols.Encloses d.home d'.home) := by
    have htemporary : d.isTemporary = true := by
      by_contra hpermanent
      exact happart
        (VarGroup.precedes_of_permanent ht (Bool.eq_false_of_not_eq_true hpermanent) hhome')
    exact ⟨htemporary, fun htemporary' hencloses =>
      happart (VarGroup.precedes_of_encloses ht htemporary htemporary' hhome' hencloses)⟩
  obtain ⟨htemporary, happart⟩ := hafter (hdecls.home_lt d' hd') fun hbefore =>
    hoverlap (hsettled.disjoint hd hd' hne hbefore hg hg')
  obtain ⟨htemporary', happart'⟩ := hafter (hdecls.home_lt d hd) fun hbefore =>
    hoverlap (hsettled.disjoint hd' hd hne.symm hbefore hg' hg).symm
  exact ⟨htemporary, htemporary', happart htemporary', happart' htemporary⟩

namespace Assembler

/-- A program with temporary variables in two modules side by side. -/
def sharedTemporaries : Assembler :=
  ofSource (" .varloc $8000, 16\n .var 2, kept\n .tvar 1, top\n .module A\n .tvar 3, _a\n" ++
    " .endmodule\n .module B\n .tvar 3, _b\n .endmodule\n")

/-- Whether four variables were declared in areas that do not overlap, and the last two of them got
the same address. -/
def Passes.lastTwoShare {a : Assembler} {path : Text} (p : Passes a path) : Bool :=
  decide (p.draft.varAreas.Pairwise fun a b => Disjoint a.extent b.extent) &&
    (p.draft.varDecls.map fun d => p.allocation.lookup d.label) ==
      [some 0x8000, some 0x8002, some 0x8003, some 0x8003]

theorem declarations_placed_apart_sharedTemporaries :
    ∃ p : Passes sharedTemporaries "main".toList,
      (p.draft.varDecls.map fun d => p.allocation.lookup d.label) =
        [some 0x8000, some 0x8002, some 0x8003, some 0x8003] ∧
      p.draft.varDecls.Pairwise fun d d' => ∀ address address',
        p.allocation.lookup d.label = some address →
        p.allocation.lookup d'.label = some address' →
        ¬Disjoint (Set.Ico address (address + d.size)) (Set.Ico address' (address' + d'.size)) →
        d.isTemporary = true ∧ d'.isTemporary = true ∧
          ¬p.draft.symbols.Encloses d.home d'.home ∧
          ¬p.draft.symbols.Encloses d'.home d.home := by
  have hrun : sharedTemporaries.assemblesBy Passes.lastTwoShare = true := by decide +kernel
  obtain ⟨output, a', h, p, hyields, hp⟩ := exists_of_assemblesBy hrun
  rw [Passes.lastTwoShare, Bool.and_eq_true, decide_eq_true_eq, beq_iff_eq] at hp
  exact ⟨p, hp.2, (declarations_placed_apart p.draft_eq hp.1 p.place_eq).2⟩

end Assembler

end MacroAssembler
