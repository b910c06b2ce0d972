import Mathlib.Algebra.GroupWithZero.Nat
import Mathlib.Order.CompletePartialOrder
import Mathlib.Order.Interval.Set.Disjoint
import MacroAssembler.Assembly
import MacroAssembler.Proofs.Follows

/-!
# Where variables are placed

A variable is put at the start of what is free in the first of the areas with the most free space
(`place_cases`), and an allocation does this one variable after the other (`Packs`).  Areas fill up
from their start, so what has been placed in an area lies in its used part, and the next variable
lies behind that.  If the areas do not overlap, then no two variables do.
-/

namespace MacroAssembler

namespace VarRequest

theorem insert_perm (var : VarRequest) (vars : List VarRequest) :
    (insert var vars).Perm (var :: vars) := by
  induction vars with
  | nil => exact .refl _
  | cons first rest ih =>
    rw [insert]
    split
    · exact .refl _
    · exact (ih.cons first).trans (.swap var first rest)

/-- Putting variables in order loses none of them. -/
theorem largestFirst_perm (vars : List VarRequest) : (largestFirst vars).Perm vars := by
  have hfold : ∀ (vars sorted : List VarRequest),
      (vars.foldl (fun sorted var => insert var sorted) sorted).Perm (vars ++ sorted) := by
    intro vars
    induction vars with
    | nil => exact fun sorted => .refl _
    | cons var vars ih =>
      intro sorted
      exact (ih _).trans (((insert_perm var sorted).append_left vars).trans List.perm_middle)
  have hperm := hfold vars []
  rwa [List.append_nil] at hperm

end VarRequest

/-- The addresses of an area. -/
def VarArea.extent (area : VarArea) : Set Nat :=
  Set.Ico area.start (area.start + area.size)

/-- The area ends below the limit of 32 bits. -/
def VarArea.FitsWord (area : VarArea) : Prop :=
  area.start + area.size ≤ 2 ^ 32

instance (area : VarArea) : Decidable area.FitsWord :=
  inferInstanceAs (Decidable (_ ≤ _))

instance (a b : VarArea) : Decidable (Disjoint a.extent b.extent) :=
  decidable_of_iff (min (a.start + a.size) (b.start + b.size) ≤ max a.start b.start)
    Set.Ico_disjoint_Ico.symm

/-- A variable, and the address where it was placed. -/
structure PlacedVar where
  var : VarRequest
  address : Nat

namespace PlacedVar

/-- The addresses of a variable. -/
def extent (placed : PlacedVar) : Set Nat :=
  Set.Ico placed.address (placed.address + placed.var.size)

/-- What is put down of a variable when it has been placed. -/
def entry (placed : PlacedVar) : Text × Nat :=
  (placed.var.name, placed.address)

/-- A variable lies in the used part of an area. -/
def LiesIn (placed : PlacedVar) (area : VarArea) : Prop :=
  area.start ≤ placed.address ∧ placed.address + placed.var.size ≤ area.start + area.used

end PlacedVar

/-- A variable that was placed, and the number of its area. -/
structure Spot extends PlacedVar where
  area : Nat

namespace VarArea

variable {areas after : List VarArea} {spot : Spot} {area : VarArea} {spots placed : List Spot}
    {entries : List (Text × Nat)} {vars : List VarRequest}

/-! ## Placing one variable -/

theorem mostFree_cons (area : VarArea) (areas : List VarArea) :
    mostFree (area :: areas) = max area.free (mostFree areas) := by
  rw [mostFree, List.map_cons, List.foldl_cons, Nat.zero_max, mostFree]
  have hfold : ∀ (sizes : List Nat) (n : Nat), sizes.foldl max n = max n (sizes.foldl max 0) := by
    intro sizes
    induction sizes with
    | nil => exact fun n => (Nat.max_zero n).symm
    | cons size sizes ih =>
      intro n
      rw [List.foldl_cons, List.foldl_cons, ih, ih (max 0 size), Nat.zero_max, Nat.max_assoc]
  exact hfold _ _

theorem free_le_mostFree (h : area ∈ areas) : area.free ≤ mostFree areas := by
  induction areas with
  | nil => cases h
  | cons first rest ih =>
    rw [mostFree_cons]
    rcases List.mem_cons.1 h with rfl | h
    · exact Nat.le_max_left _ _
    · exact (ih h).trans (Nat.le_max_right _ _)

/-- The largest free space is that of some area, if there is any. -/
theorem exists_free_eq_mostFree (areas : List VarArea) :
    (areas = [] ∧ mostFree areas = 0) ∨ ∃ area ∈ areas, area.free = mostFree areas := by
  induction areas with
  | nil => exact .inl ⟨rfl, rfl⟩
  | cons first rest ih =>
    refine .inr ?_
    rw [mostFree_cons]
    rcases Nat.le_total (mostFree rest) first.free with hle | hle
    · exact ⟨first, List.mem_cons_self, (Nat.max_eq_left hle).symm⟩
    · rw [Nat.max_eq_right hle]
      rcases ih with ⟨-, hzero⟩ | ⟨area, harea, hfree⟩
      · exact ⟨first, List.mem_cons_self, by omega⟩
      · exact ⟨area, List.mem_cons_of_mem _ harea, hfree⟩

/-- An area of which some more bytes are used. -/
def grow (area : VarArea) (size : Nat) : VarArea :=
  { area with used := area.used + size }

/-- A variable stands at the start of what is free in the first of the areas with the most free
space, and it fits there. -/
structure Fits (areas : List VarArea) (spot : Spot) (area : VarArea) : Prop where
  area_eq : areas[spot.area]? = some area
  address_eq : spot.address = area.start + area.used
  size_le : spot.var.size ≤ area.free
  most : ∀ other ∈ areas, other.free ≤ area.free
  first : ∀ i other, i < spot.area → areas[i]? = some other → other.free < area.free

theorem take_cases (size left : Nat) (areas : List VarArea) :
    (∃ i area, areas[i]? = some area ∧ area.free = left ∧
      (∀ j other, j < i → areas[j]? = some other → other.free ≠ left) ∧
      take size left areas = some (area.start + area.used, areas.set i (area.grow size))) ∨
    (∀ area ∈ areas, area.free ≠ left) := by
  induction areas with
  | nil => exact .inr (List.forall_mem_nil _)
  | cons first rest ih =>
    rw [take]
    by_cases hfirst : first.free = left
    · refine .inl ⟨0, first, rfl, hfirst, ?_, if_pos hfirst⟩
      exact fun j other hj => absurd hj (Nat.not_lt_zero j)
    · rcases ih with ⟨i, area, harea, hfree, hbefore, htake⟩ | hnone
      · refine .inl ⟨i + 1, area, harea, hfree, fun j other hj hother => ?_, ?_⟩
        · cases j with
          | zero =>
            cases hother
            exact hfirst
          | succ j => exact hbefore j other (Nat.lt_of_succ_lt_succ hj) hother
        · rw [if_neg hfirst, htake]
          rfl
      · exact .inr (List.forall_mem_cons.2 ⟨hfirst, hnone⟩)

theorem place_apply (var : VarRequest) (areas : List VarArea) : place var areas =
    (match if var.size ≤ mostFree areas then take var.size (mostFree areas) areas else none with
    | some (address, areas) => (do set areas; return (var.name, address) : AreaM (Text × Nat))
    | none => throw (SymbolError.allocationFailed var.name var.size (mostFree areas))) areas :=
  rfl

/-- **A variable is placed where it fits, or it is larger than what is free in every area.** -/
theorem place_cases (var : VarRequest) (areas : List VarArea) :
    (∃ spot : Spot, ∃ area, spot.var = var ∧ Fits areas spot area ∧
      place var areas = .ok spot.entry (areas.set spot.area (area.grow var.size))) ∨
    ((∀ area ∈ areas, area.free < var.size) ∧
      place var areas = .error (.allocationFailed var.name var.size (mostFree areas)) areas) := by
  rw [place_apply]
  by_cases hsize : var.size ≤ mostFree areas
  · rw [if_pos hsize]
    rcases take_cases var.size (mostFree areas) areas with
      ⟨i, area, harea, hfree, hbefore, htake⟩ | hnone
    · rw [htake]
      refine .inl ⟨⟨⟨var, area.start + area.used⟩, i⟩, area, rfl, ?_, rfl⟩
      refine ⟨harea, rfl, hfree ▸ hsize, fun other => hfree ▸ free_le_mostFree, ?_⟩
      intro j other hj hother
      have hle := free_le_mostFree (List.mem_of_getElem? hother)
      exact hfree ▸ Nat.lt_of_le_of_ne hle (hbefore j other hj hother)
    · rcases exists_free_eq_mostFree areas with ⟨rfl, hzero⟩ | ⟨area, harea, hfree⟩
      · exact .inr ⟨List.forall_mem_nil _, rfl⟩
      · exact absurd hfree (hnone area harea)
  · rw [if_neg hsize]
    refine .inr ⟨fun area harea => ?_, rfl⟩
    exact Nat.lt_of_le_of_lt (free_le_mostFree harea) (Nat.not_le.1 hsize)

/-! ## Placing one variable after the other -/

/-- Variables have been placed where they fit, one after the other. -/
inductive Packs : List VarArea → List Spot → List VarArea → Prop
  | nil (areas : List VarArea) : Packs areas [] areas
  | cons {areas after : List VarArea} {spot : Spot} {area : VarArea} {spots : List Spot}
      (hspot : Fits areas spot area)
      (hrest : Packs (areas.set spot.area (area.grow spot.var.size)) spots after) :
      Packs areas (spot :: spots) after

/-- Variables are placed one behind the other, up to the first one that is too large. -/
theorem mapM_place_cases (vars : List VarRequest) (areas : List VarArea) :
    ∃ spots rest after, Packs areas spots after ∧ vars = spots.map (·.var) ++ rest ∧
      ((rest = [] ∧ vars.mapM place areas = .ok (spots.map (·.entry)) after) ∨
        ∃ var later, rest = var :: later ∧ (∀ area ∈ after, area.free < var.size) ∧
          vars.mapM place areas =
            .error (.allocationFailed var.name var.size (mostFree after)) after) := by
  induction vars generalizing areas with
  | nil => exact ⟨[], [], areas, .nil areas, rfl, .inl ⟨rfl, rfl⟩⟩
  | cons var vars ih =>
    rw [List.mapM_cons]
    rcases place_cases var areas with ⟨spot, area, rfl, hfits, hplace⟩ | ⟨hlarge, hplace⟩
    · obtain ⟨spots, rest, after, hpacks, rfl, hrun⟩ :=
        ih (areas.set spot.area (area.grow spot.var.size))
      rw [bind_of_ok hplace]
      refine ⟨spot :: spots, rest, after, .cons hfits hpacks, rfl, ?_⟩
      rcases hrun with ⟨rfl, hrun⟩ | ⟨var, later, rfl, hlarge, hrun⟩
      · refine .inl ⟨rfl, ?_⟩
        rw [bind_of_ok hrun]
        rfl
      · refine .inr ⟨var, later, rfl, hlarge, ?_⟩
        rw [bind_of_error hrun]
    · refine ⟨[], var :: vars, areas, .nil areas, rfl, .inr ⟨var, vars, rfl, hlarge, ?_⟩⟩
      rw [bind_of_error hplace]

/-- An allocation that succeeds has placed all variables, from the largest one on. -/
theorem packs_of_allocate (hrun : allocate vars areas = .ok entries after) :
    ∃ spots, Packs areas spots after ∧ VarRequest.largestFirst vars = spots.map (·.var) ∧
      entries = spots.map (·.entry) := by
  obtain ⟨spots, rest, after', hpacks, hvars, ⟨rfl, hrun'⟩ | ⟨var, later, -, -, hrun'⟩⟩ :=
    mapM_place_cases (VarRequest.largestFirst vars) areas
  · cases hrun.symm.trans hrun'
    exact ⟨spots, hpacks, hvars.trans (List.append_nil _), rfl⟩
  · cases hrun.symm.trans hrun'

theorem names_allocate (hrun : allocate vars areas = .ok entries after) :
    entries.map Prod.fst = (VarRequest.largestFirst vars).map VarRequest.name := by
  obtain ⟨spots, -, hvars, rfl⟩ := packs_of_allocate hrun
  rw [hvars, List.map_map, List.map_map]
  rfl

/-! ## What has been placed -/

/-- Some variables have been placed, each in the used part of its area and away from the others
there. -/
structure Filled (areas : List VarArea) (placed : List Spot) : Prop where
  used_le : ∀ area ∈ areas, area.used ≤ area.size
  liesIn : ∀ v ∈ placed, ∃ area, areas[v.area]? = some area ∧ v.LiesIn area
  apart : placed.Pairwise fun v w => v.area = w.area → Disjoint v.extent w.extent

/-- Areas that have not been used yet. -/
theorem filled_nil (hused : ∀ area ∈ areas, area.used ≤ area.size) : Filled areas [] :=
  ⟨hused, List.forall_mem_nil _, .nil⟩

/-- **A variable that is placed next lies behind those that were placed in its area before.** -/
theorem Filled.step (h : Filled areas placed) (hspot : Fits areas spot area) :
    Filled (areas.set spot.area (area.grow spot.var.size)) (spot :: placed) := by
  have hused := h.used_le area (List.mem_of_getElem? hspot.area_eq)
  have hsize := hspot.size_le
  rw [free] at hsize
  have hlt : spot.area < areas.length := (List.getElem?_eq_some_iff.1 hspot.area_eq).1
  refine ⟨fun b hb => ?_, List.forall_mem_cons.2 ⟨⟨_, List.getElem?_set_self hlt, ?_⟩,
    fun w hw => ?_⟩, List.pairwise_cons.2 ⟨fun w hw heq => ?_, h.apart⟩⟩
  · rcases List.mem_or_eq_of_mem_set hb with hb | rfl
    · exact h.used_le b hb
    · dsimp only [grow]
      omega
  · rw [PlacedVar.LiesIn, hspot.address_eq]
    dsimp only [grow]
    omega
  · obtain ⟨b, hb, hlies⟩ := h.liesIn w hw
    by_cases heq : spot.area = w.area
    · rw [← heq, hspot.area_eq] at hb
      cases hb
      refine ⟨area.grow spot.var.size, heq ▸ List.getElem?_set_self hlt, hlies.1, hlies.2.trans ?_⟩
      dsimp only [grow]
      omega
    · exact ⟨b, (List.getElem?_set_ne heq).trans hb, hlies⟩
  · obtain ⟨b, hb, hlies⟩ := h.liesIn w hw
    rw [← heq, hspot.area_eq] at hb
    cases hb
    refine Set.disjoint_left.2 fun x hx hx' => ?_
    have hlow := (Set.mem_Ico.1 hx).1
    have hhigh := (Set.mem_Ico.1 hx').2
    have hend := hlies.2
    have haddress := hspot.address_eq
    omega

theorem Filled.perm {placed' : List Spot} (h : Filled areas placed) (hperm : placed.Perm placed') :
    Filled areas placed' where
  used_le := h.used_le
  liesIn v hv := h.liesIn v (hperm.mem_iff.2 hv)
  apart := hperm.pairwise h.apart fun hdisjoint heq => (hdisjoint heq.symm).symm

theorem Packs.filled (h : Packs areas spots after) (hfilled : Filled areas placed) :
    Filled after (spots ++ placed) := by
  induction h generalizing placed with
  | nil areas => exact hfilled
  | cons hspot _ ih => exact (ih (hfilled.step hspot)).perm List.perm_middle

/-- Where an area starts, and how long it is. -/
def bounds (area : VarArea) : Nat × Nat :=
  (area.start, area.size)

theorem Packs.bounds_eq (h : Packs areas spots after) : after.map bounds = areas.map bounds := by
  induction h with
  | nil areas => rfl
  | @cons areas after spot area spots hspot hrest ih =>
    rw [ih, List.map_set]
    refine List.ext_getElem? fun i => ?_
    by_cases heq : spot.area = i
    · have hlt : spot.area < areas.length := (List.getElem?_eq_some_iff.1 hspot.area_eq).1
      rw [← heq, List.getElem?_set_self (by rwa [List.length_map]),
        List.getElem?_map, hspot.area_eq]
      rfl
    · rw [List.getElem?_set_ne heq]

/-- An allocation places its variables behind those that were placed before, in areas that stay
where they are. -/
theorem Filled.allocate (h : Filled areas placed) (hrun : allocate vars areas = .ok entries after) :
    ∃ new : List Spot, (new.map (·.var)).Perm vars ∧ new.map (·.entry) = entries ∧
      Filled after (new ++ placed) ∧ after.map bounds = areas.map bounds := by
  obtain ⟨new, hpacks, hvars, rfl⟩ := packs_of_allocate hrun
  exact ⟨new, hvars ▸ VarRequest.largestFirst_perm vars, rfl, hpacks.filled h, hpacks.bounds_eq⟩

section Start

variable {start : List VarArea} (h : Filled areas placed) (hbounds : areas.map bounds =
  start.map bounds)
include h hbounds

/-- Every variable that has been placed lies inside of the area that there was at first. -/
theorem Filled.inside {v : Spot} (hv : v ∈ placed) : ∃ area, start[v.area]? = some area ∧
    area.start ≤ v.address ∧ v.address + v.var.size ≤ area.start + area.size := by
  obtain ⟨area', harea', hlow, hhigh⟩ := h.liesIn v hv
  have hused := h.used_le area' (List.mem_of_getElem? harea')
  have hmem := congrArg (·[v.area]?) hbounds
  simp only [List.getElem?_map, harea', Option.map_some] at hmem
  obtain ⟨area, harea, heq⟩ := Option.map_eq_some_iff.1 hmem.symm
  obtain ⟨hstart, hsize⟩ := Prod.mk.inj heq
  refine ⟨area, harea, ?_, ?_⟩
  · rw [hstart]
    exact hlow
  · rw [hstart, hsize]
    omega

/-- **If the areas do not overlap, then no two variables do.** -/
theorem Filled.disjoint (hdisjoint : start.Pairwise fun a b => Disjoint a.extent b.extent) :
    placed.Pairwise fun v w => Disjoint v.extent w.extent := by
  refine h.apart.imp_of_mem fun {v w} hv hw happart => ?_
  obtain ⟨a, ha, halow, hahigh⟩ := h.inside hbounds hv
  obtain ⟨b, hb, hblow, hbhigh⟩ := h.inside hbounds hw
  by_cases heq : v.area = w.area
  · exact happart heq
  · have hareas : Disjoint a.extent b.extent := by
      obtain ⟨hi, rfl⟩ := List.getElem?_eq_some_iff.1 ha
      obtain ⟨hj, rfl⟩ := List.getElem?_eq_some_iff.1 hb
      rcases Nat.lt_or_gt_of_ne heq with hlt | hlt
      · exact List.pairwise_iff_getElem.1 hdisjoint _ _ hi hj hlt
      · exact (List.pairwise_iff_getElem.1 hdisjoint _ _ hj hi hlt).symm
    exact hareas.mono (Set.Ico_subset_Ico halow hahigh) (Set.Ico_subset_Ico hblow hbhigh)

end Start

end VarArea

/-! ## Looking an address up -/

namespace Index

variable {α : Type}

theorem lookup_put (index : Index α) (name query : Text) (value : α) :
    (index.put name value).lookup query =
      if query = name then some value else index.lookup query := by
  induction index with
  | nil =>
    rw [put, List.lookup_cons, List.lookup_nil]
    split
    next h => rw [if_pos (beq_iff_eq.1 h)]
    next h => rw [if_neg (beq_eq_false_iff_ne.1 h)]
  | cons first rest ih =>
    obtain ⟨key, old⟩ := first
    rw [put]
    by_cases hkey : key = name
    · subst hkey
      rw [if_pos rfl, List.lookup_cons, List.lookup_cons]
      by_cases hquery : query = key
      · rw [if_pos hquery, beq_iff_eq.2 hquery]
      · rw [if_neg hquery, beq_eq_false_iff_ne.2 hquery]
    · rw [if_neg hkey, List.lookup_cons, List.lookup_cons, ih]
      by_cases hquery : query = key
      · have hname : query ≠ name := fun h => hkey (hquery.symm.trans h)
        rw [if_neg hname, if_neg hname]
      · rw [beq_eq_false_iff_ne.2 hquery]

/-- The index of some entries, the later ones in place of earlier ones under the same name. -/
def ofEntries (entries : List (Text × α)) : Index α :=
  entries.foldl (fun index (name, value) => index.put name value) []

theorem lookup_foldl_put (entries : List (Text × α)) (index : Index α) (query : Text) :
    (entries.foldl (fun index (name, value) => index.put name value) index).lookup query =
      (entries.reverse.lookup query).or (index.lookup query) := by
  induction entries generalizing index with
  | nil => rfl
  | cons entry entries ih =>
    obtain ⟨name, value⟩ := entry
    rw [List.foldl_cons, ih, lookup_put, List.reverse_cons, List.lookup_append, List.lookup_cons,
      List.lookup_nil, Option.or_assoc]
    congr 1
    by_cases hquery : query = name
    · rw [if_pos hquery, beq_iff_eq.2 hquery]
      rfl
    · rw [if_neg hquery, beq_eq_false_iff_ne.2 hquery]
      rfl

/-- The last of several entries under a name is found. -/
theorem lookup_ofEntries (entries : List (Text × α)) (query : Text) :
    (ofEntries entries).lookup query = entries.reverse.lookup query := by
  rw [ofEntries, lookup_foldl_put, List.lookup_nil]
  exact Option.or_none

end Index

/-! ## The variables of a program -/

/-- At least some size was reserved for the variable with a label: it was declared as a permanent
one of that size or larger, wherever it was declared. -/
structure Reserved (decls : List VarDecl) (label : Text) (size : Nat) : Prop where
  isPermanent : ∀ decl ∈ decls, decl.label = label → decl.isTemporary = false
  size_le : ∀ decl ∈ decls, decl.label = label → size ≤ decl.size

instance (decls : List VarDecl) (label : Text) (size : Nat) :
    Decidable (Reserved decls label size) :=
  decidable_of_iff ((∀ decl ∈ decls, decl.label = label → decl.isTemporary = false) ∧
      ∀ decl ∈ decls, decl.label = label → size ≤ decl.size)
    ⟨fun h => ⟨h.1, h.2⟩, fun h => ⟨h.isPermanent, h.size_le⟩⟩

/-- The permanent variables of a program are placed first, and the temporary ones in what is
left. -/
theorem allocations_of_placeVariables {draft : State} {allocation : Index Nat}
    (h : placeVariables draft = .ok allocation) : ∃ own temporary areas areas',
      VarArea.allocate ((draft.varDecls.filter (!·.isTemporary)).map fun d => ⟨d.label, d.size⟩)
        draft.varAreas = .ok own areas ∧
      VarArea.allocateScoped (temporaryScopes draft.symbols draft.varDecls) areas =
        .ok temporary areas' ∧
      allocation = Index.ofEntries (own ++ temporary) := by
  unfold placeVariables at h
  dsimp only at h
  split at h
  next entries areas heq =>
    cases h
    obtain ⟨own, areas₁, hown, heq⟩ := bind_eq_ok heq
    obtain ⟨temporary, areas₂, htemporary, heq⟩ := bind_eq_ok heq
    cases heq
    exact ⟨own, temporary, areas₁, areas, hown, htemporary, rfl⟩
  · cases h

end MacroAssembler
