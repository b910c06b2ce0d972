import Mathlib.Algebra.GroupWithZero.Nat
import MacroAssembler.Proofs.Allocation

/-!
# How areas are packed

An allocation goes through its variables from the largest one to the smallest one, and variables of
one size stay in the order in which they were requested.  Each one is put at the start of what is
free in the first of the areas with the most free space.

An allocation stops at the first variable that is larger than what is free in every area.  Whether
it does, and what the areas are then, depends on the sizes of the variables and not on the order in
which they were requested.
-/

namespace MacroAssembler

/-! ## The order of the variables -/

namespace VarRequest

/-- Variables in order of size, the largest first, and those of one size in the order given. -/
structure InOrder (sorted vars : List VarRequest) : Prop where
  perm : sorted.Perm vars
  descending : sorted.Pairwise fun v w => w.size ≤ v.size
  stable : ∀ size, sorted.filter (·.size = size) = vars.filter (·.size = size)

theorem pairwise_insert {var : VarRequest} {vars : List VarRequest}
    (h : vars.Pairwise fun v w => w.size ≤ v.size) :
    (insert var vars).Pairwise fun v w => w.size ≤ v.size := by
  induction vars with
  | nil => exact List.pairwise_singleton _ _
  | cons first rest ih =>
    obtain ⟨hfirst, hrest⟩ := List.pairwise_cons.1 h
    rw [insert]
    split
    next hlt =>
      refine List.pairwise_cons.2 ⟨fun w hw => ?_, h⟩
      rcases List.mem_cons.1 hw with rfl | hw
      · exact Nat.le_of_lt hlt
      · exact (hfirst w hw).trans (Nat.le_of_lt hlt)
    next hle =>
      refine List.pairwise_cons.2 ⟨fun w hw => ?_, ih hrest⟩
      rcases List.mem_cons.1 ((insert_perm var rest).mem_iff.1 hw) with rfl | hw
      · exact Nat.not_lt.1 hle
      · exact hfirst w hw

/-- A variable goes behind those of its size. -/
theorem filter_insert {var : VarRequest} {vars : List VarRequest}
    (h : vars.Pairwise fun v w => w.size ≤ v.size) (size : Nat) :
    (insert var vars).filter (·.size = size) = (vars ++ [var]).filter (·.size = size) := by
  induction vars with
  | nil => rfl
  | cons first rest ih =>
    obtain ⟨hfirst, hrest⟩ := List.pairwise_cons.1 h
    rw [insert]
    split
    next hlt =>
      -- all that follow are smaller, so the place among them does not matter
      have hsmaller : ∀ w ∈ first :: rest, w.size < var.size := by
        refine List.forall_mem_cons.2 ⟨hlt, fun w hw => ?_⟩
        exact Nat.lt_of_le_of_lt (hfirst w hw) hlt
      rw [List.filter_append, ← List.singleton_append, List.filter_append]
      by_cases hsize : var.size = size
      · have hnone : (first :: rest).filter (·.size = size) = [] := by
          refine List.filter_eq_nil_iff.2 fun w hw => ?_
          have := hsmaller w hw
          simp only [decide_eq_true_eq]
          omega
        rw [hnone, List.append_nil, List.nil_append]
      · have hnone : [var].filter (·.size = size) = [] := by
          rw [List.filter_cons_of_neg (by simpa using hsize), List.filter_nil]
        rw [hnone, List.append_nil, List.nil_append]
    next => rw [List.cons_append, List.filter_cons, List.filter_cons, ih hrest]

/-- **Putting variables in order sorts them by size and keeps the order of equal ones.** -/
theorem largestFirst_inOrder (vars : List VarRequest) : InOrder (largestFirst vars) vars := by
  have hfold : ∀ (vars sorted : List VarRequest), (sorted.Pairwise fun v w => w.size ≤ v.size) →
      ((vars.foldl (fun sorted var => insert var sorted) sorted).Pairwise
        fun v w => w.size ≤ v.size) ∧
      ∀ size, (vars.foldl (fun sorted var => insert var sorted) sorted).filter (·.size = size) =
        (sorted ++ vars).filter (·.size = size) := by
    intro vars
    induction vars with
    | nil => exact fun sorted h => ⟨h, fun size => by rw [List.append_nil, List.foldl_nil]⟩
    | cons var vars ih =>
      intro sorted h
      obtain ⟨hpairwise, hfilter⟩ := ih (insert var sorted) (pairwise_insert h)
      refine ⟨hpairwise, fun size => ?_⟩
      rw [List.foldl_cons, hfilter, List.filter_append, filter_insert h, ← List.filter_append,
        List.append_assoc, List.singleton_append]
  obtain ⟨hpairwise, hfilter⟩ := hfold vars [] List.Pairwise.nil
  exact ⟨largestFirst_perm vars, hpairwise, hfilter⟩

/-- The sizes of variables in order do not depend on the order in which they were given. -/
theorem sizes_largestFirst {vars vars' : List VarRequest} (h : vars.Perm vars') :
    (largestFirst vars).map size = (largestFirst vars').map size := by
  have hperm : (largestFirst vars).Perm (largestFirst vars') :=
    ((largestFirst_perm vars).trans h).trans (largestFirst_perm vars').symm
  have hdescending (vars : List VarRequest) :
      ((largestFirst vars).map size).Pairwise fun m n => n ≤ m :=
    List.pairwise_map.2 (largestFirst_inOrder vars).descending
  exact (hperm.map size).eq_of_pairwise (fun m n _ _ hle hge => Nat.le_antisymm hge hle)
    (hdescending vars) (hdescending vars')

end VarRequest

namespace VarArea

/-! ## What is packed -/

/-- One more variable takes its bytes from its area. -/
theorem sum_used_set {areas : List VarArea} {i : Nat} {area : VarArea}
    (harea : areas[i]? = some area)
    (size : Nat) : ((areas.set i (area.grow size)).map used).sum = (areas.map used).sum + size := by
  induction areas generalizing i with
  | nil => cases harea
  | cons first rest ih =>
    cases i with
    | zero =>
      cases harea
      rw [List.set_cons_zero, List.map_cons, List.map_cons, List.sum_cons, List.sum_cons]
      dsimp only [grow]
      omega
    | succ i =>
      rw [List.set_cons_succ, List.map_cons, List.map_cons, List.sum_cons, List.sum_cons, ih harea]
      omega

theorem Packs.sum_used {areas after : List VarArea} {spots : List Spot}
    (h : Packs areas spots after) :
    (after.map used).sum = (areas.map used).sum + (spots.map (·.var.size)).sum := by
  induction h with
  | nil areas => rfl
  | cons hspot _ ih =>
    rw [ih, sum_used_set hspot.area_eq, List.map_cons, List.sum_cons, Nat.add_assoc]

/-- **An allocation packs the areas exactly, and it fails only when it must.**  It goes through the
variables in order and puts each one at the start of what is then free in the area with the most
space; no area is used beyond its size, each variable lies in the used part of its area, no two of
one area overlap, and the areas together are used further by the sizes of the variables.  It stops
only at a variable that is larger than what is then free in every area, and reports the most that is
free in one of them. -/
theorem allocate_packs (vars : List VarRequest) {areas : List VarArea}
    (hused : ∀ area ∈ areas, area.used ≤ area.size) :
    ∃ spots rest after, VarRequest.InOrder (spots.map (·.var) ++ rest) vars ∧
      Packs areas spots after ∧ Filled after spots ∧ after.map bounds = areas.map bounds ∧
      (after.map used).sum = (areas.map used).sum + (spots.map (·.var.size)).sum ∧
      ((rest = [] ∧ allocate vars areas = .ok (spots.map (·.entry)) after) ∨
        ∃ var later left, rest = var :: later ∧ (∀ area ∈ after, area.free < var.size) ∧
          (∀ area ∈ after, area.free ≤ left) ∧
          (after = [] ∧ left = 0 ∨ ∃ area ∈ after, area.free = left) ∧
          allocate vars areas = .error (.allocationFailed var.name var.size left) after) := by
  obtain ⟨spots, rest, after, hpacks, hvars, hrun⟩ :=
    mapM_place_cases (VarRequest.largestFirst vars) areas
  have hfilled := hpacks.filled (filled_nil hused)
  rw [List.append_nil] at hfilled
  refine ⟨spots, rest, after, hvars ▸ VarRequest.largestFirst_inOrder vars, hpacks, hfilled,
    hpacks.bounds_eq, hpacks.sum_used, hrun.imp id ?_⟩
  rintro ⟨var, later, rfl, hlarge, hrun⟩
  exact ⟨var, later, _, rfl, hlarge, fun area => free_le_mostFree,
    exists_free_eq_mostFree after, hrun⟩

/-- Two areas, of which a part of the first one is used. -/
def twoSizes : List VarArea :=
  [⟨0x100, 4, 1⟩, ⟨0x200, 8, 0⟩]

/-- Three variables, two of which have the same size. -/
def tied : List VarRequest :=
  [⟨"a".toList, 2⟩, ⟨"b".toList, 5⟩, ⟨"c".toList, 2⟩]

theorem allocate_packs_tied : (∀ area ∈ twoSizes, area.used ≤ area.size) ∧
    allocate tied twoSizes = .ok [("b".toList, 0x200), ("a".toList, 0x101), ("c".toList, 0x205)]
      [⟨0x100, 4, 3⟩, ⟨0x200, 8, 7⟩] ∧
    ∃ spots rest after, VarRequest.InOrder (spots.map (·.var) ++ rest) tied ∧
      Packs twoSizes spots after ∧ Filled after spots := by
  have hused : ∀ area ∈ twoSizes, area.used ≤ area.size := by decide
  obtain ⟨spots, rest, after, horder, hpacks, hfilled, -⟩ := allocate_packs tied hused
  exact ⟨hused, rfl, spots, rest, after, horder, hpacks, hfilled⟩

/-! ## The order of the requests -/

/-- Two variables of one size are placed alike. -/
theorem place_alike {var var' : VarRequest} (hsize : var.size = var'.size) (areas : List VarArea) :
    (∃ address after, place var areas = .ok (var.name, address) after ∧
      place var' areas = .ok (var'.name, address) after) ∨
    ∃ left, place var areas = .error (.allocationFailed var.name var.size left) areas ∧
      place var' areas = .error (.allocationFailed var'.name var.size left) areas := by
  rw [place_apply, place_apply, ← hsize]
  generalize (if var.size ≤ mostFree areas then take var.size (mostFree areas) areas
    else none) = result
  cases result with
  | none => exact Or.inr ⟨_, rfl, rfl⟩
  | some result => exact Or.inl ⟨result.1, result.2, rfl, rfl⟩

/-- Two allocations come to the same.  They place their variables, the same sizes at the same
addresses, or they fail for variables of the same size; and they leave the same areas. -/
inductive SamePlaces (vars vars' : List VarRequest) :
    EStateM.Result SymbolError (List VarArea) (List (Text × Nat)) →
    EStateM.Result SymbolError (List VarArea) (List (Text × Nat)) → Prop
  | ok (placed placed' : List PlacedVar) (after : List VarArea)
      (hvars : (placed.map PlacedVar.var).Perm vars)
      (hvars' : (placed'.map PlacedVar.var).Perm vars')
      (hsame : (placed.map fun v => (v.var.size, v.address)).Perm
        (placed'.map fun v => (v.var.size, v.address))) :
      SamePlaces vars vars' (.ok (placed.map PlacedVar.entry) after)
        (.ok (placed'.map PlacedVar.entry) after)
  | error (name name' : Text) (size left : Nat) (after : List VarArea) :
      SamePlaces vars vars' (.error (.allocationFailed name size left) after)
        (.error (.allocationFailed name' size left) after)

/-- Lists of variables of the same sizes are placed alike. -/
theorem mapM_place_alike {vars vars' : List VarRequest}
    (hsizes : vars.map VarRequest.size = vars'.map VarRequest.size) (areas : List VarArea) :
    SamePlaces vars vars' (vars.mapM place areas) (vars'.mapM place areas) := by
  induction vars generalizing vars' areas with
  | nil =>
    cases List.map_eq_nil_iff.1 hsizes.symm
    exact .ok [] [] areas (.refl _) (.refl _) (.refl _)
  | cons var vars ih =>
    obtain ⟨var', vars', rfl, hsize, hrest⟩ := List.map_eq_cons_iff.1 hsizes.symm
    rw [List.mapM_cons, List.mapM_cons]
    rcases place_alike hsize.symm areas with ⟨address, after, hrun, hrun'⟩ | ⟨left, hrun, hrun'⟩
    · rw [bind_of_ok hrun, bind_of_ok hrun']
      have hsame := ih hrest.symm after
      generalize hrun : vars.mapM place after = r, hrun' : vars'.mapM place after = r' at hsame
      cases hsame with
      | ok placed placed' after hvars hvars' hsame =>
        rw [bind_of_ok hrun, bind_of_ok hrun']
        refine .ok (⟨var, address⟩ :: placed) (⟨var', address⟩ :: placed') after (hvars.cons var)
          (hvars'.cons var') ?_
        rw [List.map_cons, List.map_cons, hsize]
        exact hsame.cons _
      | error name name' size left after =>
        rw [bind_of_error hrun, bind_of_error hrun']
        exact .error name name' size left after
    · rw [bind_of_error hrun, bind_of_error hrun']
      exact .error _ _ _ left areas

/-- **The order of the requests does not decide whether variables fit.**  Two allocations of the
same variables in different orders both succeed or both fail, and leave the same areas.  If they
succeed, then the same sizes stand at the same addresses. -/
theorem allocate_of_perm {vars vars' : List VarRequest} (h : vars.Perm vars')
    (areas : List VarArea) :
    SamePlaces vars vars' (allocate vars areas) (allocate vars' areas) := by
  have hsame := mapM_place_alike (VarRequest.sizes_largestFirst h) areas
  rw [allocate, allocate]
  generalize (VarRequest.largestFirst vars).mapM place areas = r,
    (VarRequest.largestFirst vars').mapM place areas = r' at hsame
  cases hsame with
  | ok placed placed' after hvars hvars' hsame =>
    exact .ok placed placed' after (hvars.trans (VarRequest.largestFirst_perm vars))
      (hvars'.trans (VarRequest.largestFirst_perm vars')) hsame
  | error name name' size left after => exact .error name name' size left after

theorem allocate_of_perm_reversed : tied.Perm tied.reverse ∧
    SamePlaces tied tied.reverse (allocate tied twoSizes) (allocate tied.reverse twoSizes) :=
  ⟨tied.reverse_perm.symm, allocate_of_perm tied.reverse_perm.symm twoSizes⟩

end VarArea

end MacroAssembler
