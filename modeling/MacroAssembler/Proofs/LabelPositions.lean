import MacroAssembler.Symbol.Reusable
import Mathlib.Data.List.Basic

/-!
# Reusable labels by position

A reference to a reusable label means a definition by its place: the next one of its label, the
last one, or the bookmark so many bookmarks away.  The record of a pass holds only what it has met
so far, that of the pass before holds everything, and the number of definitions met is all that
says where in it the current position lies.  If the two passes meet the same definitions, this
number is enough, wherever the position is and however the labels are mixed.
-/

namespace MacroAssembler

/-- Whether a definition is one of the label of this polarity and length. -/
def ReusableDef.isOf (polarity : Polarity) (run : Nat) (d : ReusableDef) : Bool :=
  d.polarity = polarity ∧ d.run = run

/-- The definition that a reference means at a place in a sequence of definitions. -/
inductive ReusableRef.Means (before after : List ReusableDef) : ReusableRef → ReusableDef → Prop
  /-- The first one of its label ahead. -/
  | forward {run : Nat} {offset : Int} {d : ReusableDef} (skipped rest : List ReusableDef)
      (hafter : after = skipped ++ d :: rest) (hd : d.isOf .forward run)
      (hskipped : ∀ e ∈ skipped, !e.isOf .forward run) :
      Means before after ⟨.forward, run, offset⟩ d
  /-- The last one of its label behind. -/
  | backward {run : Nat} {offset : Int} {d : ReusableDef} (skipped rest : List ReusableDef)
      (hbefore : before = rest ++ d :: skipped) (hd : d.isOf .backward run)
      (hskipped : ∀ e ∈ skipped, !e.isOf .backward run) :
      Means before after ⟨.backward, run, offset⟩ d
  /-- The one of the whole sequence that is `offset` bookmarks away from the last one behind. -/
  | bookmark {run : Nat} {offset : Int} {d : ReusableDef} (index : Nat)
      (hindex : (index : Int) = before.countP (·.isOf .bookmark run) - 1 + offset)
      (hd : ((before ++ after).filter (·.isOf .bookmark run))[index]? = some d) :
      Means before after ⟨.bookmark, run, offset⟩ d

namespace ReusableLabels

/-- The record of a pass that has met a sequence of definitions. -/
def ofDefs (defs : List ReusableDef) : ReusableLabels :=
  defs.foldl (fun labels d => labels.define d.polarity d.run d.value) {}

variable (before after : List ReusableDef)

theorem toList_ofDefs (defs : List ReusableDef) : (ofDefs defs).defs.toList = defs := by
  have hfold : ∀ labels : ReusableLabels,
      (defs.foldl (fun labels d => labels.define d.polarity d.run d.value) labels).defs.toList =
        labels.defs.toList ++ defs := by
    induction defs with
    | nil => simp
    | cons d defs ih =>
      intro labels
      rw [List.foldl_cons, ih]
      simp [define]
  rw [ofDefs, hfold]
  rfl

theorem instances_ofDefs (defs : List ReusableDef) (polarity : Polarity) (run : Nat) :
    (ofDefs defs).instances polarity run =
      (defs.filter (·.isOf polarity run)).map ReusableDef.value := by
  rw [instances, toList_ofDefs, ← List.filterMap_eq_map, List.filterMap_filter]
  simp [ReusableDef.isOf]

/-- What has been met is the beginning of the whole, so one record is enough. -/
theorem resolve_ofDefs (target : ReusableRef) :
    (ofDefs before).resolve (ofDefs (before ++ after)) target =
      ((ofDefs before).ordinal target).bind fun index =>
        ((before ++ after).filter (·.isOf target.polarity target.run))[index]?.map (·.value) := by
  unfold resolve
  congr 1
  funext index
  rw [instances_ofDefs, instances_ofDefs, List.filter_append, List.map_append, ← List.getElem?_map,
    List.map_append]
  cases hmet : ((before.filter (·.isOf target.polarity target.run)).map (·.value))[index]? with
  | none => rfl
  | some value =>
    rw [List.getElem?_append_left (List.getElem?_eq_some_iff.1 hmet).1, hmet]
    rfl

/-! ## The three directions -/

variable (run : Nat) (offset : Int)

theorem resolve_forward :
    (ofDefs before).resolve (ofDefs (before ++ after)) ⟨.forward, run, offset⟩ =
      (after.find? (·.isOf .forward run)).map (·.value) := by
  have hordinal : (ofDefs before).ordinal ⟨.forward, run, offset⟩ =
      some (before.filter (·.isOf .forward run)).length := by
    simp only [ordinal, instances_ofDefs, List.length_map]
    rw [if_neg (by omega), Int.toNat_natCast]
  rw [resolve_ofDefs, hordinal, Option.bind_some, List.filter_append,
    List.getElem?_append_right (Nat.le_refl _), Nat.sub_self, ← List.head?_eq_getElem?,
    List.head?_filter]

theorem resolve_backward :
    (ofDefs before).resolve (ofDefs (before ++ after)) ⟨.backward, run, offset⟩ =
      (before.reverse.find? (·.isOf .backward run)).map (·.value) := by
  rw [resolve_ofDefs, ← List.head?_filter, List.filter_reverse, List.head?_reverse]
  simp only [ordinal, instances_ofDefs, List.length_map, List.filter_append]
  rcases (before.filter (·.isOf .backward run)).eq_nil_or_concat with hmet | ⟨earlier, d, hmet⟩
  · rw [hmet]
    rfl
  · have hindex : ¬((earlier.length + 1 : Nat) : Int) - 1 < 0 := by omega
    rw [hmet, List.length_concat, if_neg hindex, List.concat_eq_append]
    simp

theorem resolve_bookmark :
    (ofDefs before).resolve (ofDefs (before ++ after)) ⟨.bookmark, run, offset⟩ =
      (if (before.countP (·.isOf .bookmark run) : Int) - 1 + offset < 0 then none
      else ((before ++ after).filter (·.isOf .bookmark run))[
        ((before.countP (·.isOf .bookmark run) : Int) - 1 + offset).toNat]?).map (·.value) := by
  rw [resolve_ofDefs]
  simp only [ordinal, instances_ofDefs, List.length_map, ← List.countP_eq_length_filter]
  split <;> rfl

end ReusableLabels

namespace ReusableRef

variable {before after : List ReusableDef} {run : Nat} {offset : Int} {d : ReusableDef}

theorem means_forward_iff : Means before after ⟨.forward, run, offset⟩ d ↔
    after.find? (·.isOf .forward run) = some d := by
  rw [List.find?_eq_some_iff_append]
  constructor
  · rintro ⟨skipped, rest, hafter, hd, hskipped⟩
    exact ⟨hd, skipped, rest, hafter, hskipped⟩
  · rintro ⟨hd, skipped, rest, hafter, hskipped⟩
    exact .forward skipped rest hafter hd hskipped

theorem means_backward_iff : Means before after ⟨.backward, run, offset⟩ d ↔
    before.reverse.find? (·.isOf .backward run) = some d := by
  rw [List.find?_eq_some_iff_append]
  constructor
  · intro h
    cases h with
    | backward skipped rest hbefore hd hskipped =>
      refine ⟨hd, skipped.reverse, rest.reverse, by simp [hbefore], ?_⟩
      exact fun e he => hskipped e (List.mem_reverse.1 he)
  · rintro ⟨hd, skipped, rest, hbefore, hskipped⟩
    refine .backward skipped.reverse rest.reverse ?_ hd ?_
    · rw [← List.reverse_reverse before, hbefore]
      simp
    · exact fun e he => hskipped e (List.mem_reverse.1 he)

theorem means_bookmark_iff : Means before after ⟨.bookmark, run, offset⟩ d ↔
    (if (before.countP (·.isOf .bookmark run) : Int) - 1 + offset < 0 then none
    else ((before ++ after).filter (·.isOf .bookmark run))[
      ((before.countP (·.isOf .bookmark run) : Int) - 1 + offset).toNat]?) = some d := by
  rw [Option.ite_none_left_eq_some]
  constructor
  · intro h
    cases h with
    | bookmark index hindex hd =>
      rw [← hindex, Int.toNat_natCast]
      exact ⟨by omega, hd⟩
  · rintro ⟨hindex, hd⟩
    exact .bookmark _ (Int.toNat_of_nonneg (Int.not_lt.1 hindex)) hd

end ReusableRef

open ReusableLabels ReusableRef

/-- **A reference has the value of the definition that it means by position**, and it has none
exactly when there is no such definition. -/
theorem resolve_by_position (before after : List ReusableDef) (target : ReusableRef) :
    (∀ value, (ofDefs before).resolve (ofDefs (before ++ after)) target = some value ↔
      ∃ d, target.Means before after d ∧ d.value = value) ∧
    ((ofDefs before).resolve (ofDefs (before ++ after)) target = none ↔
      ∀ d, ¬target.Means before after d) := by
  have hfound : ∃ found : Option ReusableDef,
      (ofDefs before).resolve (ofDefs (before ++ after)) target = found.map (·.value) ∧
        ∀ d, target.Means before after d ↔ found = some d := by
    obtain ⟨polarity, run, offset⟩ := target
    cases polarity with
    | forward => exact ⟨_, resolve_forward before after run offset, fun d => means_forward_iff⟩
    | backward => exact ⟨_, resolve_backward before after run offset, fun d => means_backward_iff⟩
    | bookmark => exact ⟨_, resolve_bookmark before after run offset, fun d => means_bookmark_iff⟩
  obtain ⟨found, hresolve, hmeans⟩ := hfound
  rw [hresolve]
  refine ⟨fun value => ?_, ?_⟩
  · simp only [hmeans, Option.map_eq_some_iff]
  · rw [Option.map_eq_none_iff, Option.eq_none_iff_forall_ne_some]
    simp only [hmeans, ne_eq]

end MacroAssembler
