import MacroAssembler.Symbol.Struct
import Mathlib.Algebra.GroupWithZero.Nat
import Mathlib.Data.List.Forall2
import Mathlib.Logic.Relation

/-!
# Sizes and layouts of structs

The size of a struct and its layout are worked out by two recursions through the table of structs.
Both take a struct off the table while they are inside of it, and the layout asks for the sizes of
the members from the whole table again.  They have to come to the same.

What makes them agree is that a result does not depend on what has been taken off: whatever has a
size in a part of the table has the same size in the whole (`sizeWithin_mono`).  So the layout never
meets a size that fails after the fields of the same member have been found, and both recursions
fail at the first member that is unknown or recursive.  They succeed for the types from which
neither a struct that contains itself nor a name without a struct can be reached (`Grounded`).

A layout shows the first element of a repeated member, even if the member is repeated no times.
Such a member takes no room, and the fields inside of it lie beyond the end of what is around it.
-/

namespace MacroAssembler

open Relation

namespace StructTable

/-! ## Failures of a fold -/

/-- What a computation complains about, if it fails. -/
def complaint? {ε α : Type} : Except ε α → Option ε
  | .ok _ => none
  | .error e => some e

section fold

variable {ε α β : Type}

theorem complaint?_eq_none_iff {x : Except ε α} : complaint? x = none ↔ ∃ a, x = .ok a := by
  cases x <;> simp [complaint?]

theorem complaint?_eq_some_iff {x : Except ε α} {e : ε} : complaint? x = some e ↔ x = .error e := by
  cases x <;> simp [complaint?]

theorem bind_eq_ok_iff {x : Except ε α} {f : α → Except ε β} {b : β} :
    (x >>= f) = .ok b ↔ ∃ a, x = .ok a ∧ f a = .ok b := by
  cases x <;> simp [bind, Except.bind]

theorem complaint?_bind {x : Except ε α} {f : α → Except ε β}
    (h : ∀ a, x = .ok a → ∃ b, f a = .ok b) : complaint? (x >>= f) = complaint? x := by
  cases x with
  | error e => rfl
  | ok a =>
    obtain ⟨b, hb⟩ := h a rfl
    exact congrArg complaint? hb

/-- If the complaints of the steps do not depend on what is accumulated, a fold has the first of
them. -/
theorem complaint?_foldlM {step : β → α → Except ε β} {q : α → Option ε}
    (h : ∀ b a, complaint? (step b a) = q a) (l : List α) (b : β) :
    complaint? (l.foldlM step b) = l.findSome? q := by
  induction l generalizing b with
  | nil => rfl
  | cons a l ih =>
    rw [List.foldlM_cons, List.findSome?_cons, ← h b a]
    cases hstep : step b a with
    | error e => rfl
    | ok b' => exact ih b'

/-- Two folds stay related if their steps keep them so. -/
theorem foldlM_related {γ : Type} {R : β → γ → Prop} {step : β → α → Except ε β}
    {step' : γ → α → Except ε γ}
    {l : List α} (h : ∀ a ∈ l, ∀ b c b', R b c → step b a = .ok b' →
      ∃ c', step' c a = .ok c' ∧ R b' c')
    {b b' : β} {c : γ} (hstart : R b c) (hfold : l.foldlM step b = .ok b') :
    ∃ c', l.foldlM step' c = .ok c' ∧ R b' c' := by
  induction l generalizing b c with
  | nil =>
    cases hfold
    exact ⟨c, rfl, hstart⟩
  | cons a l ih =>
    rw [List.foldlM_cons] at hfold
    obtain ⟨b₁, hstep, hrest⟩ := bind_eq_ok_iff.1 hfold
    obtain ⟨hfirst, hlater⟩ := List.forall_mem_cons.1 h
    obtain ⟨c₁, hstep', hnext⟩ := hfirst b c b₁ hstart hstep
    obtain ⟨c', hrest', hend⟩ := ih hlater hnext hrest
    exact ⟨c', by rw [List.foldlM_cons]; exact bind_eq_ok_iff.2 ⟨c₁, hstep', hrest'⟩, hend⟩

end fold

/-! ## Parts of a table -/

/-- What is on one table is on the other one too. -/
def Within (t t' : StructTable) : Prop :=
  ∀ name d, t.get? name = some d → t'.get? name = some d

theorem get?_erase (t : StructTable) (name name' : Text) : (t.erase name).get? name' =
    if Text.asciiLower name' = Text.asciiLower name then none else t.get? name' := by
  obtain ⟨defs⟩ := t
  unfold erase get?
  induction defs with
  | nil => simp
  | cons entry defs ih =>
    obtain ⟨key, d⟩ := entry
    by_cases hkey : key = Text.asciiLower name
    · rw [List.filter_cons_of_neg (by simp [hkey]), ih, List.lookup_cons]
      split
      · rfl
      next hne => rw [beq_eq_false_iff_ne.2 fun h => hne (h.trans hkey)]
    · rw [List.filter_cons_of_pos (by simpa using hkey), List.lookup_cons, List.lookup_cons, ih]
      by_cases hfound : Text.asciiLower name' = key
      · have hne : Text.asciiLower name' ≠ Text.asciiLower name :=
          fun h => hkey (hfound.symm.trans h)
        rw [if_neg hne, if_neg hne]
      · rw [beq_eq_false_iff_ne.2 hfound]

variable {t t' whole table : StructTable} {name path : Text} {busy : List Text}
  {base : Nat} {ty : DataType}

theorem Within.refl (t : StructTable) : t.Within t :=
  fun _ _ h => h

theorem within_erase (t : StructTable) (name : Text) : (t.erase name).Within t := by
  intro name' d h
  rw [get?_erase] at h
  split at h
  · cases h
  · exact h

theorem Within.trans (h : t.Within t') (h' : t'.Within whole) : t.Within whole :=
  fun name d hd => h' name d (h name d hd)

theorem Within.erase_both (h : t.Within t') (name : Text) :
    (t.erase name).Within (t'.erase name) := by
  intro name' d hd
  rw [get?_erase] at hd ⊢
  split at hd
  · cases hd
  next hne =>
    rw [if_neg hne]
    exact h name' d hd

/-! ## Sizes -/

/-- The size with one more member. -/
def sizeStep (t : StructTable) (busy : List Text) (name : Text) (size : Nat) (member : Member) :
    Except SymbolError Nat := do
  let inner ← sizeWithin (t.erase name) (Text.asciiLower name :: busy) member.type
  return size + inner * member.count

theorem sizeWithin_of_none (h : t.get? name = none) :
    t.sizeWithin busy (.struct name) = .error (missing busy name) := by
  rw [sizeWithin]
  split
  · rfl
  next hd => cases h.symm.trans hd

theorem sizeWithin_of_some {d : StructDef} (h : t.get? name = some d) :
    t.sizeWithin busy (.struct name) = d.members.foldlM (sizeStep t busy name) 0 := by
  rw [sizeWithin]
  split
  next hnone => cases h.symm.trans hnone
  next hd =>
    cases h.symm.trans hd
    rfl

theorem complaint?_sizeWithin_of_some {d : StructDef} (h : t.get? name = some d) :
    complaint? (t.sizeWithin busy (.struct name)) = d.members.findSome? fun member =>
      complaint? ((t.erase name).sizeWithin (Text.asciiLower name :: busy) member.type) := by
  rw [sizeWithin_of_some h]
  refine complaint?_foldlM (fun size member => ?_) _ _
  exact complaint?_bind fun inner _ => ⟨_, rfl⟩

theorem sizeWithin_of_basic (h : ∀ name, ty ≠ .struct name) :
    t.sizeWithin busy ty = .ok (ty.size.getD 0) := by
  rw [sizeWithin]
  exact h

/-- What has a size in a part of the table has the same size in the whole. -/
theorem sizeWithin_mono {busy' : List Text} {n : Nat} (hwithin : t.Within t')
    (h : t.sizeWithin busy ty = .ok n) : t'.sizeWithin busy' ty = .ok n := by
  induction t, busy, ty using sizeWithin.induct generalizing t' busy' n with
  | case1 t busy name hnone =>
    rw [sizeWithin_of_none hnone] at h
    cases h
  | case2 t busy name d hd ih =>
    rw [sizeWithin_of_some hd] at h
    rw [sizeWithin_of_some (hwithin name d hd)]
    have hstep : ∀ member ∈ d.members, ∀ size size' next, size = size' →
        sizeStep t busy name size member = .ok next →
        ∃ next', sizeStep t' busy' name size' member = .ok next' ∧ next = next' := by
      rintro member - size _ next rfl hstep
      obtain ⟨inner, hinner, hnext⟩ := bind_eq_ok_iff.1 hstep
      exact ⟨next, bind_eq_ok_iff.2 ⟨inner, ih member (hwithin.erase_both name) hinner, hnext⟩, rfl⟩
    obtain ⟨n', hfold, rfl⟩ := foldlM_related hstep rfl h
    exact hfold
  | case3 t busy ty hbasic =>
    have hbasic : ∀ name, ty ≠ .struct name := hbasic
    rwa [sizeWithin_of_basic hbasic] at h ⊢

/-- The size of a type that has one. -/
def bytes (table : StructTable) (ty : DataType) : Nat :=
  (table.sizeOf ty).toOption.getD 0

theorem bytes_eq {n : Nat} (h : table.sizeOf ty = .ok n) :
    table.bytes ty = n := by
  rw [bytes, h]
  rfl

/-- The room that some members take. -/
def extent (table : StructTable) : List Member → Nat
  | [] => 0
  | member :: members => table.bytes member.type * member.count + table.extent members

theorem extent_append (table : StructTable) (front back : List Member) :
    table.extent (front ++ back) = table.extent front + table.extent back := by
  induction front with
  | nil => rw [List.nil_append, extent, Nat.zero_add]
  | cons member front ih => rw [List.cons_append, extent, extent, ih, Nat.add_assoc]

/-- A struct is as large as its members, each of which has a size. -/
theorem sizes_of_foldlM {members : List Member} {start n : Nat}
    (hwithin : (t.erase name).Within whole)
    (h : members.foldlM (sizeStep t busy name) start = .ok n) :
    n = start + whole.extent members ∧ ∀ member ∈ members,
      ∃ k, (t.erase name).sizeWithin (Text.asciiLower name :: busy) member.type = .ok k := by
  induction members generalizing start with
  | nil =>
    cases h
    exact ⟨rfl, fun member hmem => absurd hmem List.not_mem_nil⟩
  | cons member members ih =>
    rw [List.foldlM_cons] at h
    obtain ⟨next, hstep, hrest⟩ := bind_eq_ok_iff.1 h
    obtain ⟨inner, hinner, hnext⟩ := bind_eq_ok_iff.1 hstep
    cases hnext
    obtain ⟨hn, hsizes⟩ := ih hrest
    refine ⟨?_, List.forall_mem_cons.2 ⟨⟨inner, hinner⟩, hsizes⟩⟩
    rw [hn, extent, bytes_eq (sizeWithin_mono hwithin hinner), Nat.add_assoc]

theorem sizeOf_struct {n : Nat} (h : table.sizeOf (.struct name) = .ok n) :
    ∃ d, table.get? name = some d ∧ n = table.extent d.members ∧
      ∀ member ∈ d.members, ∃ k, table.sizeOf member.type = .ok k := by
  cases hd : table.get? name with
  | none =>
    rw [sizeOf, sizeWithin_of_none hd] at h
    cases h
  | some d =>
    rw [sizeOf, sizeWithin_of_some hd] at h
    obtain ⟨hn, hsizes⟩ := sizes_of_foldlM (within_erase table name) h
    refine ⟨d, rfl, by rw [hn, Nat.zero_add], fun member hmem => ?_⟩
    obtain ⟨k, hk⟩ := hsizes member hmem
    exact ⟨k, sizeWithin_mono (within_erase table name) hk⟩

/-! ## Types that have a size -/

/-- A struct has a member of another struct. -/
def Contains (table : StructTable) (outer inner : Text) : Prop :=
  ∃ d, table.get? outer = some d ∧ ∃ member ∈ d.members, member.type = .struct inner

/-- Every struct that a type leads to is on the table, and none of them contains itself. -/
def Grounded (table : StructTable) (ty : DataType) : Prop :=
  ∀ start, ty = .struct start → ∀ name, ReflTransGen table.Contains start name →
    (∃ d, table.get? name = some d) ∧ ¬ TransGen table.Contains name name

/-- The struct has a size in a part of the table. -/
def Sized (t : StructTable) (name : Text) : Prop :=
  ∃ busy n, t.sizeWithin busy (.struct name) = .ok n

theorem Sized.mono (hwithin : t.Within t') (h : t.Sized name) : t'.Sized name := by
  obtain ⟨busy, n, hn⟩ := h
  exact ⟨busy, n, sizeWithin_mono hwithin hn⟩

theorem Sized.exists_get? (h : t.Sized name) : ∃ d, t.get? name = some d := by
  obtain ⟨busy, n, hn⟩ := h
  cases hd : t.get? name with
  | none =>
    rw [sizeWithin_of_none hd] at hn
    cases hn
  | some d => exact ⟨d, rfl⟩

/-- What is inside of a struct has its size without the struct. -/
theorem Sized.inner {inner : Text} (h : t.Sized name) (hwithin : t.Within whole)
    (hin : whole.Contains name inner) : (t.erase name).Sized inner := by
  obtain ⟨d, hd⟩ := h.exists_get?
  obtain ⟨d', hd', member, hmem, htype⟩ := hin
  cases (hwithin name d hd).symm.trans hd'
  obtain ⟨busy, n, hn⟩ := h
  rw [sizeWithin_of_some hd] at hn
  obtain ⟨k, hk⟩ := (sizes_of_foldlM (within_erase t name) hn).2 member hmem
  exact ⟨_, k, htype ▸ hk⟩

theorem Sized.deep {inner : Text} (h : t.Sized name) (hwithin : t.Within whole)
    (hin : TransGen whole.Contains name inner) : (t.erase name).Sized inner := by
  induction hin with
  | single hin => exact h.inner hwithin hin
  | tail _ hin ih =>
    exact (ih.inner ((within_erase t name).trans hwithin) hin).mono (within_erase _ _)

theorem grounded_of_sized {start : Text} (h : table.Sized start) :
    table.Grounded (.struct start) := by
  rintro _ ⟨⟩ name hreach
  have hname : table.Sized name := by
    rcases (reflTransGen_iff_eq_or_transGen.1 hreach) with rfl | hdeep
    · exact h
    · exact (h.deep (Within.refl table) hdeep).mono (within_erase table start)
  refine ⟨hname.exists_get?, fun hcycle => ?_⟩
  obtain ⟨d, hd⟩ := (hname.deep (Within.refl table) hcycle).exists_get?
  rw [get?_erase, if_pos rfl] at hd
  cases hd

theorem Contains.congr {outer outer' inner : Text}
    (hsame : Text.asciiLower outer = Text.asciiLower outer') (h : table.Contains outer inner) :
    table.Contains outer' inner := by
  unfold Contains get? at h ⊢
  rwa [← hsame]

/-- A type has its size in what is left of the table if it leads to none of the structs that are
missing. -/
theorem sizeWithin_of_grounded (hground : whole.Grounded ty)
    (hleft : ∀ name d, whole.get? name = some d → Text.asciiLower name ∉ busy →
      t.get? name = some d)
    (haway : ∀ start, ty = .struct start → ∀ name, ReflTransGen whole.Contains start name →
      Text.asciiLower name ∉ busy) : ∃ n, t.sizeWithin busy ty = .ok n := by
  induction t, busy, ty using sizeWithin.induct with
  | case1 t busy name hnone =>
    obtain ⟨⟨d, hd⟩, -⟩ := hground name rfl name ReflTransGen.refl
    cases hnone.symm.trans (hleft name d hd (haway name rfl name ReflTransGen.refl))
  | case2 t busy name d hd ih =>
    obtain ⟨⟨d', hd'⟩, -⟩ := hground name rfl name ReflTransGen.refl
    cases hd.symm.trans (hleft name d' hd' (haway name rfl name ReflTransGen.refl))
    rw [← complaint?_eq_none_iff, complaint?_sizeWithin_of_some hd, List.findSome?_eq_none_iff]
    intro member hmem
    rw [complaint?_eq_none_iff]
    have hstep : ∀ start, member.type = .struct start → whole.Contains name start :=
      fun start htype => ⟨d, hd', member, hmem, htype⟩
    refine ih member (fun start htype other hreach => ?_) (fun other d' hother hnot => ?_)
      fun start htype other hreach => ?_
    · exact hground name rfl other (ReflTransGen.head (hstep start htype) hreach)
    · rw [List.mem_cons, not_or] at hnot
      rw [get?_erase, if_neg hnot.1]
      exact hleft other d' hother hnot.2
    · have hother := ReflTransGen.head (hstep start htype) hreach
      rw [List.mem_cons, not_or]
      refine ⟨fun hsame => ?_, haway name rfl other hother⟩
      -- Coming back to the name in whatever spelling would be a cycle.
      exact (hground name rfl other hother).2
        (TransGen.head' ((hstep start htype).congr hsame.symm) hreach)
  | case3 t busy ty hbasic =>
    have hbasic : ∀ name, ty ≠ .struct name := hbasic
    exact ⟨_, sizeWithin_of_basic hbasic⟩

theorem sizeOf_eq_ok_iff_grounded (table : StructTable) (ty : DataType) :
    (∃ n, table.sizeOf ty = .ok n) ↔ table.Grounded ty := by
  constructor
  · rintro ⟨n, hn⟩ start rfl
    exact grounded_of_sized ⟨[], n, hn⟩ start rfl
  · intro hground
    exact sizeWithin_of_grounded hground (fun name d hd _ => hd) fun _ _ _ _ => List.not_mem_nil

/-! ## Layouts -/

/-- The fields and the end of the last one, with one more member. -/
def fieldStep (whole t : StructTable) (busy : List Text) (path : Text) (name : Text)
    (laid : List Field × Nat) (member : Member) : Except SymbolError (List Field × Nat) := do
  let inner ← fieldsWithin whole (t.erase name) (Text.asciiLower name :: busy)
    (joinPath path member.name) laid.2 member.type
  let size ← whole.sizeOf member.type
  return (laid.1 ++ ⟨joinPath path member.name, member.type, member.count, laid.2⟩ :: inner,
    laid.2 + size * member.count)

theorem fieldsWithin_of_none (h : t.get? name = none) :
    fieldsWithin whole t busy path base (.struct name) = .error (missing busy name) := by
  rw [fieldsWithin]
  split
  · rfl
  next hd => cases h.symm.trans hd

theorem fieldsWithin_of_some {d : StructDef}
    (h : t.get? name = some d) : fieldsWithin whole t busy path base (.struct name) =
      d.members.foldlM (fieldStep whole t busy path name)
        ([], base) >>= fun laid => .ok laid.1 := by
  rw [fieldsWithin]
  split
  next hnone => cases h.symm.trans hnone
  next hd =>
    cases h.symm.trans hd
    rfl

theorem fieldsWithin_of_basic (h : ∀ name, ty ≠ .struct name) :
    fieldsWithin whole t busy path base ty = .ok [] := by
  rw [fieldsWithin]
  exact h

/-- A layout fails as the size does. -/
theorem complaint?_fieldsWithin (hwithin : t.Within whole)
    (path : Text) (base : Nat) :
    complaint? (fieldsWithin whole t busy path base ty) = complaint? (t.sizeWithin busy ty) := by
  induction t, busy, ty using sizeWithin.induct generalizing path base with
  | case1 t busy name hnone => rw [fieldsWithin_of_none hnone, sizeWithin_of_none hnone]; rfl
  | case2 t busy name d hd ih =>
    have hinner := (within_erase t name).trans hwithin
    rw [complaint?_sizeWithin_of_some hd, fieldsWithin_of_some hd,
      complaint?_bind fun laid _ => ⟨_, rfl⟩]
    refine complaint?_foldlM (fun laid member => ?_) _ _
    rw [← ih member hinner (joinPath path member.name) laid.2]
    refine complaint?_bind fun inner hlaid => ?_
    -- The fields of the member have been found, so its size is found in the whole table too.
    obtain ⟨k, hk⟩ := complaint?_eq_none_iff.1
      ((ih member hinner _ _).symm.trans (complaint?_eq_none_iff.2 ⟨inner, hlaid⟩))
    exact ⟨_, bind_eq_ok_iff.2 ⟨k, sizeWithin_mono hinner hk, rfl⟩⟩
  | case3 t busy ty hbasic =>
    have hbasic : ∀ name, ty ≠ .struct name := hbasic
    rw [fieldsWithin_of_basic hbasic, sizeWithin_of_basic hbasic]
    rfl

theorem flatten_eq_error_iff (table : StructTable) (ty : DataType) (e : SymbolError) :
    table.flatten ty = .error e ↔ table.sizeOf ty = .error e := by
  rw [← complaint?_eq_some_iff, ← complaint?_eq_some_iff, flatten, sizeOf,
    complaint?_fieldsWithin (Within.refl table) [] 0]

theorem sizeOf_of_flatten {fields : List Field}
    (h : table.flatten ty = .ok fields) : ∃ n, table.sizeOf ty = .ok n := by
  rw [← complaint?_eq_none_iff, sizeOf, ← complaint?_fieldsWithin (Within.refl table) [] 0,
    complaint?_eq_none_iff]
  exact ⟨fields, h⟩

end StructTable

/-- Where a member of a struct lies, with the size of its type and the fields inside of it. -/
structure MemberPlace where
  member : Member
  offset : Nat
  size : Nat
  inner : List Field

namespace MemberPlace

/-- The end of the member. -/
def stop (place : MemberPlace) : Nat :=
  place.offset + place.size * place.member.count

/-- The field of the member, and those inside of it. -/
def fields (path : Text) (place : MemberPlace) : List Field :=
  ⟨StructTable.joinPath path place.member.name, place.member.type, place.member.count,
    place.offset⟩ ::
    place.inner

end MemberPlace

/-- The places follow each other without a gap from one offset to another. -/
def Tiles : List MemberPlace → Nat → Nat → Prop
  | [], start, stop => start = stop
  | place :: places, start, stop => place.offset = start ∧ Tiles places place.stop stop

namespace StructTable

variable {t t' whole table : StructTable} {name path : Text} {busy : List Text}
  {base : Nat} {ty : DataType}

/-- A layout is made of the places of the members. -/
theorem places_of_foldlM {members : List Member}
    {laid laid' : List Field × Nat}
    (h : members.foldlM (fieldStep whole t busy path name) laid = .ok laid') :
    ∃ places : List MemberPlace, places.map (·.member) = members ∧ Tiles places laid.2 laid'.2 ∧
      laid'.1 = laid.1 ++ places.flatMap (·.fields path) ∧
      ∀ place ∈ places, whole.sizeOf place.member.type = .ok place.size ∧
        fieldsWithin whole (t.erase name) (Text.asciiLower name :: busy)
          (joinPath path place.member.name) place.offset place.member.type = .ok place.inner := by
  induction members generalizing laid with
  | nil =>
    cases h
    exact ⟨[], rfl, rfl, (List.append_nil _).symm, fun place hmem => absurd hmem List.not_mem_nil⟩
  | cons member members ih =>
    rw [List.foldlM_cons] at h
    obtain ⟨next, hstep, hrest⟩ := bind_eq_ok_iff.1 h
    obtain ⟨inner, hinner, hnext⟩ := bind_eq_ok_iff.1 hstep
    obtain ⟨size, hsize, hnext⟩ := bind_eq_ok_iff.1 hnext
    cases hnext
    obtain ⟨places, hmembers, htiles, hfields, hplaces⟩ := ih hrest
    refine ⟨⟨member, laid.2, size, inner⟩ :: places, congrArg (member :: ·) hmembers,
      ⟨rfl, htiles⟩, ?_, List.forall_mem_cons.2 ⟨⟨hsize, hinner⟩, hplaces⟩⟩
    rw [hfields, List.flatMap_cons, List.append_assoc]
    rfl

/-! ## Fields inside of a member -/

/-- No member of a struct has an empty name. -/
def Named (table : StructTable) : Prop :=
  ∀ name d, table.get? name = some d → ∀ member ∈ d.members, member.name ≠ []

theorem joinPath_assoc {middle : Text} (h : middle ≠ []) (path rest : Text) :
    joinPath (joinPath path middle) rest = joinPath path (joinPath middle rest) := by
  cases path with
  | nil => rfl
  | cons c path =>
    cases middle with
    | nil => exact absurd rfl h
    | cons c' middle => simp [joinPath]

/-- Fields of two layouts of one type, which start at different paths and offsets. -/
structure Alike (table : StructTable) (path : Text) (base : Nat) (path' : Text) (base' : Nat)
    (field field' : Field) : Prop where
  type : field.type = field'.type
  count : field.count = field'.count
  offset : field.offset + base' = field'.offset + base
  path : table.Named → ∃ rest, field.path = joinPath path rest ∧ field'.path = joinPath path' rest

theorem Alike.outward {path path' middle : Text} {base base' start start' : Nat}
    {field field' : Field} (hmiddle : table.Named → middle ≠ [])
    (hstart : start + base' = start' + base)
    (h : table.Alike (joinPath path middle) start (joinPath path' middle) start' field field') :
    table.Alike path base path' base' field field' where
  type := h.type
  count := h.count
  offset := by have := h.offset; omega
  path := fun hnamed => by
    obtain ⟨rest, hrest, hrest'⟩ := h.path hnamed
    exact ⟨joinPath middle rest, by rw [hrest, joinPath_assoc (hmiddle hnamed)],
      by rw [hrest', joinPath_assoc (hmiddle hnamed)]⟩

/-- The layouts of a type from different paths and offsets, and with different parts of the table,
are alike. -/
theorem fieldsWithin_alike {busy' : List Text} {path' : Text} {base' : Nat}
    {fields : List Field} (hwithin : t.Within t') (hwhole : t.Within whole)
    (h : fieldsWithin whole t busy path base ty = .ok fields) :
    ∃ fields', fieldsWithin whole t' busy' path' base' ty = .ok fields' ∧
      List.Forall₂ (whole.Alike path base path' base') fields fields' := by
  induction t, busy, ty using sizeWithin.induct generalizing t' busy' path path' base
    base' fields with
  | case1 t busy name hnone =>
    rw [fieldsWithin_of_none hnone] at h
    cases h
  | case2 t busy name d hd ih =>
    rw [fieldsWithin_of_some hd] at h
    rw [fieldsWithin_of_some (hwithin name d hd)]
    obtain ⟨laid, hlaid, hfields⟩ := bind_eq_ok_iff.1 h
    cases hfields
    have hstep : ∀ member ∈ d.members, ∀ (laid laid' next : List Field × Nat),
        List.Forall₂ (whole.Alike path base path' base') laid.1 laid'.1 ∧
          laid.2 + base' = laid'.2 + base →
        fieldStep whole t busy path name laid member = .ok next →
        ∃ next', fieldStep whole t' busy' path' name laid' member = .ok next' ∧
          List.Forall₂ (whole.Alike path base path' base') next.1 next'.1 ∧
          next.2 + base' = next'.2 + base := by
      rintro member hmem laid laid' next ⟨hbefore, hat⟩ hstep
      obtain ⟨inner, hinner, hnext⟩ := bind_eq_ok_iff.1 hstep
      obtain ⟨size, hsize, hnext⟩ := bind_eq_ok_iff.1 hnext
      cases hnext
      have hname : whole.Named → member.name ≠ [] :=
        fun hnamed => hnamed name d (hwhole name d hd) member hmem
      obtain ⟨inner', hinner', halike⟩ := ih member (hwithin.erase_both name)
        ((within_erase t name).trans hwhole) hinner
      refine ⟨_, bind_eq_ok_iff.2 ⟨inner', hinner', bind_eq_ok_iff.2 ⟨size, hsize, rfl⟩⟩, ?_,
        by dsimp only; omega⟩
      refine List.rel_append hbefore (.cons ⟨rfl, rfl, hat, fun _ => ⟨member.name, rfl, rfl⟩⟩ ?_)
      exact halike.imp fun field field' => Alike.outward hname hat
    obtain ⟨laid', hlaid', halike, -⟩ := foldlM_related (c := ([], base')) hstep
      ⟨.nil, Nat.add_comm _ _⟩ hlaid
    exact ⟨laid'.1, bind_eq_ok_iff.2 ⟨laid', hlaid', rfl⟩, halike⟩
  | case3 t busy ty hbasic =>
    have hbasic : ∀ name, ty ≠ .struct name := hbasic
    rw [fieldsWithin_of_basic hbasic] at h
    cases h
    exact ⟨[], fieldsWithin_of_basic hbasic, .nil⟩

/-- A type that starts at `base`, below `path`, shows a field, which lies in members that are
repeated as often as `around` says. -/
inductive Shows (table : StructTable) : Text → Nat → DataType → List Nat → Field → Prop
  | member {path name : Text} {base : Nat} {d : StructDef} {front back : List Member}
    {member : Member}
      (hd : table.get? name = some d) (hmembers : d.members = front ++ member :: back) :
      Shows table path base (.struct name) []
        ⟨joinPath path member.name, member.type, member.count, base + table.extent front⟩
  | inner {path name : Text} {base : Nat} {d : StructDef} {front back : List Member}
    {member : Member}
      {around : List Nat} {field : Field}
      (hd : table.get? name = some d) (hmembers : d.members = front ++ member :: back)
      (h : Shows table (joinPath path member.name) (base + table.extent front)
        member.type around field) :
      Shows table path base (.struct name) (member.count :: around) field

theorem offset_of_tiles {front back : List MemberPlace} {place : MemberPlace}
    {start stop : Nat} (htiles : Tiles (front ++ place :: back) start stop)
    (hsize : ∀ other ∈ front, table.sizeOf other.member.type = .ok other.size) :
    place.offset = start + table.extent (front.map (·.member)) := by
  induction front generalizing start with
  | nil => exact htiles.1
  | cons first front ih =>
    obtain ⟨hfirst, hfront⟩ := List.forall_mem_cons.1 hsize
    rw [ih htiles.2 hfront, List.map_cons, extent, bytes_eq hfirst, MemberPlace.stop,
      htiles.1, Nat.add_assoc]

theorem stop_of_tiles {places : List MemberPlace} {start stop : Nat}
    (htiles : Tiles places start stop)
    (hsize : ∀ place ∈ places, table.sizeOf place.member.type = .ok place.size) :
    stop = start + table.extent (places.map (·.member)) := by
  induction places generalizing start with
  | nil => exact htiles.symm
  | cons first places ih =>
    obtain ⟨hfirst, hplaces⟩ := List.forall_mem_cons.1 hsize
    rw [ih htiles.2 hplaces, List.map_cons, extent, bytes_eq hfirst, MemberPlace.stop,
      htiles.1, Nat.add_assoc]

/-- Every field of a layout is one that the type shows. -/
theorem shows_of_mem_fieldsWithin
    {fields : List Field} (hwhole : t.Within whole)
    (h : fieldsWithin whole t busy path base ty = .ok fields) {field : Field}
    (hmem : field ∈ fields) : ∃ around, whole.Shows path base ty around field := by
  induction t, busy, ty using sizeWithin.induct generalizing path base fields with
  | case1 t busy name hnone =>
    rw [fieldsWithin_of_none hnone] at h
    cases h
  | case2 t busy name d hd ih =>
    rw [fieldsWithin_of_some hd] at h
    obtain ⟨laid, hlaid, hfields⟩ := bind_eq_ok_iff.1 h
    cases hfields
    obtain ⟨places, hmembers, htiles, hfields, hplaces⟩ := places_of_foldlM hlaid
    rw [hfields, List.nil_append, List.mem_flatMap] at hmem
    obtain ⟨place, hplace, hmem⟩ := hmem
    obtain ⟨front, back, rfl⟩ := List.append_of_mem hplace
    have hoffset :=
      offset_of_tiles htiles fun other hother => (hplaces other (List.mem_append_left _ hother)).1
    rw [List.map_append, List.map_cons] at hmembers
    rcases List.mem_cons.1 hmem with rfl | hmem
    · exact ⟨[], hoffset ▸ .member (hwhole name d hd) hmembers.symm⟩
    · obtain ⟨around, haround⟩ :=
        ih place.member ((within_erase t name).trans hwhole) (hplaces place hplace).2 hmem
      exact ⟨place.member.count :: around, .inner (hwhole name d hd) hmembers.symm
        (hoffset ▸ haround)⟩
  | case3 t busy ty hbasic =>
    have hbasic : ∀ name, ty ≠ .struct name := hbasic
    rw [fieldsWithin_of_basic hbasic] at h
    cases h
    cases hmem

/-- A field lies inside of a type that shows it, unless a member around it is repeated no times. -/
theorem Shows.inside {base n : Nat} {around : List Nat}
    {field : Field} (h : table.Shows path base ty around field) (hn : table.sizeOf ty = .ok n) :
    ∃ k, table.sizeOf field.type = .ok k ∧ base ≤ field.offset ∧
      (0 ∉ around → field.offset + k * field.count ≤ base + n) := by
  induction h generalizing n with
  | @member path name base d front back member hd hmembers =>
    obtain ⟨d', hd', rfl, hsizes⟩ := sizeOf_struct hn
    cases hd.symm.trans hd'
    obtain ⟨k, hk⟩ := hsizes member (by rw [hmembers]; simp)
    refine ⟨k, hk, Nat.le_add_right _ _, fun _ => ?_⟩
    rw [hmembers, extent_append, extent, bytes_eq hk]
    dsimp only
    omega
  | @inner path name base d front back member around field hd hmembers _ ih =>
    obtain ⟨d', hd', rfl, hsizes⟩ := sizeOf_struct hn
    cases hd.symm.trans hd'
    obtain ⟨m, hm⟩ := hsizes member (by rw [hmembers]; simp)
    obtain ⟨k, hk, hbase, hstop⟩ := ih hm
    refine ⟨k, hk, by omega, fun hzero => ?_⟩
    rw [List.mem_cons, not_or] at hzero
    have hfirst : m ≤ m * member.count :=
      Nat.le_mul_of_pos_right m (Nat.pos_of_ne_zero (Ne.symm hzero.1))
    have hinner := hstop hzero.2
    rw [hmembers, extent_append, extent, bytes_eq hm]
    omega

/-- The fields inside of a member are those of its type, moved to where the member lies. -/
structure Moved (table : StructTable) (place : MemberPlace) (field original : Field) : Prop where
  type : field.type = original.type
  count : field.count = original.count
  offset : field.offset = place.offset + original.offset
  path : table.Named → field.path = joinPath place.member.name original.path

theorem Alike.moved {place : MemberPlace} {field original : Field}
    (h : table.Alike place.member.name place.offset [] 0 field original) :
    table.Moved place field original where
  type := h.type
  count := h.count
  offset := by have := h.offset; omega
  path := fun hnamed => by
    obtain ⟨rest, hfield, horiginal⟩ := h.path hnamed
    rw [hfield, horiginal]
    rfl

/-- A member of the right size, with the fields of its type inside of it. -/
structure Filled (table : StructTable) (place : MemberPlace) : Prop where
  size : table.sizeOf place.member.type = .ok place.size
  moved : ∃ fields, table.flatten place.member.type = .ok fields ∧
    List.Forall₂ (table.Moved place) place.inner fields
  inside : ∀ field ∈ place.inner, ∃ around k,
    table.Shows place.member.name place.offset place.member.type around field ∧
    table.sizeOf field.type = .ok k ∧ place.offset ≤ field.offset ∧
    (0 ∉ around → field.offset + k * field.count ≤ place.offset + place.size)

theorem filled_of_fieldsWithin {place : MemberPlace}
    (hwhole : t.Within table) (hsize : table.sizeOf place.member.type = .ok place.size)
    (h : fieldsWithin table t busy place.member.name place.offset place.member.type =
      .ok place.inner) :
    table.Filled place where
  size := hsize
  moved := by
    obtain ⟨fields, hfields, halike⟩ := fieldsWithin_alike hwhole hwhole h
    exact ⟨fields, hfields, halike.imp fun field original => Alike.moved⟩
  inside := fun field hmem => by
    obtain ⟨around, hshows⟩ := shows_of_mem_fieldsWithin hwhole h hmem
    obtain ⟨k, hk, hinside⟩ := hshows.inside hsize
    exact ⟨around, k, hshows, hk, hinside⟩

/-- A struct is made of its members, one behind the other. -/
theorem places_of_flatten {fields : List Field}
    (h : table.flatten (.struct name) = .ok fields) : ∃ d size places,
      table.get? name = some d ∧ table.sizeOf (.struct name) = .ok size ∧
      places.map MemberPlace.member = d.members ∧ Tiles places 0 size ∧
      fields = places.flatMap (·.fields []) ∧ ∀ place ∈ places, table.Filled place := by
  obtain ⟨size, hsize⟩ := sizeOf_of_flatten h
  obtain ⟨d, hd, hextent, -⟩ := sizeOf_struct hsize
  rw [flatten, fieldsWithin_of_some hd] at h
  obtain ⟨laid, hlaid, hfields⟩ := bind_eq_ok_iff.1 h
  cases hfields
  obtain ⟨places, hmembers, htiles, hfields, hplaces⟩ := places_of_foldlM hlaid
  have hstop : laid.2 = size := by
    rw [stop_of_tiles htiles fun place hplace => (hplaces place hplace).1, hmembers,
      Nat.zero_add, hextent]
  exact ⟨d, size, places, hd, hsize, hmembers, hstop ▸ htiles, hfields, fun place hplace =>
    filled_of_fieldsWithin (within_erase table name) (hplaces place hplace).1
      (hplaces place hplace).2⟩

/-- No number that is worked out for a type goes beyond 32 bits: neither the room that the members
of a struct take, for any struct that the type leads to, nor the end of a field. -/
structure FitsWord (table : StructTable) (ty : DataType) : Prop where
  extent_lt : ∀ start, ty = .struct start → ∀ name d, ReflTransGen table.Contains start name →
    table.get? name = some d → table.extent d.members < 2 ^ 32
  end_lt : ∀ fields, table.flatten ty = .ok fields → ∀ field ∈ fields,
    field.offset + table.bytes field.type * field.count < 2 ^ 32

/-- The members of a struct end below the limit if its fields do. -/
theorem stop_lt_of_fits {fields : List Field} {places : List MemberPlace}
    (hfits : table.FitsWord ty)
    (h : table.flatten ty = .ok fields) (hfields : fields = places.flatMap (·.fields []))
    (hfilled : ∀ place ∈ places, table.Filled place) :
    ∀ place ∈ places, place.stop < 2 ^ 32 := by
  intro place hplace
  have hmem : ⟨joinPath [] place.member.name, place.member.type, place.member.count, place.offset⟩ ∈
      fields := by
    rw [hfields]
    exact List.mem_flatMap.2 ⟨place, hplace, List.mem_cons_self⟩
  have hend := hfits.end_lt fields h _ hmem
  rwa [bytes_eq (hfilled place hplace).size] at hend

/-- The size and the layout of a type, as long as no number goes beyond 32 bits, fail with the same
errors, and succeed if no struct that the type leads to is unknown or contains itself.  The members
of a struct then fill it in the order in which they are declared, without gaps, and the fields
inside of a member are those of its type, moved to where the member lies.  They lie within the size
of the type, except for those in a member that is repeated no times. -/
theorem size_and_layout_agree (table : StructTable) (ty : DataType) (hfits : table.FitsWord ty) :
    (∀ e, table.sizeOf ty = .error e ↔ table.flatten ty = .error e) ∧
    ((∃ size, table.sizeOf ty = .ok size) ↔ table.Grounded ty) ∧
    (∀ fields, table.flatten ty = .ok fields →
      ((∀ name, ty ≠ .struct name) → fields = []) ∧
      ∀ name, ty = .struct name → ∃ d size places,
        table.get? name = some d ∧ table.sizeOf ty = .ok size ∧ size < 2 ^ 32 ∧
        places.map MemberPlace.member = d.members ∧ Tiles places 0 size ∧
        (∀ place ∈ places, place.stop < 2 ^ 32) ∧
        fields = places.flatMap (·.fields []) ∧ ∀ place ∈ places, table.Filled place) := by
  refine ⟨fun e => (flatten_eq_error_iff table ty e).symm, sizeOf_eq_ok_iff_grounded table ty,
    fun fields hfields => ⟨fun hbasic => ?_, ?_⟩⟩
  · rw [flatten, fieldsWithin_of_basic hbasic] at hfields
    cases hfields
    rfl
  · rintro name rfl
    obtain ⟨d, size, places, hd, hsize, hmembers, htiles, heq, hfilled⟩ := places_of_flatten hfields
    have hlt : size < 2 ^ 32 := by
      obtain ⟨d', hd', rfl, -⟩ := sizeOf_struct hsize
      exact hfits.extent_lt name rfl name d' .refl hd'
    exact ⟨d, size, places, hd, hsize, hlt, hmembers, htiles,
      stop_lt_of_fits hfits hfields heq hfilled, heq, hfilled⟩

/-- A point, and a line with one point at its start and two more at its ends. -/
def lineTable : StructTable :=
  ⟨[("line".toList, ⟨"Line".toList, [⟨"start".toList, .struct "point".toList, 1⟩,
      ⟨"ends".toList, .struct "Point".toList, 2⟩, ⟨"ink".toList, .int 1 false, 1⟩]⟩),
    ("point".toList,
      ⟨"Point".toList, [⟨"x".toList, .int 2 false, 1⟩, ⟨"y".toList, .int 1 true, 3⟩]⟩)]⟩

/-- The fields of a line, from one byte to the next. -/
def lineFields : List Field :=
  [⟨"start".toList, .struct "point".toList, 1, 0⟩, ⟨"start.x".toList, .int 2 false, 1, 0⟩,
    ⟨"start.y".toList, .int 1 true, 3, 2⟩, ⟨"ends".toList, .struct "Point".toList, 2, 5⟩,
    ⟨"ends.x".toList, .int 2 false, 1, 5⟩, ⟨"ends.y".toList, .int 1 true, 3, 7⟩,
    ⟨"ink".toList, .int 1 false, 1, 15⟩]

theorem size_and_layout_agree_line :
    lineTable.FitsWord (.struct "LINE".toList) ∧ lineTable.Grounded (.struct "LINE".toList) ∧
    lineTable.sizeOf (.struct "LINE".toList) = .ok 16 ∧
    lineTable.flatten (.struct "LINE".toList) = .ok lineFields ∧
    ∃ d size places, lineTable.get? "LINE".toList = some d ∧
      lineTable.sizeOf (.struct "LINE".toList) = .ok size ∧ size < 2 ^ 32 ∧
      places.map MemberPlace.member = d.members ∧ Tiles places 0 size ∧
      (∀ place ∈ places, place.stop < 2 ^ 32) ∧
      lineFields = places.flatMap (·.fields []) ∧ ∀ place ∈ places, lineTable.Filled place := by
  have hsize : lineTable.sizeOf (.struct "LINE".toList) = .ok 16 := by decide +kernel
  have hfields : lineTable.flatten (.struct "LINE".toList) = .ok lineFields := by decide +kernel
  have hfits : lineTable.FitsWord (.struct "LINE".toList) := by
    have hextents : ∀ entry ∈ lineTable.defs, lineTable.extent entry.2.members < 2 ^ 32 := by
      decide +kernel
    have hends : ∀ field ∈ lineFields,
        field.offset + lineTable.bytes field.type * field.count < 2 ^ 32 := by
      decide +kernel
    refine ⟨fun _ _ name d _ hd => ?_, fun fields h => ?_⟩
    · obtain ⟨front, back, hdefs, -⟩ := List.lookup_eq_some_iff.1 hd
      exact hextents (_, d) (hdefs ▸ List.mem_append_right _ List.mem_cons_self)
    · cases hfields.symm.trans h
      exact hends
  obtain ⟨-, hground, hlayout⟩ := size_and_layout_agree lineTable (.struct "LINE".toList) hfits
  exact ⟨hfits, hground.1 ⟨16, hsize⟩, hsize, hfields, (hlayout lineFields hfields).2 _ rfl⟩

/-- A box around a shelf, which has room for no books. -/
def shelfTable : StructTable :=
  ⟨[("box".toList, ⟨"Box".toList, [⟨"shelf".toList, .struct "Shelf".toList, 1⟩]⟩),
    ("shelf".toList, ⟨"Shelf".toList, [⟨"books".toList, .struct "Book".toList, 0⟩]⟩),
    ("book".toList, ⟨"Book".toList, [⟨"pages".toList, .int 1 false, 1⟩]⟩)]⟩

/-- The shelf takes no room, and a byte of the box lies inside of it. -/
theorem field_beyond_emptyMember :
    shelfTable.sizeOf (.struct "Shelf".toList) = .ok 0 ∧
    shelfTable.sizeOf (.int 1 false) = .ok 1 ∧
    shelfTable.flatten (.struct "Box".toList) = .ok
      [⟨"shelf".toList, .struct "Shelf".toList, 1, 0⟩,
        ⟨"shelf.books".toList, .struct "Book".toList, 0, 0⟩,
        ⟨"shelf.books.pages".toList, .int 1 false, 1, 0⟩] := by
  decide +kernel

end StructTable

end MacroAssembler
