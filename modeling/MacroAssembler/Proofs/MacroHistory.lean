import MacroAssembler.Proofs.Allocation

/-!
# The macro table and its history

The table of macros is changed in place.  A definition replaces the one with the same signature, or
is put behind the others and sorted in; what is appended goes to the definition that was made last;
a name is removed with all that is stored for it.  Beside it stands here a log for each key, in
which nothing is sorted and nothing is replaced: it holds the definitions since the key was last
removed, each with what has been appended to it.

* Of the definitions with the same signature the latest one counts (`Current`).
* They are ordered by rank, and those of one rank by the place where their signatures were first
  defined (`Precedes`).

The sort is stable, a replaced definition keeps its place, and appending changes no signature.  So
after every operation the list of a key holds just the current replacements in that order (`Lists`).
-/

namespace MacroAssembler

open Replacement

/-! ## Signatures -/

/-- What counts of a slot when signatures are compared. -/
def Slot.signature : Slot → Slot
  | .wildcard _ => .wildcard []
  | .text chars => .text (Text.asciiLower chars)
  | .value chars => .value chars

theorem Slot.same_iff {a b : Slot} : a.same b = true ↔ a.signature = b.signature := by
  cases a <;> cases b <;> simp [same, signature, Text.sameIgnoringCase]

theorem Slot.isWildcard_signature (a : Slot) : a.signature.isWildcard = a.isWildcard := by
  cases a <;> rfl

namespace Replacement

/-- What counts of a replacement when signatures are compared. -/
def signature (r : Replacement) : Option (List Slot) :=
  r.slots.map (·.map Slot.signature)

theorem sameSlots_iff {as bs : List Slot} :
    sameSlots as bs = true ↔ as.map Slot.signature = bs.map Slot.signature := by
  induction as generalizing bs with
  | nil => cases bs <;> simp [sameSlots]
  | cons a as ih =>
    cases bs with
    | nil => simp [sameSlots]
    | cons b bs => simp [sameSlots, Slot.same_iff, ih]

theorem sameSignature_iff {r s : Replacement} :
    r.sameSignature s = true ↔ r.signature = s.signature := by
  rw [sameSignature, signature, signature]
  cases r.slots <;> cases s.slots <;> simp [sameSlots_iff]

theorem sameSignature_eq_false_iff {r s : Replacement} :
    r.sameSignature s = false ↔ r.signature ≠ s.signature := by
  rw [← Bool.not_eq_true, sameSignature_iff]

/-- The rank is told by the signature. -/
theorem rank_eq_of_signature_eq {r s : Replacement} (h : r.signature = s.signature) :
    r.rank = s.rank := by
  have hrank : ∀ q : Replacement, q.rank = (q.signature.getD []).countP (!·.isWildcard) := by
    intro q
    rw [rank, signature]
    cases q.slots with
    | none => rfl
    | some slots =>
      rw [Option.map_some, Option.getD_some, Option.getD_some, List.countP_map]
      exact List.countP_congr fun a _ => by rw [Function.comp_apply, Slot.isWildcard_signature]
  rw [hrank, hrank, h]

/-- The replacement with a text appended to its template. -/
def extend (text : Text) (r : Replacement) : Replacement :=
  { r with template := r.template ++ text }

end Replacement

/-! ## Putting a definition in its place -/

section Sorting

variable {α : Type} {rank first : α → Nat} {list : List α}

theorem rank_trans (a b c : α) (hab : decide (rank b ≤ rank a) = true)
    (hbc : decide (rank c ≤ rank b) = true) : decide (rank c ≤ rank a) = true := by
  rw [decide_eq_true_eq] at *
  exact hbc.trans hab

theorem rank_total (a b : α) : (decide (rank b ≤ rank a) || decide (rank a ≤ rank b)) = true := by
  rw [Bool.or_eq_true, decide_eq_true_eq, decide_eq_true_eq]
  exact Nat.le_total _ _

theorem filter_mergeSort_rank (n : Nat) :
    (list.mergeSort fun a b => rank b ≤ rank a).filter (rank · = n) = list.filter (rank · = n) := by
  have hsorted :
      (list.filter (rank · = n)).Pairwise fun a b => decide (rank b ≤ rank a) = true := by
    refine List.pairwise_of_forall_mem_list fun a ha b hb => ?_
    simp only [List.mem_filter, decide_eq_true_eq] at ha hb ⊢
    omega
  have hsub : (list.filter (rank · = n)).Sublist
      ((list.mergeSort fun a b => rank b ≤ rank a).filter (rank · = n)) := by
    have hall := (List.sublist_mergeSort rank_trans rank_total hsorted
      List.filter_sublist).filter (rank · = n)
    simpa only [List.filter_filter, Bool.and_self] using hall
  exact (hsub.eq_of_length ((List.mergeSort_perm list _).filter _).length_eq.symm).symm

/-- Sorting by rank keeps the order of those that have the same rank. -/
theorem pairwise_mergeSort_rank
    (h : list.Pairwise fun a b => rank a = rank b → first a < first b) :
    (list.mergeSort fun a b => rank b ≤ rank a).Pairwise fun a b =>
      rank b < rank a ∨ rank b = rank a ∧ first a < first b := by
  have hsorted : (list.mergeSort fun a b => rank b ≤ rank a).Pairwise fun a b =>
      decide (rank b ≤ rank a) = true :=
    List.pairwise_mergeSort rank_trans rank_total list
  refine List.pairwise_iff_forall_sublist.2 fun {a b} hpair => ?_
  have hle := of_decide_eq_true (List.pairwise_iff_forall_sublist.1 hsorted hpair)
  rcases Nat.lt_or_ge (rank b) (rank a) with hlt | hge
  · exact .inl hlt
  · have heq : rank b = rank a := Nat.le_antisymm hle hge
    refine .inr ⟨heq, List.pairwise_iff_forall_sublist.1 h ?_ heq.symm⟩
    -- both are among those of their rank, whose order has not changed
    have hfilter := hpair.filter (rank · = rank a)
    rw [filter_mergeSort_rank] at hfilter
    have hkeep : [a, b].filter (rank · = rank a) = [a, b] := by simp [heq]
    rw [hkeep] at hfilter
    exact hfilter.trans List.filter_sublist

theorem pairwise_replace {R : α → α → Prop} {front back : List α} {a b : α}
    (h : (front ++ a :: back).Pairwise R) (hleft : ∀ x, R x a → R x b)
    (hright : ∀ x, R a x → R b x) : (front ++ b :: back).Pairwise R := by
  simp only [List.pairwise_append, List.pairwise_cons, List.forall_mem_cons] at h ⊢
  obtain ⟨hfront, ⟨hback, hrest⟩, hacross⟩ := h
  exact ⟨hfront, ⟨fun x hx => hright x (hback x hx), hrest⟩,
    fun x hx => ⟨hleft x (hacross x hx).1, (hacross x hx).2⟩⟩

end Sorting

namespace MacroTable

theorem updateFirst_cases (r : Replacement) (f : Replacement → Replacement)
    (list : List Replacement) :
    (∃ front s back, list = front ++ s :: back ∧ s.signature = r.signature ∧
      updateFirst r f list = some (front ++ f s :: back)) ∨
    (∀ s ∈ list, s.signature ≠ r.signature) ∧ updateFirst r f list = none := by
  induction list with
  | nil => exact .inr ⟨List.forall_mem_nil _, rfl⟩
  | cons s rest ih =>
    rw [updateFirst]
    by_cases hs : s.sameSignature r = true
    · rw [if_pos hs]
      exact .inl ⟨[], s, rest, rfl, sameSignature_iff.1 hs, rfl⟩
    · rw [if_neg hs]
      rcases ih with ⟨front, q, back, rfl, hq, hupdate⟩ | ⟨hnone, hupdate⟩
      · exact .inl ⟨s :: front, q, back, rfl, hq, by rw [hupdate]; rfl⟩
      · refine .inr ⟨List.forall_mem_cons.2 ⟨fun hsame => hs ?_, hnone⟩, by rw [hupdate]; rfl⟩
        exact sameSignature_iff.2 hsame

/-- A definition takes the place of the one with its signature, or is sorted in behind the
others. -/
theorem addReplacement_cases (r : Replacement) {list : List Replacement}
    (hsorted : list.Pairwise fun a b => b.rank ≤ a.rank) :
    (∃ front s back, list = front ++ s :: back ∧ s.signature = r.signature ∧
      addReplacement r list = front ++ r :: back) ∨
    (∀ s ∈ list, s.signature ≠ r.signature) ∧
      addReplacement r list = (list ++ [r]).mergeSort fun a b => b.rank ≤ a.rank := by
  rw [addReplacement]
  rcases updateFirst_cases r (fun _ => r) list with ⟨front, s, back, rfl, hs, hupdate⟩ |
    ⟨hnone, hupdate⟩
  · refine .inl ⟨front, s, back, rfl, hs, ?_⟩
    rw [hupdate, Option.getD_some]
    -- the ranks are the same as before, so there is nothing to sort
    have hrank := rank_eq_of_signature_eq hs
    refine List.mergeSort_of_pairwise ?_
    simp only [decide_eq_true_eq]
    exact pairwise_replace hsorted (fun x hx => hrank ▸ hx) fun x hx => hrank ▸ hx
  · exact .inr ⟨hnone, by rw [hupdate, Option.getD_none]⟩

end MacroTable

/-! ## Logs -/

/-- What can be done to a table of macros. -/
inductive MacroOperation where
  | define (name : Text) (r : Replacement)
  | undefine (name : Text)
  | append (text : Text)

/-- What has been defined under a key since the key was last removed. -/
structure MacroLog where
  /-- The definitions with what has been appended to them, the latest first. -/
  entries : List Replacement := []
  /-- Whether the latest one is the last definition of all, so that it can be appended to. -/
  isOpen : Bool := false

namespace MacroLog

variable (caseSensitive : Bool) (key : Text)

/-- The log after one more operation. -/
def note (log : MacroLog) : MacroOperation → MacroLog
  | .define name r =>
    if Text.nameKey caseSensitive name = key then ⟨r :: log.entries, true⟩ else ⟨log.entries, false⟩
  | .undefine name => if Text.nameKey caseSensitive name = key then {} else log
  | .append text =>
    match log with
    | ⟨d :: older, true⟩ => ⟨d.extend text :: older, true⟩
    | log => log

/-- The log after a sequence of operations, the first one first. -/
def ofHistory (history : List MacroOperation) : MacroLog :=
  history.foldl (note caseSensitive key) {}

variable (entries : List Replacement)

/-- A replacement is the latest definition of its signature. -/
def Current (r : Replacement) : Prop :=
  ∃ newer older, entries = newer ++ r :: older ∧ ∀ s ∈ newer, s.signature ≠ r.signature

/-- The place of the first definition that has the signature of a replacement. -/
def firstDefined (r : Replacement) : Nat :=
  (entries.reverse.map (·.signature)).idxOf r.signature

/-- A higher rank comes first, and among equal ranks what was defined first. -/
def Precedes (r s : Replacement) : Prop :=
  s.rank < r.rank ∨ s.rank = r.rank ∧ firstDefined entries r < firstDefined entries s

/-- A list holds the current replacements in the order in which they are tried. -/
structure Lists (list : List Replacement) : Prop where
  mem_iff : ∀ r, r ∈ list ↔ Current entries r
  distinct : list.Pairwise fun r s => r.sameSignature s = false
  ordered : list.Pairwise (Precedes entries)

variable {entries} {d r s : Replacement} {list : List Replacement}

theorem not_current_nil : ¬ Current [] r := by
  rintro ⟨newer, older, hentries, -⟩
  simp at hentries

theorem current_cons :
    Current (d :: entries) r ↔ r = d ∨ Current entries r ∧ d.signature ≠ r.signature := by
  constructor
  · rintro ⟨newer, older, hentries, hnewer⟩
    cases newer with
    | nil =>
      cases hentries
      exact .inl rfl
    | cons first newer =>
      cases hentries
      obtain ⟨hfirst, hnewer⟩ := List.forall_mem_cons.1 hnewer
      exact .inr ⟨⟨newer, older, rfl, hnewer⟩, hfirst⟩
  · rintro (rfl | ⟨⟨newer, older, rfl, hnewer⟩, hd⟩)
    · exact ⟨[], entries, rfl, List.forall_mem_nil _⟩
    · exact ⟨d :: newer, older, rfl, List.forall_mem_cons.2 ⟨hd, hnewer⟩⟩

theorem mem_of_current (h : Current entries r) : r ∈ entries := by
  obtain ⟨newer, older, rfl, -⟩ := h
  exact List.mem_append_right _ List.mem_cons_self

theorem exists_current_of_mem (h : d ∈ entries) :
    ∃ r, Current entries r ∧ r.signature = d.signature := by
  induction entries with
  | nil => cases h
  | cons first older ih =>
    by_cases hfirst : first.signature = d.signature
    · exact ⟨first, current_cons.2 (.inl rfl), hfirst⟩
    · rcases List.mem_cons.1 h with rfl | h
      · exact absurd rfl hfirst
      · obtain ⟨r, hr, hsignature⟩ := ih h
        exact ⟨r, current_cons.2 (.inr ⟨hr, hsignature ▸ hfirst⟩), hsignature⟩

/-! ### The order -/

theorem Precedes.congr {r' s' : Replacement} (h : Precedes entries r s)
    (hr : r.signature = r'.signature) (hs : s.signature = s'.signature) :
    Precedes entries r' s' := by
  rw [Precedes, firstDefined, firstDefined, ← hr, ← hs, ← rank_eq_of_signature_eq hr,
    ← rank_eq_of_signature_eq hs]
  exact h

theorem Precedes.signature_ne (h : Precedes entries r s) : r.signature ≠ s.signature := by
  intro hsame
  have hrank := rank_eq_of_signature_eq hsame
  rw [Precedes, firstDefined, firstDefined, hsame] at h
  omega

theorem Precedes.rank_le (h : Precedes entries r s) : s.rank ≤ r.rank := by
  rcases h with hlt | ⟨heq, -⟩
  · exact Nat.le_of_lt hlt
  · exact Nat.le_of_eq heq

theorem firstDefined_lt (h : r ∈ entries) : firstDefined entries r < entries.length := by
  have hmem : r.signature ∈ entries.reverse.map (·.signature) :=
    List.mem_map_of_mem (List.mem_reverse.2 h)
  simpa [firstDefined] using List.idxOf_lt_length_of_mem hmem

/-- One more definition does not change the place of what has been defined. -/
theorem firstDefined_cons (h : r ∈ entries) :
    firstDefined (d :: entries) r = firstDefined entries r := by
  rw [firstDefined, List.reverse_cons, List.map_append, List.idxOf_append,
    if_pos (List.mem_map_of_mem (List.mem_reverse.2 h)), firstDefined]

theorem firstDefined_new (h : ∀ s ∈ entries, s.signature ≠ r.signature) :
    firstDefined (r :: entries) r = entries.length := by
  have hnot : r.signature ∉ entries.reverse.map (·.signature) := by simpa using h
  rw [firstDefined, List.reverse_cons, List.map_append, List.idxOf_append, if_neg hnot]
  simp

namespace Lists

theorem of_ordered (hmem : ∀ r, r ∈ list ↔ Current entries r)
    (hordered : list.Pairwise (Precedes entries)) : Lists entries list where
  mem_iff := hmem
  distinct := hordered.imp fun h => sameSignature_eq_false_iff.2 h.signature_ne
  ordered := hordered

theorem nil : Lists [] [] :=
  of_ordered (fun _ => iff_of_false List.not_mem_nil not_current_nil) List.Pairwise.nil

theorem eq_nil (h : Lists [] list) : list = [] :=
  List.eq_nil_iff_forall_not_mem.2 fun r hr => not_current_nil ((h.mem_iff r).1 hr)

theorem mem_replace {front back : List Replacement} (h : Lists entries (front ++ s :: back))
    (b x : Replacement) :
    x ∈ front ++ b :: back ↔ x = b ∨ x ∈ front ++ s :: back ∧ s.signature ≠ x.signature := by
  have hdistinct := h.distinct
  simp only [List.pairwise_append, List.pairwise_cons, List.forall_mem_cons,
    sameSignature_eq_false_iff] at hdistinct
  obtain ⟨-, ⟨hback, -⟩, hacross⟩ := hdistinct
  simp only [List.mem_append, List.mem_cons]
  constructor
  · rintro (hx | rfl | hx)
    · exact .inr ⟨.inl hx, (hacross x hx).1.symm⟩
    · exact .inl rfl
    · exact .inr ⟨.inr (.inr hx), hback x hx⟩
  · rintro (rfl | ⟨hx | rfl | hx, hdiffers⟩)
    · exact .inr (.inl rfl)
    · exact .inl hx
    · exact absurd rfl hdiffers
    · exact .inr (.inr hx)

/-- A definition goes where it belongs. -/
theorem define (h : Lists entries list) (r : Replacement) :
    Lists (r :: entries) (MacroTable.addReplacement r list) := by
  have hmem : ∀ x ∈ list, x ∈ entries := fun x hx => mem_of_current ((h.mem_iff x).1 hx)
  have hordered : list.Pairwise (Precedes (r :: entries)) := by
    refine h.ordered.imp_of_mem fun {a b} ha hb hprecedes => ?_
    rw [Precedes, firstDefined_cons (hmem a ha), firstDefined_cons (hmem b hb)]
    exact hprecedes
  rcases MacroTable.addReplacement_cases r (h.ordered.imp Precedes.rank_le) with
    ⟨front, s, back, rfl, hs, heq⟩ | ⟨hnew, heq⟩
  · rw [heq]
    refine of_ordered (fun x => ?_) (pairwise_replace hordered ?_ ?_)
    · rw [h.mem_replace, current_cons, h.mem_iff, hs]
    · exact fun x hx => hx.congr rfl hs
    · exact fun x hx => hx.congr hs rfl
  · rw [heq]
    refine of_ordered (fun x => ?_) (pairwise_mergeSort_rank (List.pairwise_append.2 ⟨?_, ?_, ?_⟩))
    · rw [List.mem_mergeSort, List.mem_append, List.mem_singleton, current_cons,
        ← h.mem_iff, or_comm]
      exact or_congr_right (and_iff_left_of_imp fun hx => (hnew x hx).symm).symm
    · exact hordered.imp fun {a b} hab hrank => (hab.resolve_left (by omega)).2
    · exact List.pairwise_singleton _ _
    · -- the new signature is defined behind all the others
      have hlast : firstDefined (r :: entries) r = entries.length := by
        refine firstDefined_new fun d hd => ?_
        obtain ⟨q, hq, hsignature⟩ := exists_current_of_mem hd
        exact hsignature ▸ hnew q ((h.mem_iff q).2 hq)
      intro a ha b hb _
      rw [List.mem_singleton.1 hb, hlast, firstDefined_cons (hmem a ha)]
      exact firstDefined_lt (hmem a ha)

/-- What is appended to the latest definition goes to the replacement with its signature. -/
theorem extend {front back : List Replacement} (h : Lists (d :: entries) (front ++ s :: back))
    (hs : s.signature = d.signature) (text : Text) :
    Lists (d.extend text :: entries) (front ++ s.extend text :: back) := by
  have hsame : Precedes (d.extend text :: entries) = Precedes (d :: entries) := by
    funext a b
    simp only [Precedes, firstDefined, List.reverse_cons, List.map_append]
    rfl
  have hsd : s = d := by
    have hcurrent := current_cons.1 ((h.mem_iff s).1 (by simp))
    exact hcurrent.resolve_right fun hother => hother.2 hs.symm
  refine of_ordered (fun x => ?_) (hsame ▸ pairwise_replace h.ordered ?_ ?_)
  · rw [h.mem_replace, current_cons, h.mem_iff, current_cons, hsd]
    refine or_congr_right ⟨fun hx => ⟨(hx.1.resolve_left fun heq => hx.2 (heq ▸ rfl)).1, hx.2⟩, ?_⟩
    exact fun hx => ⟨.inr hx, hx.2⟩
  · exact fun x hx => hx.congr rfl rfl
  · exact fun x hx => hx.congr rfl rfl

end Lists

end MacroLog

end MacroAssembler
