import MacroAssembler.Proofs.PageLog

/-!
# Addresses that are written more than once

The cells of a page count how often they were written.  A warning is given for every run of
neighbours that were written more than once, and the runs are found by going through the cells in
the order of their addresses.  They are the maximal ones: neither the address in front of a run nor
the one behind it was written twice.
-/

namespace MacroAssembler

/-- The ranges are the maximal runs of numbers with a property, in ascending order and both ends
included. -/
structure MaximalRuns (P : Nat → Prop) (ranges : List (Nat × Nat)) : Prop where
  ordered : ∀ r ∈ ranges, r.1 ≤ r.2
  inside : ∀ n, P n ↔ ∃ r ∈ ranges, r.1 ≤ n ∧ n ≤ r.2
  apart : ranges.Pairwise fun r s => r.2 + 1 < s.1
  starts : ∀ r ∈ ranges, ∀ n, n + 1 = r.1 → ¬ P n
  ends : ∀ r ∈ ranges, ¬ P (r.2 + 1)

namespace MaximalRuns

variable {P Q : Nat → Prop} {ranges : List (Nat × Nat)}

theorem congr (h : MaximalRuns P ranges) (hPQ : ∀ n, Q n ↔ P n) : MaximalRuns Q ranges := by
  rwa [funext fun n => propext (hPQ n)]

/-- The runs of numbers that are larger than a number begin behind it. -/
theorem lt_first (h : MaximalRuns P ranges) {a : Nat} (hlt : ∀ n, P n → a < n) {r : Nat × Nat}
    (hr : r ∈ ranges) : a < r.1 :=
  hlt r.1 ((h.inside r.1).2 ⟨r, hr, Nat.le_refl _, h.ordered r hr⟩)

/-- A number in front of a run makes it longer if it is the neighbour. -/
theorem extend {first last a : Nat} (h : MaximalRuns P ((first, last) :: ranges))
    (hlt : ∀ n, P n → a < n)
    (hnext : a + 1 = first) : MaximalRuns (fun n => n = a ∨ P n) ((a, last) :: ranges) := by
  obtain ⟨hordered, hrest⟩ := List.forall_mem_cons.1 h.ordered
  obtain ⟨hapart, hpairs⟩ := List.pairwise_cons.1 h.apart
  obtain ⟨-, hstarts⟩ := List.forall_mem_cons.1 h.starts
  obtain ⟨hend, hends⟩ := List.forall_mem_cons.1 h.ends
  dsimp only at hordered hapart hend
  refine ⟨List.forall_mem_cons.2 ⟨by dsimp only; omega, hrest⟩, fun n => ?_,
    List.pairwise_cons.2 ⟨hapart, hpairs⟩,
      List.forall_mem_cons.2 ⟨fun n hn => ?_, fun r hr n hn => ?_⟩,
    List.forall_mem_cons.2 ⟨?_, fun r hr => ?_⟩⟩
  · simp only [h.inside, List.mem_cons, exists_eq_or_imp, ← or_assoc]
    exact or_congr_left (by omega)
  · rintro (rfl | hP)
    · exact absurd hn (Nat.succ_ne_self n)
    · have := hlt n hP
      dsimp only at hn
      omega
  · have := hapart r hr
    rintro (rfl | hP)
    · omega
    · exact hstarts r hr n hn hP
  · rintro (heq | hP)
    · dsimp only at heq
      omega
    · exact hend hP
  · have := hapart r hr
    have := hrest r hr
    rintro (heq | hP)
    · omega
    · exact hends r hr hP

/-- Otherwise it is a run of its own. -/
theorem prepend {a : Nat} (h : MaximalRuns P ranges) (hlt : ∀ n, P n → a < n)
    (hnext : ∀ r ∈ ranges, a + 1 ≠ r.1) :
    MaximalRuns (fun n => n = a ∨ P n) ((a, a) :: ranges) := by
  have hbehind : ∀ r ∈ ranges, a + 1 < r.1 := fun r hr => by
    have := h.lt_first hlt hr
    have := hnext r hr
    omega
  refine ⟨List.forall_mem_cons.2 ⟨Nat.le_refl a, h.ordered⟩, fun n => ?_,
    List.pairwise_cons.2 ⟨hbehind, h.apart⟩,
      List.forall_mem_cons.2 ⟨fun n hn => ?_, fun r hr n hn => ?_⟩,
    List.forall_mem_cons.2 ⟨?_, fun r hr => ?_⟩⟩
  · simp only [h.inside, List.mem_cons, exists_eq_or_imp]
    exact or_congr_left (by omega)
  · rintro (rfl | hP)
    · exact absurd hn (Nat.succ_ne_self n)
    · have := hlt n hP
      dsimp only at hn
      omega
  · have := hbehind r hr
    rintro (rfl | hP)
    · omega
    · exact h.starts r hr n hn hP
  · rintro (heq | hP)
    · exact absurd heq (Nat.succ_ne_self a)
    · obtain ⟨r, hr, hfirst, -⟩ := (h.inside _).1 hP
      exact absurd (hbehind r hr) (Nat.not_lt.2 hfirst)
  · have := hbehind r hr
    have := h.ordered r hr
    rintro (heq | hP)
    · omega
    · exact h.ends r hr hP

end MaximalRuns

namespace Page

theorem maximalRuns_joinRanges {addresses : List Nat} (h : addresses.Pairwise (· < ·)) :
    MaximalRuns (· ∈ addresses) (joinRanges addresses) := by
  induction addresses with
  | nil => exact ⟨nofun, by simp [joinRanges], .nil, nofun, nofun⟩
  | cons address rest ih =>
    obtain ⟨hlt, hrest⟩ := List.pairwise_cons.1 h
    have hruns := ih hrest
    refine MaximalRuns.congr ?_ fun n => List.mem_cons
    rw [joinRanges]
    cases hranges : joinRanges rest with
    | nil =>
      rw [hranges] at hruns
      exact hruns.prepend hlt nofun
    | cons range ranges =>
      obtain ⟨first, last⟩ := range
      rw [hranges] at hruns
      dsimp only
      split
      next hnext => exact hruns.extend hlt hnext
      next hnext =>
        refine hruns.prepend hlt (List.forall_mem_cons.2 ⟨hnext, fun r hr => ?_⟩)
        have := (List.pairwise_cons.1 hruns.apart).1 r hr
        have := hruns.ordered _ List.mem_cons_self
        have := hruns.lt_first hlt List.mem_cons_self
        dsimp only at *
        omega

/-- The addresses of the cells that were written more than once are those which the log has
twice. -/
theorem Logged.mem_overlapping_iff {page : Page} {log : Array Emission} {n : Nat}
    (h : page.Logged log n) (address : Nat) :
    address ∈ (page.cells.toList.filter fun (_, cell) => 1 < cell.writes).map Prod.fst ↔
      2 ≤ (writesTo log n address).length := by
  rw [← Cell.writes_eq (h.cell address), List.mem_map]
  constructor
  · rintro ⟨⟨_, cell⟩, hmem, rfl⟩
    obtain ⟨hmem, hwrites⟩ := List.mem_filter.1 hmem
    rw [Std.TreeMap.mem_toList_iff_getElem?_eq_some.1 hmem]
    exact of_decide_eq_true hwrites
  · intro hwrites
    cases hcell : page.cells[address]? with
    | none =>
      rw [hcell] at hwrites
      cases hwrites
    | some cell =>
      rw [hcell] at hwrites
      exact ⟨(address, cell), List.mem_filter.2
        ⟨Std.TreeMap.mem_toList_iff_getElem?_eq_some.2 hcell, decide_eq_true hwrites⟩, rfl⟩

theorem Logged.maximalRuns {page : Page} {log : Array Emission} {n : Nat} (h : page.Logged log n) :
    MaximalRuns (fun address => 2 ≤ (writesTo log n address).length) page.overlaps := by
  refine (maximalRuns_joinRanges ?_).congr fun address => (h.mem_overlapping_iff address).symm
  refine List.pairwise_map.2 (List.Pairwise.filter _ ?_)
  exact Std.TreeMap.ordered_keys_toList.imp fun hlt => Nat.compare_eq_lt.1 hlt

end Page

namespace Pages

/-- The pages after a sequence of writes, with a log of them.  In between the program counter may
move, and pages may be declared and selected. -/
inductive Reached : Pages → Array Emission → Prop
  | start : Reached {} #[]
  | moved {ps ps' : Pages} {log : Array Emission} (h : Reached ps log) (hstep : ps.Step ps') :
      Reached ps' log
  | written {ps ps' : Pages} {log : Array Emission} (h : Reached ps log)
    {value : UInt8} {address : Nat}
      (hwrite : ps.write value = .ok (address, ps')) (location : Option Location) :
      Reached ps' (log.push ⟨address, ps'.current, location, value⟩)

theorem Reached.logged {ps : Pages} {log : Array Emission} (h : ps.Reached log) :
    ps.Logged log := by
  induction h with
  | start => exact logged_initial
  | moved _ hstep ih => exact ih.step hstep
  | written _ hwrite location ih => exact ih.write hwrite location

/-- **The overlaps of a page are the maximal runs of addresses that were written more than once.**
An address lies in one of them exactly if it was written at least twice, and between two of them
there is an address that was not. -/
theorem Reached.overlaps_maximal {ps : Pages} {log : Array Emission} (h : ps.Reached log) {n : Nat}
    {page : Page} (hpage : ps.get? n = some page) :
    MaximalRuns (fun address => 2 ≤ (writesTo log n address).length) page.overlaps :=
  (h.logged.page n page hpage).maximalRuns

/-- Writes a byte at an address, and notes it in the log. -/
def writeAt (logged : Pages × Array Emission) (address : Nat) (value : UInt8) :
    Pages × Array Emission :=
  match (logged.1.setPc address).write value with
  | .ok (address, ps) => (ps, logged.2.push ⟨address, ps.current, none, value⟩)
  | .error _ => logged

theorem reached_writeAt {logged : Pages × Array Emission}
    (h : Reached logged.1 logged.2) (address : Nat)
    (value : UInt8) :
    Reached (writeAt logged address value).1 (writeAt logged address value).2 := by
  rw [writeAt]
  split
  next hwrite => exact (h.moved (.setPc _ address)).written hwrite none
  next => exact h

/-- Four bytes, of which the last two are written again, and another one that is written twice. -/
def rewritten : Pages × Array Emission :=
  [0x10, 0x11, 0x12, 0x13, 0x12, 0x13, 0x20, 0x20].foldl (writeAt · · 7) ({}, #[])

theorem overlaps_maximal_rewritten : ∃ page, rewritten.1.get? 0 = some page ∧
    page.overlaps = [(0x12, 0x13), (0x20, 0x20)] ∧
    MaximalRuns (fun address => 2 ≤ (writesTo rewritten.2 0 address).length) page.overlaps := by
  have hreached : rewritten.1.Reached rewritten.2 :=
    List.foldlRecOn (motive := fun p : Pages × _ => p.1.Reached p.2) _ _ .start
      fun _ h address _ => reached_writeAt h address 7
  have hoverlaps : (rewritten.1.get? 0).map Page.overlaps = some [(0x12, 0x13), (0x20, 0x20)] := by
    decide +kernel
  obtain ⟨page, hpage, hoverlaps⟩ := Option.map_eq_some_iff.1 hoverlaps
  exact ⟨page, hpage, hoverlaps, hreached.overlaps_maximal hpage⟩

end Pages

end MacroAssembler
