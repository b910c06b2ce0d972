import MacroAssembler.Proofs.Passes

/-!
# The pages hold what was written

Every byte of output is noted in a log when it is written to a page.  `Pages.Logged` says that the
pages agree with the log: a cell is there exactly if the log has a byte for its address, it holds
the last of these bytes, and it counts them.  Moving about in the pages, declaring them and
selecting them keeps the agreement, and so does writing one more byte.

A page may be declared again only while it is empty, and a new page has no bytes in the log because
nothing is ever written to a page that is not there.  That is what makes declarations harmless.

The image of a page reaches over every cell.  A declared page takes no byte outside of its bounds,
and a page without bounds starts at its lowest cell and ends at its highest one.
-/

namespace MacroAssembler

open Relation

/-- The bytes that a log has for an address of a page, in the order in which they were written. -/
def writesTo (log : Array Emission) (page address : Nat) : List UInt8 :=
  (log.toList.filter fun e => e.page = page ∧ e.address = address).map Emission.value

theorem writesTo_push (log : Array Emission) (e : Emission) (page address : Nat) :
    writesTo (log.push e) page address =
      if e.page = page ∧ e.address = address then writesTo log page address ++ [e.value]
      else writesTo log page address := by
  rw [writesTo, Array.toList_push, List.filter_append, List.map_append, ← writesTo]
  by_cases h : e.page = page ∧ e.address = address
  · simp [h]
  · simp [h]

theorem writesTo_eq_nil_iff {log : Array Emission} {page address : Nat} :
    writesTo log page address = [] ↔ ∀ e ∈ log, ¬(e.page = page ∧ e.address = address) := by
  simp [writesTo, List.filter_eq_nil_iff]

/-- What a cell shows after some bytes were written to it: the last one, and how many they were. -/
def lastWrite (bytes : List UInt8) : Option (UInt8 × Nat) :=
  bytes.getLast?.map (·, bytes.length)

theorem lastWrite_eq_none_iff {bytes : List UInt8} : lastWrite bytes = none ↔ bytes = [] := by
  rw [lastWrite, Option.map_eq_none_iff, List.getLast?_eq_none_iff]

theorem lastWrite_append (bytes : List UInt8) (value : UInt8) :
    lastWrite (bytes ++ [value]) = some (value, bytes.length + 1) := by
  rw [lastWrite, List.getLast?_append, List.length_append]
  rfl

/-- The byte of a cell, and how often it was written. -/
def Cell.contents (cell : Cell) : UInt8 × Nat :=
  (cell.value, cell.writes)

theorem Cell.writes_eq {cell : Option Cell} {bytes : List UInt8}
    (h : cell.map contents = lastWrite bytes) : (cell.map writes).getD 0 = bytes.length := by
  cases cell with
  | none =>
    rw [lastWrite_eq_none_iff.1 h.symm]
    rfl
  | some cell =>
    obtain ⟨last, -, hlast⟩ := Option.map_eq_some_iff.1 h.symm
    exact (congrArg Prod.snd hlast).symm

/-- A page agrees with the part of a log that is about the page with a number. -/
structure Page.Logged (page : Page) (log : Array Emission) (n : Nat) : Prop where
  number : page.number = n
  bounds : page.origin.isSome = page.size.isSome
  cell : ∀ address, (page.cells[address]?).map Cell.contents = lastWrite (writesTo log n address)
  inside : ∀ address ∈ page.cells, page.contains address

theorem Page.logged_new {log : Array Emission} {n : Nat} (hlog : ∀ e ∈ log, e.page ≠ n)
    {origin size : Option Nat} (hbounds : origin.isSome = size.isSome) (fill : Option UInt8) :
    (Page.new n origin size fill).Logged log n where
  number := rfl
  bounds := hbounds
  cell address := by
    have hnone : writesTo log n address = [] :=
      writesTo_eq_nil_iff.2 fun e he h => hlog e he h.1
    rw [hnone]
    simp [Page.new, lastWrite]
  inside address h := by
    simp [Page.new] at h

/-- A byte that is written to a page goes to its cell. -/
theorem Page.Logged.write {page : Page} {log : Array Emission} {n address : Nat}
    (h : page.Logged log n) (hinside : page.contains address = true) (location : Option Location)
    (value : UInt8) (squished : Bool) :
    Page.Logged { page.write address value squished with pc := (address + 1) % addressSpace }
      (log.push ⟨address, n, location, value⟩) n where
  number := h.number
  bounds := h.bounds
  cell address' := by
    dsimp only [Page.write]
    rw [Std.TreeMap.getElem?_insert, writesTo_push, Cell.writes_eq (h.cell address)]
    by_cases heq : address = address'
    · subst heq
      rw [if_pos (by simp), if_pos ⟨rfl, rfl⟩, lastWrite_append]
      rfl
    · rw [if_neg (by simpa using heq), if_neg fun he => heq he.2]
      exact h.cell address'
  inside address' hmem := by
    dsimp only [Page.write] at hmem
    rw [Std.TreeMap.mem_insert] at hmem
    rcases hmem with heq | hmem
    · have heq : address = address' := by simpa using heq
      subst heq
      exact hinside
    · exact h.inside address' hmem

namespace Pages

/-- The pages agree with the log of what was written. -/
structure Logged (ps : Pages) (log : Array Emission) : Prop where
  current : ps.current ∈ ps.pages
  page : ∀ (n : Nat) (page : Page), ps.pages[n]? = some page → page.Logged log n
  known : ∀ e ∈ log, e.page ∈ ps.pages

variable {ps ps' : Pages} {log : Array Emission}

theorem getElem?_current (h : ps.current ∈ ps.pages) : ps.pages[ps.current]? = some ps.page := by
  obtain ⟨page, hpage⟩ := Option.isSome_iff_exists.1 (Std.TreeMap.mem_iff_isSome_getElem?.1 h)
  rw [Pages.page, get?, hpage]
  rfl

theorem getElem?_insert (t : Std.TreeMap Nat Page) (n m : Nat) (page : Page) :
    (t.insert n page)[m]? = if n = m then some page else t[m]? := by
  rw [Std.TreeMap.getElem?_insert]
  simp

/-- At the start there is one page, and nothing was written. -/
theorem logged_initial : Logged {} #[] where
  current := by simp
  page n page h := by
    dsimp only at h
    rw [getElem?_insert] at h
    split at h
    next hn =>
      cases h
      subst hn
      exact Page.logged_new (by simp) rfl none
    next => simp at h
  known e he := by simp at he

/-- The pages after one of them was changed or added. -/
theorem Logged.insert (h : Logged ps log) {n : Nat} {page : Page} {log' : Array Emission}
    (hpage : page.Logged log' n)
    (hother : ∀ (m : Nat) (page : Page), m ≠ n → page.Logged log m → page.Logged log' m)
    (hknown : ∀ e ∈ log', e.page = n ∨ e.page ∈ ps.pages)
    (hpages : ps'.pages = ps.pages.insert n page)
    (hcurrent : ps'.current = n ∨ ps'.current ∈ ps.pages) : Logged ps' log' where
  current := by
    rw [hpages, Std.TreeMap.mem_insert]
    rcases hcurrent with rfl | hcurrent
    · exact .inl (by simp)
    · exact .inr hcurrent
  page m page' hm := by
    rw [hpages, getElem?_insert] at hm
    split at hm
    next heq =>
      cases hm
      exact heq ▸ hpage
    next hne => exact hother m page' (Ne.symm hne) (h.page m page' hm)
  known e he := by
    rw [hpages, Std.TreeMap.mem_insert]
    rcases hknown e he with rfl | hmem
    · exact .inl (by simp)
    · exact .inr hmem

/-- Nothing was written to a page without cells. -/
theorem Logged.ne_of_isEmpty (h : Logged ps log) {n : Nat} (hempty : (ps.get? n).all Page.isEmpty) :
    ∀ e ∈ log, e.page ≠ n := by
  rintro e he rfl
  obtain ⟨page, hpage⟩ :=
    Option.isSome_iff_exists.1 (Std.TreeMap.mem_iff_isSome_getElem?.1 (h.known e he))
  rw [get?, hpage, Option.all_some, Page.isEmpty] at hempty
  have hcell := (h.page _ page hpage).cell e.address
  rw [Std.TreeMap.getElem?_of_isEmpty hempty, Option.map_none] at hcell
  exact writesTo_eq_nil_iff.1 (lastWrite_eq_none_iff.1 hcell.symm) e he ⟨rfl, rfl⟩

/-- A page can be declared only if nothing was written to it. -/
theorem Logged.define (h : Logged ps log) {number origin size : Nat} {fill : Option UInt8}
    (hdef : ps.define number origin size fill = .ok ps') : Logged ps' log := by
  have hnew : (∀ e ∈ log, e.page ≠ number) ∧ ps'.current = ps.current ∧
      ps'.pages = ps.pages.insert number (Page.new number (some origin) (some size) fill) := by
    unfold Pages.define at hdef
    dsimp only at hdef
    split at hdef
    next hzero =>
      split at hdef
      · cases hdef
      next hunlocked =>
        cases hdef
        subst hzero
        refine ⟨h.ne_of_isEmpty ?_, rfl, rfl⟩
        rw [Bool.or_eq_true, not_or, Bool.not_eq_true', Bool.not_eq_false] at hunlocked
        exact hunlocked.2
    next =>
      split at hdef
      · cases hdef
      next hmissing =>
        cases hdef
        refine ⟨?_, rfl, rfl⟩
        rintro e he rfl
        exact hmissing (Std.TreeMap.mem_iff_contains.1 (h.known e he))
  obtain ⟨hlog, hcurrent, hpages⟩ := hnew
  have hpage : (Page.new number (some origin) (some size) fill).Logged log number :=
    Page.logged_new hlog (by rfl) fill
  refine h.insert hpage ?_ ?_ hpages ?_
  · exact fun _ _ _ hm => hm
  · exact fun e he => .inr (h.known e he)
  · rw [hcurrent]
    exact .inr h.current

/-- Moving about in the pages and declaring them writes nothing. -/
theorem Logged.step (h : Logged ps log) (hstep : ps.Step ps') : Logged ps' log := by
  cases hstep with
  | setPc address =>
    have hpage := h.page _ _ (getElem?_current h.current)
    have hmoved : Page.Logged { ps.page with pc := address } log ps.current :=
      ⟨hpage.number, hpage.bounds, hpage.cell, hpage.inside⟩
    refine h.insert hmoved ?_ ?_ rfl (.inl rfl)
    · exact fun _ _ _ hm => hm
    · exact fun e he => .inr (h.known e he)
  | define hdef => exact h.define hdef
  | select hsel =>
    unfold Pages.select at hsel
    split at hsel
    next hmem =>
      cases hsel
      exact ⟨Std.TreeMap.mem_iff_contains.2 hmem, h.page, h.known⟩
    next => cases hsel
  | emptyFill fill => exact ⟨h.current, h.page, h.known⟩
  | squish on => exact ⟨h.current, h.page, h.known⟩

/-- A byte that is written goes to the log and to its cell. -/
theorem Logged.write (h : Logged ps log) {value : UInt8} {address : Nat}
    (hwrite : ps.write value = .ok (address, ps')) (location : Option Location) :
    Logged ps' (log.push ⟨address, ps'.current, location, value⟩) := by
  have hpage := h.page _ _ (getElem?_current h.current)
  unfold Pages.write at hwrite
  dsimp only at hwrite
  split at hwrite
  next hinside =>
    cases hwrite
    refine h.insert (hpage.write hinside location value _) ?_ ?_ rfl (.inl rfl)
    · rintro m page hne ⟨hnumber, hbounds, hcell, hin⟩
      refine ⟨hnumber, hbounds, fun address => ?_, hin⟩
      rw [writesTo_push, if_neg fun he => hne he.1.symm]
      exact hcell address
    · intro e he
      rcases Array.mem_push.1 he with he | rfl
      · exact .inr (h.known e he)
      · exact .inl rfl
  next => cases hwrite

end Pages

/-- A change of the state writes a byte to the pages and to the log, or to neither. -/
theorem Change.logged {stage : Stage} {failing : Prop} {st st' : State}
    (h : Change stage failing st st')
    (hst : st.pages.Logged st.emissions) : st'.pages.Logged st'.emissions := by
  cases h with
  | act h =>
    cases h with
    | control h =>
      have hpages : st'.pages = st.pages := congrArg Tracked.pages h
      have hlog : st'.emissions = st.emissions := congrArg Tracked.emissions h
      rw [hpages, hlog]
      exact hst
    | pages h => exact hst.step h
    | write h => exact hst.write h _
    | _ => exact hst
  | _ => exact hst

theorem Assembler.Passes.logged {a : Assembler} {path : Text} (p : Passes a path) :
    p.done.pages.Logged p.done.emissions :=
  keeps_of_steps (P := fun st => st.pages.Logged st.emissions) (fun _ _ => Change.logged)
    p.done_steps Pages.logged_initial

/-! ## Images -/

namespace Page

/-- Every cell of a page lies in its image. -/
theorem Logged.mem_image {page : Page} {log : Array Emission} {n address : Nat}
    (h : page.Logged log n) (hmem : address ∈ page.cells) :
    page.start ≤ address ∧ address - page.start < page.imageLength := by
  have hinside := h.inside address hmem
  have hbounds := h.bounds
  unfold contains at hinside
  unfold imageLength start
  cases horigin : page.origin with
  | some origin =>
    rw [horigin, Option.isSome_some] at hbounds
    obtain ⟨size, hsize⟩ := Option.isSome_iff_exists.1 hbounds.symm
    rw [horigin, hsize] at hinside
    rw [hsize]
    simpa using hinside
  | none =>
    rw [horigin, Option.isSome_none] at hbounds
    have hsize : page.size = none := by
      rw [← Option.isNone_iff_eq_none, ← Option.not_isSome, ← hbounds]
      rfl
    obtain ⟨low, hlow⟩ := Option.isSome_iff_exists.1 (Std.TreeMap.isSome_minKey?_of_mem hmem)
    obtain ⟨high, hhigh⟩ := Option.isSome_iff_exists.1 (Std.TreeMap.isSome_maxKey?_of_mem hmem)
    have hle : low ≤ address :=
      Nat.isLE_compare.1 ((Std.TreeMap.minKey?_eq_some_iff_mem_and_forall.1 hlow).2 address hmem)
    have hge : address ≤ high :=
      Nat.isLE_compare.1 ((Std.TreeMap.maxKey?_eq_some_iff_mem_and_forall.1 hhigh).2 address hmem)
    rw [hsize, hlow, hhigh]
    simp
    omega

theorem length_image (page : Page) (fill : UInt8) :
    (page.image fill).length = page.imageLength := by
  simp [image]

/-- The bytes of an image are those of the cells, and fill bytes between. -/
theorem getElem?_image (page : Page) (fill : UInt8) {offset : Nat}
    (h : offset < page.imageLength) :
    (page.image fill)[offset]? =
      some (((page.cells[page.start + offset]?).map Cell.value).getD (page.fill.getD fill)) := by
  rw [image, List.getElem?_map, List.getElem?_range h, Option.map_some]
  cases page.cells[page.start + offset]? with
  | some cell => rfl
  | none => rfl

/-- A page shows what a log has for it.  The bytes of the log stand in its cells and in its image,
and everywhere else the image holds the fill byte. -/
structure Shows (page : Page) (log : Array Emission) (defaultFill : UInt8) : Prop where
  mem_cells_iff : ∀ address,
    address ∈ page.cells ↔ ∃ e ∈ log, e.page = page.number ∧ e.address = address
  cell_eq : ∀ address cell, page.cells[address]? = some cell →
    (writesTo log page.number address).getLast? = some cell.value ∧
      cell.writes = (writesTo log page.number address).length
  image_cell : ∀ address cell, page.cells[address]? = some cell →
    page.start ≤ address ∧ (page.image defaultFill)[address - page.start]? = some cell.value
  image_fill : ∀ offset < (page.image defaultFill).length, page.start + offset ∉ page.cells →
    (page.image defaultFill)[offset]? = some (page.fill.getD defaultFill)

theorem Logged.shows {page : Page} {log : Array Emission} (h : page.Logged log page.number)
    (defaultFill : UInt8) : page.Shows log defaultFill where
  mem_cells_iff address := by
    have hcell : page.cells[address]? = none ↔ writesTo log page.number address = [] := by
      rw [← lastWrite_eq_none_iff, ← h.cell, Option.map_eq_none_iff]
    rw [Std.TreeMap.mem_iff_isSome_getElem?, Option.isSome_iff_ne_none, ne_eq, hcell,
      writesTo_eq_nil_iff]
    simp
  cell_eq address cell hcell := by
    have hlast := h.cell address
    rw [hcell, Option.map_some] at hlast
    obtain ⟨last, hget, heq⟩ := Option.map_eq_some_iff.1 hlast.symm
    rw [Cell.contents, Prod.mk.injEq] at heq
    rw [hget, heq.1]
    exact ⟨rfl, heq.2.symm⟩
  image_cell address cell hcell := by
    have hmem : address ∈ page.cells := by
      rw [Std.TreeMap.mem_iff_isSome_getElem?, hcell]
      rfl
    obtain ⟨hle, hlt⟩ := h.mem_image hmem
    refine ⟨hle, ?_⟩
    rw [getElem?_image page defaultFill hlt, Nat.add_sub_cancel' hle, hcell]
    rfl
  image_fill offset hlt hmem := by
    rw [length_image] at hlt
    rw [Std.TreeMap.mem_iff_isSome_getElem?, Option.not_isSome_iff_eq_none] at hmem
    rw [getElem?_image page defaultFill hlt, hmem]
    rfl

end Page

namespace Pages

variable {ps : Pages} {log : Array Emission}

theorem mem_toList_iff {page : Page} : page ∈ ps.toList ↔ ∃ n : Nat, ps.pages[n]? = some page := by
  rw [toList, List.mem_map]
  constructor
  · rintro ⟨⟨n, page⟩, hmem, rfl⟩
    exact ⟨n, Std.TreeMap.mem_toList_iff_getElem?_eq_some.1 hmem⟩
  · rintro ⟨n, hn⟩
    exact ⟨(n, page), Std.TreeMap.mem_toList_iff_getElem?_eq_some.2 hn, rfl⟩

theorem Logged.exists_of_mem (h : Logged ps log) {e : Emission} (he : e ∈ log) :
    ∃ page ∈ ps.toList, page.number = e.page := by
  obtain ⟨page, hpage⟩ :=
    Option.isSome_iff_exists.1 (Std.TreeMap.mem_iff_isSome_getElem?.1 (h.known e he))
  exact ⟨page, mem_toList_iff.2 ⟨_, hpage⟩, (h.page _ _ hpage).number⟩

/-- The pages stand in the order of their numbers. -/
theorem Logged.pairwise_number (h : Logged ps log) :
    (ps.toList.map Page.number).Pairwise (· < ·) := by
  have hnumber : ps.toList.map Page.number = ps.pages.toList.map Prod.fst := by
    rw [toList, List.map_map]
    refine List.map_congr_left fun ⟨n, page⟩ hmem => ?_
    exact (h.page n page (Std.TreeMap.mem_toList_iff_getElem?_eq_some.1 hmem)).number
  rw [hnumber, List.pairwise_map]
  exact Std.TreeMap.ordered_keys_toList.imp fun hlt => Nat.compare_eq_lt.1 hlt

end Pages

namespace Assembler

/-- **The output is the log of what was written.**  After a successful assembly every page shows
exactly its part of the log, every byte of the log has a page, and the binary consists of the images
of the pages in the order of their numbers. -/
theorem pages_show_emissions {a a' : Assembler} {path : Text} {output : Output}
    (h : assemble path a = .ok output a') :
    (∀ page ∈ output.pages.toList, page.Shows output.emissions output.pages.emptyFill) ∧
    (∀ e ∈ output.emissions, ∃ page ∈ output.pages.toList, page.number = e.page) ∧
    (output.pages.toList.map Page.number).Pairwise (· < ·) ∧
    output.binary = (output.pages.toList.map (·.image output.pages.emptyFill)).flatten := by
  obtain ⟨p⟩ := passes_of_assemble h
  have hp := p.yields h
  have hlogged : output.pages.Logged output.emissions := by
    rw [hp.pages_eq, hp.emissions_eq]
    exact p.logged
  refine ⟨fun page hmem => ?_, fun e he => hlogged.exists_of_mem he, hlogged.pairwise_number, ?_⟩
  · obtain ⟨n, hn⟩ := Pages.mem_toList_iff.1 hmem
    have hpage := hlogged.page n page hn
    exact Page.Logged.shows (hpage.number.symm ▸ hpage) _
  · rw [Output.binary, Pages.binary, List.flatMap_def]

/-- A program with two pages, one of them with bounds and with a byte that is written twice. -/
def twoPages : Assembler :=
  ofSource <| " .defpage 3, 0, 16, 255\n .page 3\n .org 5\n .db 1, 2\n .org 4\n .db 7, 8\n" ++
    " .page 0\n .db 9\n"

theorem pages_show_emissions_twoPages : ∃ output a',
    assemble "main".toList twoPages = .ok output a' ∧
    output.emissions.map Emission.value = #[1, 2, 7, 8, 9] ∧
    (∀ page ∈ output.pages.toList, page.Shows output.emissions output.pages.emptyFill) ∧
    (∀ e ∈ output.emissions, ∃ page ∈ output.pages.toList, page.number = e.page) ∧
    (output.pages.toList.map Page.number).Pairwise (· < ·) ∧
    output.binary = (output.pages.toList.map (·.image output.pages.emptyFill)).flatten := by
  have hrun : (twoPages.assemblesTo fun output =>
      output.emissions.map Emission.value == #[1, 2, 7, 8, 9]) = true := by decide +kernel
  obtain ⟨output, a', h, hvalues⟩ := exists_of_assemblesTo hrun
  exact ⟨output, a', h, beq_iff_eq.1 hvalues, pages_show_emissions h⟩

end Assembler

end MacroAssembler
