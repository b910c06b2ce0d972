import MacroAssembler.Proofs.Allocation
import MacroAssembler.Proofs.EncodedSize
import MacroAssembler.Proofs.OperandPattern

/-!
# The index of a table and a scan of its rows

The rows of a table are filed by mnemonic, and under each mnemonic in three groups.  `scan` does
without all this: it goes through the rows in order, as often as there are kinds of rows to try, and
takes the first one that will do.  Looking a statement up in the index comes to the same.

## The argument

A group is built by adding rows one after the other, and each of the three searches in a group is a
*view* of it: the row without operands, the row filed under a text, the first of the rows with
expressions that captures a text.  Adding a row gives each view one more candidate, behind those it
had before (`bare_add`, `fixed_add`, `wildcard_add`).  Whatever does so gives, for the group that is
built from a list of rows, the first of these rows (`view_collect`).

## Case

The words of a statement are taken in upper case and compared with the rows as they are.  Rows that
were read from a text are in upper case, so for these the comparison is one up to case.
-/

namespace MacroAssembler

/-! ## Scanning rows -/

/-- A row whose mnemonic and operands are in upper case. -/
def Instruction.isUpper (ins : Instruction) : Bool :=
  Text.isUpper ins.mnemonic && Text.isUpper ins.operands

namespace InstructionSet

/-- The first row for which `form` has a result, rows being numbered from `index`. -/
def firstRow (form : Instruction → Option (List Text)) (index : Nat) :
    List Instruction → Option Match
  | [] => none
  | ins :: rest =>
    match form ins with
    | some args => some ⟨index, args⟩
    | none => firstRow form (index + 1) rest

/-- A row without operands. -/
def bareForm (ins : Instruction) : Option (List Text) :=
  if ins.operands.isEmpty then some [] else none

/-- A row without expressions that has the given operands. -/
def fixedForm (same : (own given : Text) → Bool) (text : Text) (ins : Instruction) :
    Option (List Text) :=
  if ins.arity = 0 ∧ same ins.operands text = true then some [] else none

/-- A row with expressions, and what these take of the given operands. -/
def starForm (text : Text) (ins : Instruction) : Option (List Text) :=
  if ins.arity = 0 then none else Pattern.capture ins.operands text

/-- The rows of a mnemonic only. -/
def named (same : (own given : Text) → Bool) (mnemonic : Text)
    (form : Instruction → Option (List Text)) (ins : Instruction) : Option (List Text) :=
  if same ins.mnemonic mnemonic = true then form ins else none

/-- The row for a mnemonic with the given operands, found without an index.  Without operands it is
the first row of the mnemonic without any, else the first row with just these operands, else the
first row with expressions that captures them. -/
def scan (same : (own given : Text) → Bool) (rows : List Instruction) (mnemonic operands : Text) :
    Option Match :=
  let text := Text.squeeze operands
  if text.isEmpty then firstRow (named same mnemonic bareForm) 0 rows
  else (firstRow (named same mnemonic (fixedForm same text)) 0 rows).or
    (firstRow (named same mnemonic (starForm text)) 0 rows)

section FirstRow

variable {form form' : Instruction → Option (List Text)}

theorem firstRow_cons (index : Nat) (ins : Instruction) (rest : List Instruction) :
    firstRow form index (ins :: rest) =
      ((form ins).map (⟨index, ·⟩)).or (firstRow form (index + 1) rest) := by
  rw [firstRow]
  cases form ins <;> rfl

theorem firstRow_eq_none_iff {index : Nat} {rows : List Instruction} :
    firstRow form index rows = none ↔ ∀ ins ∈ rows, form ins = none := by
  induction rows generalizing index with
  | nil => exact iff_of_true rfl (List.forall_mem_nil _)
  | cons ins rest ih =>
    rw [firstRow_cons, Option.or_eq_none_iff, Option.map_eq_none_iff, ih, List.forall_mem_cons]

theorem firstRow_congr {index : Nat} {rows : List Instruction}
    (h : ∀ ins ∈ rows, form ins = form' ins) :
    firstRow form index rows = firstRow form' index rows := by
  induction rows generalizing index with
  | nil => rfl
  | cons ins rest ih =>
    obtain ⟨hins, hrest⟩ := List.forall_mem_cons.1 h
    rw [firstRow_cons, firstRow_cons, hins, ih hrest]

/-- Which row is the first depends on which rows have a result, not on the results. -/
theorem index_firstRow_congr (h : ∀ ins, (form ins).isSome = (form' ins).isSome) (index : Nat)
    (rows : List Instruction) :
    (firstRow form index rows).map Match.index = (firstRow form' index rows).map Match.index := by
  induction rows generalizing index with
  | nil => rfl
  | cons ins rest ih =>
    have hins := h ins
    rw [firstRow, firstRow]
    cases hform : form ins with
    | none =>
      rw [hform, Option.isSome_none, eq_comm, Option.isSome_eq_false_iff, Option.isNone_iff_eq_none]
        at hins
      rw [hins]
      exact ih (index + 1)
    | some args =>
      rw [hform, Option.isSome_some, eq_comm] at hins
      obtain ⟨args', hargs'⟩ := Option.isSome_iff_exists.1 hins
      rw [hargs']
      rfl

end FirstRow

/-! ## Groups -/

/-- The group of a mnemonic after some more rows of the table, numbered from `index`. -/
def collect (key : Text) (group : RowGroup) (index : Nat) : List Instruction → RowGroup
  | [] => group
  | ins :: rest =>
    collect key (if ins.mnemonic = key then group.add index ins else group) (index + 1) rest

/-- The index holds under each mnemonic the group of its rows. -/
theorem lookup_indexRows (key : Text) (groups : Index RowGroup) (index : Nat)
    (rows : List Instruction) :
    ((indexRows groups index rows).lookup key).getD {} =
      collect key ((groups.lookup key).getD {}) index rows := by
  induction rows generalizing groups index with
  | nil => rfl
  | cons ins rest ih =>
    rw [indexRows, ih, collect, Index.lookup_put]
    by_cases hkey : key = ins.mnemonic
    · subst hkey
      rw [if_pos rfl, if_pos rfl, Option.getD_some]
    · rw [if_neg hkey, if_neg (Ne.symm hkey)]

/-- **A view of a group finds the first row**, if adding a row gives it the result of `form` as one
more candidate. -/
theorem view_collect (view : RowGroup → Option Match) {form : Instruction → Option (List Text)}
    (key : Text) (group : RowGroup) {index : Nat} {rows : List Instruction}
    (hadd : ∀ i ins, rows[i]? = some ins → ∀ group : RowGroup,
      view (group.add (index + i) ins) = (view group).or ((form ins).map (⟨index + i, ·⟩))) :
    view (collect key group index rows) =
      (view group).or (firstRow (fun ins => if ins.mnemonic = key then form ins else none) index
        rows) := by
  induction rows generalizing group index with
  | nil => rw [collect, firstRow, Option.or_none]
  | cons ins rest ih =>
    have hrest : ∀ i ins', rest[i]? = some ins' → ∀ group : RowGroup,
        view (group.add (index + 1 + i) ins') =
          (view group).or ((form ins').map (⟨index + 1 + i, ·⟩)) := by
      intro i ins' hins'
      rw [Nat.add_assoc, Nat.add_comm 1 i]
      exact hadd (i + 1) ins' hins'
    rw [collect, ih _ hrest, firstRow_cons]
    split
    · rw [show view (group.add index ins) = _ from hadd 0 ins rfl group, Option.or_assoc]
      rfl
    · rw [Option.map_none, Option.none_or]

section Adding

variable (group : RowGroup) (index : Nat) (ins : Instruction)

theorem bare_add :
    (group.add index ins).bare.map (⟨·, []⟩ : Nat → Match) =
      (group.bare.map (⟨·, []⟩)).or ((bareForm ins).map (⟨index, ·⟩)) := by
  unfold RowGroup.add bareForm
  by_cases hbare : ins.operands.isEmpty = true
  · rw [if_pos hbare, if_pos hbare]
    cases group.bare <;> rfl
  · rw [if_neg hbare, if_neg hbare, Option.map_none, Option.or_none]
    split
    · split <;> rfl
    · rfl

theorem fixed_add {text : Text} (htext : text ≠ []) :
    ((group.add index ins).fixed.lookup text).map (⟨·, []⟩ : Nat → Match) =
      ((group.fixed.lookup text).map (⟨·, []⟩)).or
        ((fixedForm (· == ·) text ins).map (⟨index, ·⟩)) := by
  by_cases hhit : ins.arity = 0 ∧ ins.operands = text
  · obtain ⟨hfixed, rfl⟩ := hhit
    have hform : fixedForm (· == ·) ins.operands ins = some [] :=
      if_pos ⟨hfixed, beq_self_eq_true _⟩
    rw [hform, RowGroup.add, if_neg (mt List.isEmpty_iff.1 htext), if_pos hfixed]
    -- an earlier row with the same operands stays
    cases hlookup : group.fixed.lookup ins.operands with
    | some first =>
      rw [Option.isSome_some, if_pos rfl, hlookup]
      rfl
    | none =>
      rw [Option.isSome_none, if_neg Bool.false_ne_true, List.lookup_append, hlookup,
        List.lookup_cons_self]
      rfl
  · have hform : fixedForm (· == ·) text ins = none :=
      if_neg fun h => hhit ⟨h.1, beq_iff_eq.1 h.2⟩
    rw [hform, Option.map_none, Option.or_none, RowGroup.add]
    split
    · rfl
    · split
      next hfixed =>
        have hkey : (text == ins.operands) = false :=
          beq_eq_false_iff_ne.2 fun h => hhit ⟨hfixed, h.symm⟩
        split
        · rfl
        · rw [List.lookup_append, List.lookup_cons, hkey, List.lookup_nil, Option.or_none]
      next => rfl

variable {index ins}

theorem wildcard_add {set : InstructionSet} (hrow : set.row? index = some ins) (text : Text) :
    (group.add index ins).wildcard.findSome? (set.captureRow text) =
      (group.wildcard.findSome? (set.captureRow text)).or
        ((starForm text ins).map (⟨index, ·⟩)) := by
  unfold RowGroup.add starForm
  by_cases hbare : ins.operands.isEmpty = true
  · have harity : ins.arity = 0 := by
      rw [Instruction.arity, List.isEmpty_iff.1 hbare, List.count_nil]
    rw [if_pos hbare, if_pos harity, Option.map_none, Option.or_none]
  · rw [if_neg hbare]
    by_cases hfixed : ins.arity = 0
    · rw [if_pos hfixed, if_pos hfixed, Option.map_none, Option.or_none]
      split <;> rfl
    · have hcapture : set.captureRow text index =
          (Pattern.capture ins.operands text).map (⟨index, ·⟩) := by
        rw [captureRow, hrow]
        rfl
      rw [if_neg hfixed, if_neg hfixed, List.findSome?_append, List.findSome?_singleton, hcapture]

end Adding

/-! ## The index and the scan -/

/-- How the index compares words: a word of a statement in upper case with that of a row. -/
def equalsUpper (own given : Text) : Bool :=
  own == Text.asciiUpper given

/-- The search in the group of a mnemonic.  A mnemonic without a group has no rows. -/
theorem find_eq_views (set : InstructionSet) (mnemonic operands : Text) {group : RowGroup}
    (hgroup : (set.groups.lookup (Text.asciiUpper mnemonic)).getD {} = group) :
    set.find mnemonic operands =
      if (Text.squeeze operands).isEmpty then group.bare.map (⟨·, []⟩)
      else ((group.fixed.lookup (Text.asciiUpper (Text.squeeze operands))).map (⟨·, []⟩)).or
        (group.wildcard.findSome? (set.captureRow (Text.squeeze operands))) := by
  unfold find
  cases hlookup : set.groups.lookup (Text.asciiUpper mnemonic) with
  | none =>
    rw [hlookup, Option.getD_none] at hgroup
    subst hgroup
    exact (ite_self none).symm
  | some found =>
    rw [hlookup, Option.getD_some] at hgroup
    subst hgroup
    rw [Option.bind_eq_bind, Option.bind_some]
    dsimp only
    split
    · rfl
    · cases found.fixed.lookup (Text.asciiUpper (Text.squeeze operands)) <;> rfl

theorem named_equalsUpper (mnemonic : Text) (form : Instruction → Option (List Text)) :
    named equalsUpper mnemonic form =
      fun ins => if ins.mnemonic = Text.asciiUpper mnemonic then form ins else none := by
  funext ins
  rw [named, equalsUpper]
  simp only [beq_iff_eq]

/-- The index of a table finds what a scan of its rows finds. -/
theorem find_ofRows (rows : List Instruction) (mnemonic operands : Text) :
    (ofRows rows).find mnemonic operands = scan equalsUpper rows mnemonic operands := by
  have hgroup := lookup_indexRows (Text.asciiUpper mnemonic) [] 0 rows
  rw [find_eq_views (ofRows rows) mnemonic operands hgroup, scan]
  split
  next =>
    rw [named_equalsUpper]
    exact view_collect (fun group => group.bare.map (⟨·, []⟩)) _ _
      fun i ins _ group => bare_add group _ ins
  next hsome =>
    have htext : Text.asciiUpper (Text.squeeze operands) ≠ [] := by
      rw [Text.asciiUpper, ne_eq, List.map_eq_nil_iff]
      exact mt List.isEmpty_iff.2 hsome
    have hrow : ∀ i ins, rows[i]? = some ins → (ofRows rows).row? (0 + i) = some ins := by
      intro i ins hins
      rw [row?, ofRows, List.getElem?_toArray, Nat.zero_add, hins]
    rw [named_equalsUpper, named_equalsUpper]
    refine congrArg₂ Option.or ?_ ?_
    · exact view_collect (fun group => (group.fixed.lookup _).map (⟨·, []⟩)) _ _
        fun i ins _ group => fixed_add group _ ins htext
    · exact view_collect (fun group => group.wildcard.findSome? _) _ _
        fun i ins hins group => wildcard_add group (hrow i ins hins) _

/-! ## Rows that do not fit -/

/-- A row that fits a statement, whether or not another one comes first. -/
def Fits (same : (own given : Text) → Bool) (mnemonic operands : Text) (ins : Instruction) : Prop :=
  same ins.mnemonic mnemonic = true ∧
  if (Text.squeeze operands).isEmpty then ins.operands = []
  else if ins.arity = 0 then same ins.operands (Text.squeeze operands) = true
  else (Pattern.capture ins.operands (Text.squeeze operands)).isSome = true

theorem scan_eq_none_iff (same : (own given : Text) → Bool) (rows : List Instruction)
    (mnemonic operands : Text) :
    scan same rows mnemonic operands = none ↔
      ∀ ins ∈ rows, ¬ Fits same mnemonic operands ins := by
  unfold scan Fits named
  dsimp only
  split
  · rw [firstRow_eq_none_iff]
    refine forall₂_congr fun ins _ => ?_
    simp [bareForm]
  · rw [Option.or_eq_none_iff, firstRow_eq_none_iff, firstRow_eq_none_iff, ← forall₂_and]
    refine forall₂_congr fun ins _ => ?_
    -- a row is tried in one of the two searches, by its arity
    by_cases hfixed : ins.arity = 0 <;> simp [fixedForm, starForm, hfixed]

/-! ## Case -/

/-- For rows in upper case the index compares up to case. -/
theorem scan_of_isUpper {rows : List Instruction} (h : ∀ ins ∈ rows, ins.isUpper = true)
    (mnemonic operands : Text) :
    scan equalsUpper rows mnemonic operands =
      scan Text.sameIgnoringCase rows mnemonic operands := by
  have hsame {own : Text} (hown : Text.isUpper own = true) (given : Text) :
      equalsUpper own given = Text.sameIgnoringCase own given := by
    rw [Bool.eq_iff_iff, Text.sameIgnoringCase_iff_of_isUpper hown, equalsUpper, beq_iff_eq]
  have hnamed {form form' : Instruction → Option (List Text)}
      (hform : ∀ ins ∈ rows, form ins = form' ins) :
      firstRow (named equalsUpper mnemonic form) 0 rows =
        firstRow (named Text.sameIgnoringCase mnemonic form') 0 rows := by
    refine firstRow_congr fun ins hins => ?_
    rw [named, named, hsame (Bool.and_eq_true_iff.1 (h ins hins)).1, hform ins hins]
  unfold scan
  dsimp only
  rw [hnamed fun _ _ => rfl, hnamed fun ins hins => ?_, hnamed fun _ _ => rfl]
  rw [fixedForm, fixedForm, hsame (Bool.and_eq_true_iff.1 (h ins hins)).2]

/-- The case of the operands does not matter to which row is found. -/
theorem index_scan_asciiUpper (rows : List Instruction) (mnemonic operands : Text) :
    (scan equalsUpper rows mnemonic (Text.asciiUpper operands)).map Match.index =
      (scan equalsUpper rows mnemonic operands).map Match.index := by
  have hupper (text : Text) : Text.asciiUpper (Text.asciiUpper text) = Text.asciiUpper text :=
    Text.asciiUpper_eq_self (Text.isUpper_asciiUpper text)
  have hempty (text : Text) : (Text.asciiUpper text).isEmpty = text.isEmpty := List.isEmpty_map
  unfold scan
  dsimp only
  rw [Text.squeeze_asciiUpper, hempty]
  split
  · rfl
  · rw [Option.map_or, Option.map_or]
    refine congrArg₂ Option.or ?_ ?_
    · refine index_firstRow_congr (fun ins => ?_) 0 rows
      rw [named, named, fixedForm, fixedForm, equalsUpper, equalsUpper, hupper]
      rfl
    · refine index_firstRow_congr (fun ins => ?_) 0 rows
      rw [named, named, starForm, starForm, Pattern.capture_asciiUpper]
      split
      · split
        · rfl
        · exact Option.isSome_map
      · rfl

end InstructionSet

namespace RowText

/-- Reading a row puts it in upper case. -/
theorem isUpper_of_toInstruction {line : Nat} {row : RowText} {ins : Instruction}
    (h : row.toInstruction line = .ok ins) : ins.isUpper = true := by
  unfold toInstruction at h
  dsimp only at h
  split at h
  · split at h
    · obtain ⟨shift, -, h⟩ := exists_of_bind_eq_ok h
      obtain ⟨mask, -, h⟩ := exists_of_bind_eq_ok h
      obtain ⟨rfl, -, -⟩ := of_check_eq_ok h
      rw [Instruction.isUpper, Text.isUpper_asciiUpper, Bool.true_and]
      dsimp only
      split
      · rfl
      · exact Text.isUpper_asciiUpper _
    · cases h
  · cases h

end RowText

namespace InstructionSet

/-- The rows of a table that was read are in upper case, and it is the table of these rows. -/
theorem isUpper_of_ofText {text : Text} {set : InstructionSet} (h : ofText text = .ok set) :
    set = ofRows set.rows.toList ∧ ∀ ins ∈ set.rows.toList, ins.isUpper = true := by
  unfold ofText at h
  cases hrows : rowsOfText text with
  | error e =>
    rw [hrows] at h
    cases h
  | ok rows =>
    rw [hrows] at h
    cases h
    refine ⟨rfl, fun ins hins => ?_⟩
    obtain ⟨entries, -, hrows⟩ := exists_of_bind_eq_ok hrows
    obtain ⟨entry, -, hrow⟩ := exists_of_mem_mapM hrows hins
    exact RowText.isUpper_of_toInstruction hrow

/-- **Looking a statement up in the index is a scan of the table.**  For every list of rows the
index finds the row that a scan finds, with the same captures, the words of the statement being
compared in upper case.  For rows in upper case, and so for every table that was read from a text,
this is a comparison up to case.  Nothing is found exactly if no row fits, with the same comparison,
and operands that differ in the case of letters only lead to the same row. -/
theorem find_eq_scan (mnemonic operands : Text) :
    (∀ rows : List Instruction,
      (ofRows rows).find mnemonic operands = scan equalsUpper rows mnemonic operands ∧
      ((∀ ins ∈ rows, ins.isUpper = true) →
        (ofRows rows).find mnemonic operands =
          scan Text.sameIgnoringCase rows mnemonic operands ∧
        ((ofRows rows).find mnemonic operands = none ↔
          ∀ ins ∈ rows, ¬ Fits Text.sameIgnoringCase mnemonic operands ins)) ∧
      ((ofRows rows).find mnemonic operands = none ↔
        ∀ ins ∈ rows, ¬ Fits equalsUpper mnemonic operands ins) ∧
      ∀ operands', Text.sameIgnoringCase operands operands' = true →
        ((ofRows rows).find mnemonic operands).map Match.index =
          ((ofRows rows).find mnemonic operands').map Match.index) ∧
    ∀ text set, ofText text = .ok set →
      set.find mnemonic operands =
        scan Text.sameIgnoringCase set.rows.toList mnemonic operands := by
  refine ⟨fun rows => ⟨find_ofRows rows mnemonic operands, fun hupper => ?_, ?_, ?_⟩, ?_⟩
  · rw [find_ofRows, scan_of_isUpper hupper]
    exact ⟨rfl, scan_eq_none_iff _ _ _ _⟩
  · rw [find_ofRows, scan_eq_none_iff]
  · intro operands' hsame
    rw [find_ofRows, find_ofRows, ← index_scan_asciiUpper, Text.sameIgnoringCase_iff.1 hsame,
      index_scan_asciiUpper]
  · intro text set hset
    obtain ⟨heq, hupper⟩ := isUpper_of_ofText hset
    rw [heq, find_ofRows, scan_of_isUpper hupper]
    rfl

/-- A load with an expression in front of two with the same operands. -/
def loads : List Instruction :=
  [{ mnemonic := "LD".toList, operands := "A,*".toList, opcode := [0x3E], size := 2,
     encoding := .plain },
   { mnemonic := "LD".toList, operands := "A,B".toList, opcode := [0x78], size := 1,
     encoding := .plain },
   { mnemonic := "LD".toList, operands := "A,B".toList, opcode := [0x00], size := 1,
     encoding := .plain }]

/-- The operands are found before an expression could take them, in the first of the two rows. -/
theorem find_eq_scan_loads :
    (∀ ins ∈ loads, ins.isUpper = true) ∧
    Text.sameIgnoringCase "a, b".toList "A, b".toList = true ∧
    (ofRows loads).find "ld".toList "a, b".toList = some ⟨1, []⟩ ∧
    (ofRows loads).find "ld".toList "a, b".toList =
      scan Text.sameIgnoringCase loads "ld".toList "a, b".toList ∧
    ((ofRows loads).find "ld".toList "a, b".toList).map Match.index =
      ((ofRows loads).find "ld".toList "A, b".toList).map Match.index := by
  have hupper : ∀ ins ∈ loads, ins.isUpper = true := by decide
  have hsame : Text.sameIgnoringCase "a, b".toList "A, b".toList = true := by decide
  have hscan := (find_eq_scan "ld".toList "a, b".toList).1 loads
  exact ⟨hupper, hsame, by decide +kernel, (hscan.2.1 hupper).1, hscan.2.2.2 _ hsame⟩

/-- Rows in small letters: one has its mnemonic so, the other one its operands. -/
def smallRows : List Instruction :=
  [{ mnemonic := "ld".toList, operands := "A,*".toList, opcode := [0x3E], size := 2,
     encoding := .plain },
   { mnemonic := "LD".toList, operands := "a,b".toList, opcode := [0x78], size := 1,
     encoding := .plain }]

/-- **Rows in small letters are not found**, not even as they are written, where a scan that ignores
case finds them.  A pattern in small letters takes nothing. -/
theorem find_misses_smallRows :
    scan Text.sameIgnoringCase smallRows "ld".toList "A,5".toList = some ⟨0, ["5".toList]⟩ ∧
    (ofRows smallRows).find "ld".toList "A,5".toList = none ∧
    scan Text.sameIgnoringCase smallRows "LD".toList "a,b".toList = some ⟨1, []⟩ ∧
    (ofRows smallRows).find "LD".toList "a,b".toList = none ∧
    Pattern.capture "a,*".toList "a,5".toList = none := by
  decide +kernel

end InstructionSet

end MacroAssembler
