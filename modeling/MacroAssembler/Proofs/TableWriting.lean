import MacroAssembler.Instruction.TableText
import MacroAssembler.Proofs.LetterCase
import Mathlib.Algebra.GroupWithZero.Nat

/-!
# Writing an instruction table and reading it back

The reader of tables has no separators to hold on to.  A field ends where its class of characters
ends, a comment may start wherever blanks may stand, the last two fields may be missing, and the
field of the operands takes almost every character.

Here a row is written with all of its fields, and with blanks between any two of them.  What the
blanks are, in which case the hexadecimal digits are, and what stands behind the row is left open
(`RowLayout`), and so are the blank lines and the comments between the rows and the ends of the
lines (`InstructionSet.Written`).  `Instruction.Writable` says which rows can be written.  Most of
its conditions are those under which the reader accepts a row.  The rest keep a row from being read
as another: small letters are read as capitals, a semicolon would start a comment, and two
quotation marks stand for no operands.

Each field is read back by one lemma, about the field in front of any text that cannot prolong it.
These lemmas make up the reading of a line (`RowText.read_line`), and an induction on the lines
gives the table.  A carriage return and the newline behind it are one line end to the reader.
Taking them for two is no loss, since the line between them holds no row, and the rows do not
depend on the numbers of their lines.
-/

namespace MacroAssembler

variable {base n : Nat} {c : Char}

/-! ## Numerals -/

/-- A digit, as a letter in upper or in lower case if it is above nine. -/
def digit (upper : Bool) (d : Nat) : Char :=
  if upper then d.digitChar.toUpper else d.digitChar

/-- The digits of a number. -/
def numeral (upper : Bool) (base n : Nat) : Text :=
  (Nat.toDigits base n).map fun c => if upper then c.toUpper else c

/-- The digits of a number are one digit, or one digit behind those of a smaller number. -/
theorem numeral_induction (upper : Bool) (hbase : 1 < base) {motive : Nat → Text → Prop}
    (single : ∀ d < base, motive d [digit upper d]) (snoc : ∀ n digits, motive n digits →
      ∀ d < base, motive (base * n + d) (digits ++ [digit upper d])) (n : Nat) :
    motive n (numeral upper base n) := by
  induction n using Nat.strongRecOn with
  | ind n ih =>
    rw [numeral, Nat.toDigits_eq_if hbase]
    by_cases hn : n < base
    · rw [if_pos hn]
      exact single n hn
    · have hpos : 0 < base := Nat.lt_trans Nat.zero_lt_one hbase
      have hsmaller : n / base < n :=
        Nat.div_lt_self (Nat.lt_of_lt_of_le hpos (Nat.le_of_not_lt hn)) hbase
      have hmore := snoc _ _ (ih _ hsmaller) _ (Nat.mod_lt n hpos)
      rw [Nat.div_add_mod] at hmore
      rw [if_neg hn, List.map_append]
      exact hmore

theorem digitValue_digit (upper : Bool) (hbase : base ≤ 16) {d : Nat} (hd : d < base) :
    digitValue base (digit upper d) = some d := by
  have hall : ∀ upper : Bool, ∀ base < 17, ∀ d < base,
      digitValue base (digit upper d) = some d := by
    decide +kernel
  exact hall upper base (Nat.lt_succ_of_le hbase) d hd

theorem digitsValue_append_digit (base : Nat) (digits : Text) (c : Char) :
    digitsValue base (digits ++ [c]) =
      (digitsValue base digits).bind fun n => (digitValue base c).map (base * n + ·) := by
  rw [digitsValue, List.foldlM_append]
  simp only [List.foldlM_cons, List.foldlM_nil, bind_pure]
  rfl

/-- A number is read back from its digits. -/
theorem digitsValue_numeral (upper : Bool) (hbase : 1 < base) (hsixteen : base ≤ 16) (n : Nat) :
    digitsValue base (numeral upper base n) = some n := by
  refine numeral_induction upper hbase (motive := fun n digits => digitsValue base digits = some n)
    (fun d hd => ?_) (fun n digits ih d hd => ?_) n
  · have hsingle := digitsValue_append_digit base [] (digit upper d)
    rw [List.nil_append] at hsingle
    rw [hsingle, digitValue_digit upper hsixteen hd]
    simp [digitsValue]
  · rw [digitsValue_append_digit, ih, digitValue_digit upper hsixteen hd]
    rfl

theorem exists_of_mem_numeral (hbase : 1 < base) (hc : c ∈ numeral upper base n) :
    ∃ d < base, c = digit upper d := by
  refine numeral_induction upper hbase
    (motive := fun _ digits => c ∈ digits → ∃ d < base, c = digit upper d)
    (fun d hd hc => ?_) (fun n digits ih d hd hc => ?_) n hc
  · exact ⟨d, hd, List.mem_singleton.1 hc⟩
  · rcases List.mem_append.1 hc with hc | hc
    · exact ih hc
    · exact ⟨d, hd, List.mem_singleton.1 hc⟩

theorem numeral_ne_nil (upper : Bool) (base n : Nat) : numeral upper base n ≠ [] := by
  rw [numeral, ne_eq, List.map_eq_nil_iff]
  exact Nat.toDigits_ne_nil

theorem isHexDigit_digit (upper : Bool) {d : Nat} (hd : d < 16) :
    RowText.isHexDigit (digit upper d) = true := by
  rw [RowText.isHexDigit, digitValue_digit upper (Nat.le_refl 16) hd]
  rfl

theorem isHexDigit_of_mem_numeral (hc : c ∈ numeral upper 16 n) :
    RowText.isHexDigit c = true := by
  obtain ⟨d, hd, rfl⟩ := exists_of_mem_numeral (by decide) hc
  exact isHexDigit_digit upper hd

theorem isDigit_of_mem_numeral (hc : c ∈ numeral upper 10 n) : c.isDigit = true := by
  have hall : ∀ upper : Bool, ∀ d < 10, (digit upper d).isDigit = true := by decide
  obtain ⟨d, hd, rfl⟩ := exists_of_mem_numeral (by decide) hc
  exact hall upper d hd

/-- An unsigned number below the bound is read back from its digits. -/
theorem readUnsigned_numeral (upper : Bool) (hbase : 1 < base) (hsixteen : base ≤ 16) {bound : Nat}
    (hn : n < bound) :
    readUnsigned base bound (numeral upper base n) = some n := by
  have hplus : Text.after? ['+'] (numeral upper base n) = none := by
    have hall : ∀ upper : Bool, ∀ d < 16, digit upper d ≠ '+' := by decide
    obtain ⟨c, rest, hdigits⟩ := List.exists_cons_of_ne_nil (numeral_ne_nil upper base n)
    obtain ⟨d, hd, hc⟩ := exists_of_mem_numeral hbase (hdigits ▸ List.mem_cons_self : c ∈ _)
    rw [hdigits, Text.after?, if_neg]
    rw [hc]
    exact (hall upper d (Nat.lt_of_lt_of_le hd hsixteen)).symm
  rw [readUnsigned, hplus, Option.getD_none, digitsValue_numeral upper hbase hsixteen]
  simp [numeral_ne_nil, hn]

/-- A byte as two hexadecimal digits. -/
def hexPair (upper : Bool) (b : UInt8) : Text :=
  [digit upper (b.toNat / 16), digit upper (b.toNat % 16)]

theorem isHexDigit_of_mem_hexPair {b : UInt8} (hc : c ∈ hexPair upper b) :
    RowText.isHexDigit c = true := by
  have hb : b.toNat < 256 := b.toNat_lt
  rcases List.mem_pair.1 hc with rfl | rfl
  · exact isHexDigit_digit upper (by omega)
  · exact isHexDigit_digit upper (by omega)

/-! ## Layouts -/

/-- Spaces and tabs. -/
structure Blanks where
  text : Text
  blank : text.all RowText.isGap = true

/-- Spaces and tabs between two fields, at least one. -/
structure Gap extends Blanks where
  ne_nil : text ≠ []

/-- What may stand behind a row, or alone on a line: blanks and a comment. -/
structure LineTail where
  blanks : Blanks
  comment : Option Text
  inLine : (comment.getD []).all (!RowText.isLineEnd ·) = true

/-- The text of the end of a line. -/
def LineTail.text (tail : LineTail) : Text :=
  tail.blanks.text ++
    match tail.comment with
    | some comment => ';' :: comment
    | none => []

/-- What the writer of a row is free to choose. -/
structure RowLayout where
  indent : Blanks
  mnemonicGap : Gap
  operandsGap : Gap
  opcodeGap : Gap
  sizeGap : Gap
  ruleGap : Gap
  shiftGap : Gap
  /-- Whether hexadecimal digits are in upper case. -/
  upper : Bool
  tail : LineTail

/-- Nothing behind a row. -/
def LineTail.empty : LineTail :=
  ⟨⟨[], rfl⟩, none, rfl⟩

/-- One space between the fields, and no comment. -/
def RowLayout.plain : RowLayout :=
  let gap : Gap := ⟨⟨[' '], rfl⟩, List.cons_ne_nil _ _⟩
  { indent := ⟨[], rfl⟩, mnemonicGap := gap, operandsGap := gap, opcodeGap := gap, sizeGap := gap,
    ruleGap := gap, shiftGap := gap, upper := true, tail := .empty }

namespace Instruction

/-- The fields of a row, all of them written out. -/
def fields (upper : Bool) (ins : Instruction) : RowText where
  mnemonic := ins.mnemonic
  operands := if ins.operands = [] then "\"\"".toList else ins.operands
  opcode := ins.opcode.flatMap (hexPair upper)
  size := numeral upper 10 ins.size
  rule := ins.encoding.name
  shift := some (numeral upper 10 ins.shift)
  mask := some (numeral upper 16 ins.mask)

/-- A row as a line of a table. -/
def line (layout : RowLayout) (ins : Instruction) : Text :=
  let row := ins.fields layout.upper
  [layout.indent.text, row.mnemonic, layout.mnemonicGap.text, row.operands, layout.operandsGap.text,
    row.opcode, layout.opcodeGap.text, row.size, layout.sizeGap.text, row.rule, layout.ruleGap.text,
    row.shift.getD [], layout.shiftGap.text, row.mask.getD [], layout.tail.text].flatten

/-- A row that can be written in a table. -/
structure Writable (ins : Instruction) : Prop where
  mnemonic_form : ∃ c rest, ins.mnemonic = c :: rest ∧ c.isAlpha = true ∧
    rest.all (fun c => c.isAlphanum || c == '.' || c == '_') = true
  mnemonic_upper : Text.isUpper ins.mnemonic = true
  operands_upper : Text.isUpper ins.operands = true
  /-- The operands hold no space, tab or line end. -/
  operands_solid : ins.operands.all (fun c => !RowText.isGap c && !RowText.isLineEnd c) = true
  operands_head : ins.operands.head? ≠ some ';'
  operands_quotes : ¬ "\"\"".toList <+: ins.operands
  opcode_ne_nil : ins.opcode ≠ []
  opcode_le_size : ins.opcode.length ≤ ins.size
  size_le : ins.size ≤ ins.opcode.length + 4
  size_lt : ins.size < 2 ^ 32
  shift_lt : ins.shift < 32
  mask_lt : ins.mask < 2 ^ 32
  star_mem : ins.encoding ∈ [.relative8, .relative16, .bit, .restart] → '*' ∈ ins.operands

end Instruction

/-! ## Fields -/

namespace RowText

variable {p : Char → Bool} {field rest : Text}
variable {ins : Instruction}

theorem isGap_iff {c : Char} : isGap c = true ↔ c = ' ' ∨ c = '\t' := by
  rw [isGap, Bool.or_eq_true, beq_iff_eq, beq_iff_eq]

/-- The first character of what follows a field. -/
theorem head?_any_append (hne : field ≠ []) (h : ∀ c ∈ field, p c = false) (rest : Text) :
    (field ++ rest).head?.any p = false := by
  obtain ⟨c, field, rfl⟩ := List.exists_cons_of_ne_nil hne
  exact h c List.mem_cons_self

theorem head?_any_gap (gap : Gap) (hspace : p ' ' = false) (htab : p '\t' = false) (rest : Text) :
    (gap.text ++ rest).head?.any p = false := by
  refine head?_any_append gap.ne_nil (fun c hc => ?_) rest
  rcases isGap_iff.1 (List.all_eq_true.1 gap.blank c hc) with rfl | rfl
  · exact hspace
  · exact htab

theorem takeWhile_append_of_head (h : ∀ c ∈ field, p c = true) (hrest : rest.head?.any p = false) :
    (field ++ rest).takeWhile p = field ∧ (field ++ rest).dropWhile p = rest := by
  rw [List.takeWhile_append_of_pos h, List.dropWhile_append_of_pos h]
  cases rest with
  | nil => exact ⟨List.append_nil _, rfl⟩
  | cons c rest =>
    have hc : ¬ p c = true := by rw [show p c = false from hrest]; exact Bool.false_ne_true
    rw [List.takeWhile_cons_of_neg hc, List.dropWhile_cons_of_neg hc, List.append_nil]
    exact ⟨rfl, rfl⟩

theorem run_append (hne : field ≠ []) (h : ∀ c ∈ field, p c = true)
    (hrest : rest.head?.any p = false) : run p (field ++ rest) = some (field, rest) := by
  obtain ⟨htake, hdrop⟩ := takeWhile_append_of_head h hrest
  rw [run, htake, hdrop, if_neg (mt List.isEmpty_iff.1 hne)]

theorem word_append {c : Char} (hc : c.isAlpha = true) (h : ∀ c ∈ field, p c = true)
    (hrest : rest.head?.any p = false) :
    word p (c :: field ++ rest) = some (c :: field, rest) := by
  obtain ⟨htake, hdrop⟩ := takeWhile_append_of_head h hrest
  rw [List.cons_append, word, if_pos hc, htake, hdrop]

/-! ## Blanks and comments -/

theorem skip_append (blanks : Blanks) (rest : Text) : skip (blanks.text ++ rest) = skip rest := by
  rw [skip, List.dropWhile_append_of_pos (List.all_eq_true.1 blanks.blank), skip]

theorem skip_eq_self (h : rest.head?.any (fun c => isGap c || c == ';') = false) :
    skip rest = rest := by
  cases rest with
  | nil => rfl
  | cons c rest =>
    obtain ⟨hgap, hcomment⟩ := Bool.or_eq_false_iff.1 (show (isGap c || c == ';') = false from h)
    rw [skip, List.dropWhile_cons_of_neg (by rw [hgap]; exact Bool.false_ne_true)]
    split
    next heq =>
      cases heq
      cases hcomment
    next => rfl

/-- A character that ends the blanks in front of a field and starts no comment. -/
def startsField (c : Char) : Bool :=
  !isGap c && c != ';'

theorem skip_gap (blanks : Blanks) (hne : field ≠ []) (h : field.head?.all startsField = true)
    (rest : Text) : skip (blanks.text ++ (field ++ rest)) = field ++ rest := by
  rw [skip_append, skip_eq_self]
  rw [List.head?_append_of_ne_nil _ hne]
  obtain ⟨c, field, rfl⟩ := List.exists_cons_of_ne_nil hne
  have hc : startsField c = true := h
  rw [startsField, Bool.and_eq_true, Bool.not_eq_true', bne_iff_ne] at hc
  exact Bool.or_eq_false_iff.2 ⟨hc.1, beq_eq_false_iff_ne.2 hc.2⟩

/-- A class without blanks and semicolons only has characters that start a field. -/
theorem startsField_of_class (hp : [' ', '\t', ';'].any p = false) {c : Char} (hc : p c = true) :
    startsField c = true := by
  by_contra hstart
  rw [startsField, Bool.and_eq_true, Bool.not_eq_true', bne_iff_ne, not_and_or, ← ne_eq,
    Bool.ne_false_iff, not_not, isGap_iff] at hstart
  have hmem : c ∈ [' ', '\t', ';'] := by
    rcases hstart with (rfl | rfl) | rfl <;> decide
  exact Bool.false_ne_true (hp.symm.trans (List.any_eq_true.2 ⟨c, hmem, hc⟩))

theorem head?_all_startsField (hp : [' ', '\t', ';'].any p = false)
    (h : ∀ c ∈ field, p c = true) : field.head?.all startsField = true := by
  cases field with
  | nil => rfl
  | cons c field => exact startsField_of_class hp (h c List.mem_cons_self)

theorem isLineEnd_iff {c : Char} : isLineEnd c = true ↔ c = '\n' ∨ c = '\r' := by
  rw [isLineEnd, Bool.or_eq_true, beq_iff_eq, beq_iff_eq]

/-- The line ends in front of a text. -/
def EndsLine (rest : Text) : Prop :=
  rest.head?.all isLineEnd = true

theorem EndsLine.head?_any (h : EndsLine rest) (hnewline : p '\n' = false)
    (hreturn : p '\r' = false) : rest.head?.any p = false := by
  cases rest with
  | nil => rfl
  | cons c rest =>
    rcases isLineEnd_iff.1 (show isLineEnd c = true from h) with rfl | rfl
    · exact hnewline
    · exact hreturn

theorem skip_lineTail (tail : LineTail) (h : EndsLine rest) : skip (tail.text ++ rest) = rest := by
  rw [LineTail.text, List.append_assoc, skip_append]
  have hline := tail.inLine
  cases hcomment : tail.comment with
  | none => exact skip_eq_self (h.head?_any (by decide) (by decide))
  | some comment =>
    rw [hcomment] at hline
    have hend : rest.head?.any (!isLineEnd ·) = false := h.head?_any (by decide) (by decide)
    rw [skip, List.cons_append, List.dropWhile_cons_of_neg (by decide)]
    exact (takeWhile_append_of_head (List.all_eq_true.1 hline) hend).2

/-- What follows the last field of a row. -/
theorem head?_any_lineTail (tail : LineTail) (h : EndsLine rest)
    (hp : [' ', '\t', ';', '\n', '\r'].any p = false) :
    (tail.text ++ rest).head?.any p = false := by
  have hp (c : Char) (hc : c ∈ [' ', '\t', ';', '\n', '\r']) : p c = false :=
    Bool.eq_false_iff.2 fun htrue => Bool.eq_false_iff.1 hp (List.any_eq_true.2 ⟨c, hc, htrue⟩)
  rw [LineTail.text, List.append_assoc]
  by_cases hblanks : tail.blanks.text = []
  · rw [hblanks, List.nil_append]
    cases tail.comment with
    | none => exact h.head?_any (hp _ (by decide)) (hp _ (by decide))
    | some comment => exact hp ';' (by decide)
  · exact head?_any_gap ⟨tail.blanks, hblanks⟩ (hp _ (by decide)) (hp _ (by decide)) _

/-! ## Columns -/

theorem readMnemonic_append (h : ins.Writable) (gap : Gap) (rest : Text) :
    readMnemonic (ins.mnemonic ++ (gap.text ++ rest)) = some (ins.mnemonic, gap.text ++ rest) := by
  obtain ⟨c, field, hform, hc, hfield⟩ := h.mnemonic_form
  rw [hform]
  exact word_append hc (List.all_eq_true.1 hfield)
    (head?_any_gap gap (by decide) (by decide) rest)

theorem after?_quotes {operands : Text} (hne : operands ≠ []) (h : ¬ "\"\"".toList <+: operands)
    (hrest : rest.head?.any (· == '"') = false) :
    Text.after? "\"\"".toList (operands ++ rest) = none := by
  have hquotes : "\"\"".toList = ['"', '"'] := rfl
  rw [hquotes] at h ⊢
  obtain ⟨c, operands, rfl⟩ := List.exists_cons_of_ne_nil hne
  rw [List.cons_append, Text.after?]
  split
  next hc =>
    -- One quotation mark may stand at the start; then something else follows it.
    subst hc
    cases operands with
    | nil =>
      cases rest with
      | nil => rfl
      | cons d rest =>
        have hd : (d == '"') = false := hrest
        rw [List.nil_append, Text.after?, if_neg (Ne.symm (beq_eq_false_iff_ne.1 hd))]
    | cons d operands =>
      rw [List.cons_append, Text.after?, if_neg]
      rintro rfl
      exact h (List.prefix_append ['"', '"'] operands)
  next => rfl

theorem readOperands_append (h : ins.Writable) (upper : Bool) (gap : Gap) (rest : Text) :
    readOperands ((ins.fields upper).operands ++ (gap.text ++ rest)) =
      some ((ins.fields upper).operands, gap.text ++ rest) := by
  rw [Instruction.fields]
  dsimp only
  split
  · rfl
  next hne =>
    rw [readOperands,
      after?_quotes hne h.operands_quotes (head?_any_gap gap (by decide) (by decide) rest)]
    exact run_append hne (List.all_eq_true.1 h.operands_solid)
      (head?_any_gap gap (by decide) (by decide) rest)

theorem hexPairs_append (upper : Bool) (opcode : List UInt8)
    (hrest : rest.head?.any isHexDigit = false) :
    hexPairs (opcode.flatMap (hexPair upper) ++ rest) = (opcode.flatMap (hexPair upper), rest) := by
  induction opcode with
  | nil =>
    rw [List.flatMap_nil, List.nil_append]
    cases rest with
    | nil => rfl
    | cons a rest =>
      have ha : isHexDigit a = false := hrest
      cases rest with
      | nil => rfl
      | cons b rest => rw [hexPairs, ha, Bool.false_and, if_neg Bool.false_ne_true]
  | cons b opcode ih =>
    have hb : b.toNat < 256 := b.toNat_lt
    have hhigh := isHexDigit_digit upper (d := b.toNat / 16) (by omega)
    have hlow := isHexDigit_digit upper (d := b.toNat % 16) (by omega)
    rw [List.flatMap_cons, hexPair, List.append_assoc]
    simp only [List.cons_append, List.nil_append]
    rw [hexPairs, hhigh, hlow, Bool.true_and, if_pos rfl, ih]

theorem fields_opcode_ne_nil (h : ins.Writable) (upper : Bool) :
    (ins.fields upper).opcode ≠ [] := by
  obtain ⟨b, opcode, hopcode⟩ := List.exists_cons_of_ne_nil h.opcode_ne_nil
  rw [Instruction.fields, hopcode]
  exact List.cons_ne_nil _ _

theorem readOpcode_append (h : ins.Writable) (upper : Bool) (gap : Gap) (rest : Text) :
    readOpcode ((ins.fields upper).opcode ++ (gap.text ++ rest)) =
      some ((ins.fields upper).opcode, gap.text ++ rest) := by
  have hpairs := hexPairs_append upper ins.opcode
    (head?_any_gap gap (p := isHexDigit) (by decide) (by decide) rest)
  rw [readOpcode]
  dsimp only [Instruction.fields]
  rw [hpairs]
  exact if_neg (mt List.isEmpty_iff.1 (fields_opcode_ne_nil h upper))

theorem fields_operands_start (h : ins.Writable) (upper : Bool) :
    (ins.fields upper).operands ≠ [] ∧
      (ins.fields upper).operands.head?.all startsField = true := by
  dsimp only [Instruction.fields]
  split
  · exact ⟨by decide, by decide⟩
  next hne =>
    refine ⟨hne, ?_⟩
    have hhead := h.operands_head
    have hsolid := h.operands_solid
    obtain ⟨c, operands, hoperands⟩ := List.exists_cons_of_ne_nil hne
    rw [hoperands] at hhead hsolid ⊢
    rw [List.all_cons, Bool.and_eq_true, Bool.and_eq_true] at hsolid
    rw [List.head?_cons, Option.all_some, startsField, hsolid.1.1, Bool.true_and, bne_iff_ne]
    exact fun hc => hhead (congrArg some hc)

theorem rule_form (encoding : Encoding) : ∃ c rest, encoding.name = c :: rest ∧ c.isAlpha = true ∧
    rest.all Char.isAlphanum = true := by
  cases encoding <;> exact ⟨_, _, rfl, by decide, by decide⟩

theorem fields_opcode_start (ins : Instruction) (upper : Bool) :
    (ins.fields upper).opcode.head?.all startsField = true := by
  refine head?_all_startsField (p := isHexDigit) (by decide) fun c hc => ?_
  obtain ⟨b, -, hc⟩ := List.mem_flatMap.1 hc
  exact isHexDigit_of_mem_hexPair hc

/-- A written row is read back as its fields. -/
theorem read_line (h : ins.Writable) (layout : RowLayout) (hrest : EndsLine rest) :
    read (skip (ins.line layout ++ rest)) = some (ins.fields layout.upper, rest) := by
  obtain ⟨m, mnemonic, hmnemonic, hm, -⟩ := h.mnemonic_form
  have hname : ins.mnemonic ≠ [] := hmnemonic ▸ List.cons_ne_nil _ _
  have hnameStart : ins.mnemonic.head?.all startsField = true := by
    rw [hmnemonic]
    exact startsField_of_class (p := Char.isAlpha) (by decide) hm
  obtain ⟨r, rule, hrule, hr, hruleRest⟩ := rule_form ins.encoding
  have hruleStart : (r :: rule).head?.all startsField = true :=
    startsField_of_class (p := Char.isAlpha) (by decide) hr
  obtain ⟨hoperands, hoperandsStart⟩ := fields_operands_start h layout.upper
  have hdecimal (n : Nat) : ∀ c ∈ numeral layout.upper 10 n, c.isDigit = true :=
    fun c hc => isDigit_of_mem_numeral hc
  have hhex (n : Nat) : ∀ c ∈ numeral layout.upper 16 n, isHexDigit c = true :=
    fun c hc => isHexDigit_of_mem_numeral hc
  have hdecimalStart (n : Nat) := head?_all_startsField (by decide) (hdecimal n)
  have hhexStart (n : Nat) := head?_all_startsField (by decide) (hhex n)
  have hne (base n : Nat) := numeral_ne_nil layout.upper base n
  -- Field by field: the blanks in front of it are dropped, and it ends where the next blanks start.
  rw [Instruction.line]
  simp only [List.flatten_cons, List.flatten_nil, List.append_assoc, List.append_nil]
  rw [show (ins.fields layout.upper).mnemonic = ins.mnemonic from rfl,
    skip_gap layout.indent hname hnameStart, read, readMnemonic_append h]
  simp only [Option.bind_eq_bind, Option.bind_some]
  rw [skip_gap _ hoperands hoperandsStart, readOperands_append h]
  simp only [Option.bind_some]
  rw [skip_gap _ (fields_opcode_ne_nil h _) (fields_opcode_start ins _), readOpcode_append h]
  simp only [Option.bind_some, Instruction.fields, Option.getD_some]
  rw [skip_gap _ (hne 10 _) (hdecimalStart _),
    run_append (hne 10 _) (hdecimal _) (head?_any_gap _ (by decide) (by decide) _)]
  simp only [Option.bind_some]
  rw [hrule, skip_gap _ (List.cons_ne_nil _ _) hruleStart,
    word_append hr (List.all_eq_true.1 hruleRest) (head?_any_gap _ (by decide) (by decide) _)]
  simp only [Option.bind_some]
  rw [skip_gap _ (hne 10 _) (hdecimalStart _),
    run_append (hne 10 _) (hdecimal _) (head?_any_gap _ (by decide) (by decide) _)]
  dsimp only
  rw [skip_gap _ (hne 16 _) (hhexStart _),
    run_append (hne 16 _) (hhex _) (head?_any_lineTail layout.tail hrest (by decide))]
  dsimp only
  rw [skip_lineTail layout.tail hrest]
  rfl

/-! ## Rows -/

theorem hexBytes_flatMap (upper : Bool) (opcode : List UInt8) :
    hexBytes (opcode.flatMap (hexPair upper)) = opcode := by
  induction opcode with
  | nil => rfl
  | cons b opcode ih =>
    have hb : b.toNat < 256 := b.toNat_lt
    have hhigh := digitValue_digit upper (Nat.le_refl 16) (d := b.toNat / 16) (by omega)
    have hlow := digitValue_digit upper (Nat.le_refl 16) (d := b.toNat % 16) (by omega)
    rw [List.flatMap_cons, hexPair]
    simp only [List.cons_append, List.nil_append]
    rw [hexBytes, hhigh, hlow, ih, Option.getD_some, Option.getD_some, Nat.div_add_mod,
      UInt8.ofNat_toNat]

theorem ofName_name (encoding : Encoding) : Encoding.ofName encoding.name = some encoding := by
  cases encoding <;> decide

theorem problem_eq_none (h : ins.Writable) : problem ins = none := by
  have hstar : (ins.encoding.takesOperand && ins.arity == 0) = false := by
    rw [Bool.and_eq_false_imp]
    intro hrule
    have hmem : ins.encoding ∈ [Encoding.relative8, .relative16, .bit, .restart] := by
      cases hencoding : ins.encoding <;> rw [hencoding] at hrule <;> first | decide | cases hrule
    exact beq_eq_false_iff_ne.2 (Nat.ne_of_gt (List.count_pos_iff.2 (h.star_mem hmem)))
  have htrailing : ¬ 4 < ins.trailing := by
    have hsize := h.size_le
    rw [Instruction.trailing]
    omega
  rw [problem, hstar, if_neg Bool.false_ne_true, if_neg htrailing,
    if_neg (Nat.not_le_of_lt h.shift_lt)]

theorem operands_of_fields (h : ins.Writable) (upper : Bool) :
    (if (ins.fields upper).operands = "\"\"".toList then []
      else Text.asciiUpper (ins.fields upper).operands) = ins.operands := by
  by_cases hempty : ins.operands = []
  · have hfield : (ins.fields upper).operands = "\"\"".toList := if_pos hempty
    rw [if_pos hfield, hempty]
  · have hfield : (ins.fields upper).operands = ins.operands := if_neg hempty
    have hquotes : (ins.fields upper).operands ≠ "\"\"".toList :=
      fun heq => h.operands_quotes ((hfield.symm.trans heq) ▸ List.prefix_refl _)
    rw [if_neg hquotes, hfield, Text.asciiUpper_eq_self h.operands_upper]

theorem optionalNumber_numeral (upper : Bool) {base n : Nat} (hbase : 1 < base)
    (hsixteen : base ≤ 16) (hn : n < 2 ^ 32) (fault : Text → TableError) :
    optionalNumber base fault (some (numeral upper base n)) = .ok n := by
  rw [optionalNumber, show Nat.pow 2 32 = 2 ^ 32 from rfl,
    readUnsigned_numeral upper hbase hsixteen hn]

theorem check_eq_ok (h : ins.Writable) (line : Nat) : check line ins = .ok ins := by
  rw [check, if_neg (Nat.not_lt_of_le h.opcode_le_size), problem_eq_none h]

/-- The fields of a written row describe the row. -/
theorem toInstruction_fields (h : ins.Writable) (upper : Bool) (line : Nat) :
    (ins.fields upper).toInstruction line = .ok ins := by
  have hshift : ins.shift < 2 ^ 32 := Nat.lt_trans h.shift_lt (by decide)
  rw [toInstruction, operands_of_fields h]
  dsimp only [Instruction.fields]
  rw [show Nat.pow 2 32 = 2 ^ 32 from rfl,
    readUnsigned_numeral upper (by decide) (by decide) h.size_lt, ofName_name]
  dsimp only
  rw [optionalNumber_numeral upper (by decide) (by decide) hshift,
    optionalNumber_numeral upper (by decide) (by decide) h.mask_lt,
    Text.asciiUpper_eq_self h.mnemonic_upper, hexBytes_flatMap]
  exact check_eq_ok h line

end RowText

/-! ## Lines -/

open RowText

variable {text rest : Text} {row : Option RowText}
variable {upper : Bool}

theorem read_eq_none_of_endsLine (h : EndsLine rest) : RowText.read rest = none := by
  have hmnemonic : readMnemonic rest = none := by
    cases rest with
    | nil => rfl
    | cons c rest =>
      rcases isLineEnd_iff.1 (show isLineEnd c = true from h) with rfl | rfl <;> rfl
  rw [RowText.read, hmnemonic]
  rfl

theorem readRow_lineTail (tail : LineTail) (h : EndsLine rest) :
    readRow (tail.text ++ rest) = (none, rest) := by
  rw [readRow, skip_lineTail tail h, read_eq_none_of_endsLine h]

theorem readRow_line {ins : Instruction} (hins : ins.Writable) (layout : RowLayout)
    (h : EndsLine rest) :
    readRow (ins.line layout ++ rest) = (some (ins.fields layout.upper), rest) := by
  rw [readRow, read_line hins layout h]

theorem readRows_end (h : readRow text = (row, [])) (line : Nat) :
    readRows line text = .ok (row.map (line, ·)).toList := by
  rw [readRows]
  split <;> simp_all

theorem readRows_newline (h : readRow text = (row, '\n' :: rest)) (line : Nat) :
    readRows line text = (readRows (line + 1) rest).map ((row.map (line, ·)).toList ++ ·) := by
  rw [readRows]
  split <;> simp_all

/-- A carriage return is passed over, also in front of a newline: the line between the two has no
row. -/
theorem readRows_carriageReturn (h : readRow text = (row, '\r' :: rest)) (line : Nat) :
    readRows line text = (readRows line rest).map ((row.map (line, ·)).toList ++ ·) := by
  rw [readRows]
  split
  case h_3 after heq =>
    -- The reader takes both characters at once; by itself the newline ends a line without a row.
    obtain rfl : rest = '\n' :: after := by simp_all
    have hbetween : readRow ('\n' :: after) = (none, '\n' :: after) :=
      readRow_lineTail .empty rfl
    rw [h, readRows_newline hbetween]
    cases readRows (line + 1) after with
    | error e => rfl
    | ok entries => rfl
  all_goals simp_all

namespace InstructionSet

/-! ## Tables -/

/-- A line of a table with the rows on it: none, or one. -/
inductive WrittenLine : List Instruction → Text → Prop
  | filler (tail : LineTail) : WrittenLine [] tail.text
  | row (ins : Instruction) (layout : RowLayout) : WrittenLine [ins] (ins.line layout)

/-- A text is a table of the given rows, one to a line, with blank lines and comments in between.
A carriage return and a newline behind it count as two line ends, with a blank line between them. -/
inductive Written : List Instruction → Text → Prop
  | last {rows : List Instruction} {text : Text} (hline : WrittenLine rows text) : Written rows text
  | line {rows rows' : List Instruction} {text text' : Text} {c : Char}
      (hline : WrittenLine rows text) (hend : isLineEnd c = true) (hrest : Written rows' text') :
      Written (rows ++ rows') (text ++ c :: text')

/-- The rows that fields describe, each with its line. -/
def described (entries : List (Nat × RowText)) : Except TableError (List Instruction) :=
  entries.mapM fun (line, row) => row.toInstruction line

variable {rows rows' : List Instruction} {text text' : Text}

theorem described_append {entries entries' : List (Nat × RowText)}
    (h : described entries = .ok rows) (h' : described entries' = .ok rows') :
    described (entries ++ entries') = .ok (rows ++ rows') := by
  rw [described, List.mapM_append, ← described, ← described, h, h']
  rfl

/-- A line is read up to its end, and its fields describe its rows. -/
theorem WrittenLine.readRow_eq (h : WrittenLine rows text) (hrows : ∀ ins ∈ rows, ins.Writable)
    (rest : Text) (hrest : EndsLine rest) : ∃ row : Option RowText,
      readRow (text ++ rest) = (row, rest) ∧
      ∀ line, described (row.map (line, ·)).toList = .ok rows := by
  cases h with
  | filler tail => exact ⟨none, readRow_lineTail tail hrest, fun _ => rfl⟩
  | row ins layout =>
    have hins := hrows ins List.mem_cons_self
    refine ⟨_, readRow_line hins layout hrest, fun line => ?_⟩
    rw [described, Option.map_some, Option.toList_some, List.mapM_cons]
    dsimp only
    rw [toInstruction_fields hins]
    rfl

/-- The rows that are read from a text, whatever the number of its first line. -/
def ReadsAs (text : Text) (rows : List Instruction) : Prop :=
  ∀ line, ∃ entries, readRows line text = .ok entries ∧ described entries = .ok rows

theorem ReadsAs.last (h : WrittenLine rows text) (hrows : ∀ ins ∈ rows, ins.Writable) :
    ReadsAs text rows := by
  intro line
  obtain ⟨row, hread, hrow⟩ := h.readRow_eq hrows [] rfl
  rw [List.append_nil] at hread
  exact ⟨_, readRows_end hread line, hrow line⟩

theorem ReadsAs.line (h : WrittenLine rows text) (hrows : ∀ ins ∈ rows, ins.Writable) {c : Char}
    (hend : isLineEnd c = true) (hrest : ReadsAs text' rows') :
    ReadsAs (text ++ c :: text') (rows ++ rows') := by
  intro line
  obtain ⟨row, hread, hrow⟩ := h.readRow_eq hrows (c :: text') hend
  rcases isLineEnd_iff.1 hend with rfl | rfl
  · obtain ⟨entries, hentries, hrows'⟩ := hrest (line + 1)
    rw [readRows_newline hread, hentries]
    exact ⟨_, rfl, described_append (hrow line) hrows'⟩
  · obtain ⟨entries, hentries, hrows'⟩ := hrest line
    rw [readRows_carriageReturn hread, hentries]
    exact ⟨_, rfl, described_append (hrow line) hrows'⟩

theorem Written.readsAs (h : Written rows text) (hrows : ∀ ins ∈ rows, ins.Writable) :
    ReadsAs text rows := by
  induction h with
  | last hline => exact .last hline hrows
  | line hline hend _ ih =>
    exact .line hline (fun ins hins => hrows ins (List.mem_append_left _ hins)) hend
      (ih fun ins hins => hrows ins (List.mem_append_right _ hins))

theorem ReadsAs.rowsOfText_eq (h : ReadsAs text rows) : rowsOfText text = .ok rows := by
  obtain ⟨entries, hentries, hrows⟩ := h 1
  rw [rowsOfText, hentries]
  exact hrows

/-- The table of the given rows with nothing but what it needs. -/
def tableText (rows : List Instruction) : Text :=
  rows.flatMap fun ins => ins.line .plain ++ ['\n']

theorem written_tableText (rows : List Instruction) : Written rows (tableText rows) := by
  induction rows with
  | nil => exact .last (.filler .empty)
  | cons ins rows ih =>
    have hline := Written.line (.row ins .plain) (c := '\n') rfl ih
    rw [tableText, List.flatMap_cons, ← tableText, List.append_assoc]
    exact hline

/-- **Tables are read back from their text.**  Every list of rows that can be written has a text,
and every text that is a table of these rows is read as the same rows in the same order, whatever
its blanks, comments and line ends. -/
theorem rows_read_back (rows : List Instruction) (hrows : ∀ ins ∈ rows, ins.Writable) :
    Written rows (tableText rows) ∧
    ∀ text, Written rows text →
      rowsOfText text = .ok rows ∧ ∃ set, ofText text = .ok set ∧ set.rows.toList = rows := by
  refine ⟨written_tableText rows, fun text htext => ?_⟩
  have hread := (htext.readsAs hrows).rowsOfText_eq
  refine ⟨hread, ofRows rows, ?_, rfl⟩
  rw [ofText, hread]
  rfl

/-- A return, a branch, and a row whose operand starts with a single quotation mark. -/
def sampleRows : List Instruction :=
  [{ mnemonic := "RET".toList, operands := [], opcode := [0xC9], size := 1, encoding := .plain,
     shift := 0, mask := 0 },
   { mnemonic := "JR".toList, operands := "NZ,*".toList, opcode := [0x20], size := 2,
     encoding := .relative8, shift := 0, mask := 0 },
   { mnemonic := "OUT.B".toList, operands := "\"*\"".toList, opcode := [0xED, 0x0F], size := 6,
     encoding := .swapped, shift := 31, mask := 0xFFFFFFFF }]

/-- The rows in upper and lower case digits, with comments and all line ends. -/
def sampleText : Text :=
  "; a table\r\n\tRET \"\" c9 1  NOP 0\t0;back\r  \n".toList ++
  "JR NZ,* 20 2 R1 0 0\nOUT.B \"*\" ED0F 6 SWAP 31 FFFFFFFF".toList

theorem writable_sampleRows : ∀ ins ∈ sampleRows, ins.Writable := by
  intro ins hins
  simp only [sampleRows, List.mem_cons, List.not_mem_nil, or_false] at hins
  rcases hins with rfl | rfl | rfl
  all_goals
    constructor
    case mnemonic_form => exact ⟨_, _, rfl, by decide, by decide⟩
    all_goals decide

theorem written_sampleText : Written sampleRows sampleText := by
  let space : Gap := ⟨⟨[' '], rfl⟩, List.cons_ne_nil _ _⟩
  let tab : Gap := ⟨⟨['\t'], rfl⟩, List.cons_ne_nil _ _⟩
  have hcomment := WrittenLine.filler ⟨⟨[], rfl⟩, some " a table".toList, rfl⟩
  have hblank := WrittenLine.filler ⟨⟨"  ".toList, rfl⟩, none, rfl⟩
  have hreturn := WrittenLine.row (sampleRows[0])
    { RowLayout.plain with
      indent := tab.toBlanks, sizeGap := ⟨⟨"  ".toList, rfl⟩, by decide⟩, shiftGap := tab,
      upper := false, tail := ⟨⟨[], rfl⟩, some "back".toList, rfl⟩ }
  have htable : Written sampleRows _ :=
    .line hcomment (c := '\r') rfl <| .line (.filler .empty) (c := '\n') rfl <|
    .line hreturn (c := '\r') rfl <| .line hblank (c := '\n') rfl <|
    .line (.row (sampleRows[1]) .plain) (c := '\n') rfl <| .last (.row (sampleRows[2]) .plain)
  exact (congrArg (Written sampleRows) (by decide +kernel)).mp htable

theorem rows_read_back_sampleText :
    (∀ ins ∈ sampleRows, ins.Writable) ∧ Written sampleRows sampleText ∧
      rowsOfText sampleText = .ok sampleRows :=
  ⟨writable_sampleRows, written_sampleText,
    ((rows_read_back sampleRows writable_sampleRows).2 sampleText written_sampleText).1⟩

end InstructionSet

end MacroAssembler
