import MacroAssembler.Proofs.FloatSign
import MacroAssembler.Proofs.Formula

/-!
# Reading operands and operators back

What the readers of the evaluator make of a text that starts with something printed: a decimal
literal, a label, the value of a group, an operator.  An operand is read up to the blank behind it,
or up to the end.

A value is written by the digits of its absolute value, with a mark in front if it is negative.
There is one exception: the negative zero is written with an ordinary minus sign, which the reader
of terms takes for an operator in front of a zero.  Either way the term has the value again.
-/

namespace MacroAssembler

variable {c : Char} {text tail : Text}

/-! ## Characters -/

/-- A property of a few characters is decided along their list, and not by trying all characters. -/
theorem forall_mem_of_all {p : Char → Prop} [DecidablePred p]
    (h : text.all (fun c => decide (p c)) = true) : ∀ c ∈ text, p c :=
  fun c hc => of_decide_eq_true (List.all_eq_true.1 h c hc)

theorem CodeRanges.has_iff {ranges : CodeRanges} :
    ranges.has c = true ↔ ∃ r ∈ ranges, r.1 ≤ c.toNat ∧ c.toNat ≤ r.2 := by
  simp only [CodeRanges.has, List.any_eq_true, Bool.and_eq_true, decide_eq_true_eq]

theorem blankRanges_apart : ∀ b ∈ blankRanges, ∀ r ∈ alphabeticRanges ++ numericRanges,
    r.2 < b.1 ∨ b.2 < r.1 := by
  decide +kernel

/-- A blank ends a name. -/
theorem isNameChar_of_isBlank (h : isBlank c = true) : isNameChar c = false := by
  unfold isBlank at h
  split at h
  · have hascii : ∀ n ∈ [9, 10, 11, 12, 13, 32], isNameChar (Char.ofNat n) = false := by decide
    simp only [Bool.or_eq_true, Bool.and_eq_true, decide_eq_true_eq, beq_iff_eq] at h
    have hmem : c.toNat ∈ [9, 10, 11, 12, 13, 32] := by
      simp only [List.mem_cons, List.not_mem_nil]
      omega
    simpa using hascii _ hmem
  next hwide =>
    obtain ⟨b, hb, hc⟩ := CodeRanges.has_iff.1 h
    have hnone : ∀ ranges : CodeRanges, ranges ⊆ alphabeticRanges ++ numericRanges →
        ranges.has c = false := by
      intro ranges hsub
      rw [Bool.eq_false_iff, Ne, CodeRanges.has_iff]
      rintro ⟨r, hr, hrange⟩
      have := blankRanges_apart b hb r (hsub hr)
      omega
    have hnarrow : ∀ d : Char, d.toNat < 128 → (c == d) = false := by
      intro d hd
      rw [beq_eq_false_iff_ne]
      rintro rfl
      exact hwide hd
    simp [isNameChar, isWordChar, isAlphanumeric, isAlphabetic, isNumeric, hwide,
      hnone alphabeticRanges (List.subset_append_left ..),
      hnone numericRanges (List.subset_append_right ..), hnarrow '_' (by decide),
        hnarrow '.' (by decide)]

theorem isBlank_of_isNameChar (h : isNameChar c = true) : isBlank c = false := by
  by_contra hblank
  rw [Bool.not_eq_false] at hblank
  simp [isNameChar_of_isBlank hblank] at h

/-- The characters that have a meaning of their own in an expression. -/
def marks : Text :=
  [' ', '$', '+', '-', '*', '/', '%', '&', '|', '^', '~', '!', '<', '>', '=', '?',
    ':', '@', '(', ')',
   '\x7b', '\x7d', '"', '\'', '¬']

theorem isNameChar_of_mem_marks (h : c ∈ marks) : isNameChar c = false := by
  have hmarks : ∀ c ∈ marks, isNameChar c = false := forall_mem_of_all (by decide +kernel)
  exact hmarks c h

theorem ne_of_isNameChar {mark : Char} (h : isNameChar c = true)
    (hmark : mark ∈ marks) : c ≠ mark := by
  rintro rfl
  simp [isNameChar_of_mem_marks hmark] at h

/-- A character of a decimal literal without its suffix. -/
def isDecimalChar (c : Char) : Bool :=
  c.isDigit || c == '_' || c == '.'

theorem isNameChar_of_isDigit (h : c.isDigit = true) : isNameChar c = true := by
  have hrange : 48 ≤ c.toNat ∧ c.toNat ≤ 57 := Char.isDigit_iff_toNat.1 h
  have hascii : c.toNat < 128 := by omega
  simp [isNameChar, isWordChar, isAlphanumeric, isNumeric, hascii, h]

theorem isNameChar_of_isDecimalChar (h : isDecimalChar c = true) : isNameChar c = true := by
  simp only [isDecimalChar, Bool.or_eq_true, beq_iff_eq] at h
  rcases h with (h | rfl) | rfl
  · exact isNameChar_of_isDigit h
  · rfl
  · rfl

/-- An operand ends in front of the text: at a blank, or at the end. -/
def Stops (tail : Text) : Prop :=
  ∀ c ∈ tail.head?, c = ' '

theorem stops_nil : Stops [] := by
  simp [Stops]

theorem stops_cons (rest : Text) : Stops (' ' :: rest) := by
  simp [Stops]

theorem Stops.head?_any {p : Char → Bool} (h : Stops tail) (hp : p ' ' = false) :
    tail.head?.any p = false := by
  cases tail with
  | nil => rfl
  | cons c rest =>
    obtain rfl : c = ' ' := h c rfl
    simpa using hp

theorem Stops.takeWhile_append {p : Char → Bool} (h : Stops tail) (hp : p ' ' = false)
    (htext : ∀ c ∈ text, p c = true) : (text ++ tail).takeWhile p = text := by
  rw [List.takeWhile_append_of_pos htext]
  cases tail with
  | nil => simp
  | cons c rest =>
    obtain rfl : c = ' ' := h c rfl
    simp [hp]

theorem Stops.dropWhile_append {p : Char → Bool} (h : Stops tail) (hp : p ' ' = false)
    (htext : ∀ c ∈ text, p c = true) : (text ++ tail).dropWhile p = tail := by
  rw [List.dropWhile_append_of_pos htext]
  cases tail with
  | nil => rfl
  | cons c rest =>
    obtain rfl : c = ' ' := h c rfl
    simp [hp]

theorem isNameChar_space : isNameChar ' ' = false := by
  decide +kernel

/-! ## Splitting -/

namespace Text

theorem splitAtFirst_append (h : c ∉ text) (rest : Text) :
    splitAtFirst c (text ++ c :: rest) = some (text, rest) := by
  induction text with
  | nil => simp [splitAtFirst]
  | cons d text ih =>
    rw [List.mem_cons, not_or] at h
    simp [splitAtFirst, Ne.symm h.1, ih h.2]

theorem splitAtFirst_eq_none (h : c ∉ text) : splitAtFirst c text = none := by
  induction text with
  | nil => rfl
  | cons d text ih =>
    rw [List.mem_cons, not_or] at h
    simp [splitAtFirst, Ne.symm h.1, ih h.2]

end Text

/-! ## Decimal numerals -/

theorem digitValue_of_isDigit (h : c.isDigit = true) : digitValue 10 c = some (c.toNat - 48) := by
  have hrange : 48 ≤ c.toNat ∧ c.toNat ≤ 57 := Char.isDigit_iff_toNat.1 h
  have hlt : c.toNat - 48 < 10 := by omega
  simp [digitValue, h, hlt]

theorem digitsValue_of_isDigit (h : ∀ c ∈ text, c.isDigit = true) :
    digitsValue 10 text = some (decimalNumber text) := by
  unfold digitsValue decimalNumber
  generalize 0 = start
  induction text generalizing start with
  | nil => rfl
  | cons c text ih =>
    have hc := h c List.mem_cons_self
    have htext : ∀ c ∈ text, c.isDigit = true := fun c hc => h c (List.mem_cons_of_mem _ hc)
    simp [List.foldlM_cons, digitValue_of_isDigit hc, ih htext]

theorem isDigit_of_mem_decimalDigits (h : c ∈ decimalDigits text) : c.isDigit = true :=
  (List.mem_filter.1 h).2

/-- Digits that may be grouped by underscores. -/
def Grouped (text : Text) : Prop :=
  ∀ c ∈ text, c.isDigit = true ∨ c = '_'

theorem Grouped.ungrouped (h : Grouped text) : Numeral.ungrouped text = decimalDigits text := by
  refine List.filter_congr fun c hc => ?_
  rcases h c hc with hdigit | rfl
  · have hne : c ≠ '_' := by
      rintro rfl
      simp at hdigit
    simp [hdigit, hne]
  · rfl

theorem point_notMem_decimalDigits : '.' ∉ decimalDigits text := fun h => by
  simpa using isDigit_of_mem_decimalDigits h

namespace Numeral

theorem ofDecimal_whole (h : Grouped text) (hne : decimalDigits text ≠ []) :
    ofDecimal text = some (Float.ofScientific (decimalNumber (decimalDigits text)) true 0) := by
  have hvalue : digitsValue 10 (decimalDigits text) = some (decimalNumber (decimalDigits text)) :=
    digitsValue_of_isDigit fun c => isDigit_of_mem_decimalDigits
  simp [ofDecimal, h.ungrouped, Text.splitAtFirst_eq_none point_notMem_decimalDigits, hne, hvalue]

theorem ofDecimal_fraction {whole fraction : Text} (hw : Grouped whole) (hf : Grouped fraction)
    (hne : decimalDigits (whole ++ fraction) ≠ []) :
    ofDecimal (whole ++ '.' :: fraction) =
      some (Float.ofScientific (decimalNumber (decimalDigits (whole ++ fraction))) true
        (decimalDigits fraction).length) := by
  have hdigits : decimalDigits (whole ++ fraction) = decimalDigits whole ++
      decimalDigits fraction :=
    List.filter_append ..
  have hungrouped : ungrouped (whole ++ '.' :: fraction) =
      decimalDigits whole ++ '.' :: decimalDigits fraction := by
    rw [← hw.ungrouped, ← hf.ungrouped]
    simp [ungrouped]
  have hvalue : digitsValue 10 (decimalDigits (whole ++ fraction)) =
      some (decimalNumber (decimalDigits (whole ++ fraction))) :=
    digitsValue_of_isDigit fun c => isDigit_of_mem_decimalDigits
  rw [hdigits] at hne hvalue ⊢
  rw [ofDecimal, hungrouped, Text.splitAtFirst_append point_notMem_decimalDigits]
  simp only [Option.getD_some, List.isEmpty_iff, hne, if_false, hvalue, Option.map_some]

theorem toLower_of_isDecimalChar (h : isDecimalChar c = true) : c.toLower = c := by
  simp only [isDecimalChar, Bool.or_eq_true, beq_iff_eq] at h
  rcases h with (h | rfl) | rfl
  · have hrange : c.val.toNat ≤ 57 := (Char.isDigit_iff_toNat.1 h).2
    refine dif_neg fun hupper => ?_
    have : 65 ≤ c.val.toNat := UInt32.le_iff_toNat_le.1 hupper.1
    omega
  · rfl
  · rfl

/-- A numeral that ends in a digit, an underscore or a point has no suffix. -/
theorem read_of_isDecimalChar {rest : Text} (hc : c.isDigit = true)
    (hlast : ∀ d ∈ (c :: rest).getLast?, isDecimalChar d = true) :
    read (c :: rest) = ofDecimal (c :: rest) := by
  have hsuffix : ∀ x, (c :: rest).getLast?.map Char.toLower = some x → isDecimalChar x = true := by
    intro x hx
    obtain ⟨d, hd, rfl⟩ := Option.map_eq_some_iff.1 hx
    rw [toLower_of_isDecimalChar (hlast d hd)]
    exact hlast d hd
  unfold read
  split
  · contradiction
  · next heq => cases heq; simp at hc
  · next heq => cases heq; simp at hc
  · next heq => cases heq; simp at hc
  next heq =>
    cases heq
    rw [if_pos hc]
    split
    case h_6 => rfl
    all_goals exact absurd (hsuffix _ ‹_›) (by decide)

theorem read_of_suffix {rest : Text} {d : Char} (hc : c.isDigit = true) (hd : d.toLower = 'd') :
    read (c :: rest ++ [d]) = ofDecimal (c :: rest) := by
  have hlast : (c :: rest ++ [d]).getLast?.map Char.toLower = some 'd' := by
    rw [List.getLast?_concat, Option.map_some, hd]
  unfold read
  split
  · next h => simp at h
  · next heq => cases heq; simp at hc
  · next heq => cases heq; simp at hc
  · next heq => cases heq; simp at hc
  next heq =>
    cases heq
    rw [if_pos hc]
    simp only [hlast, List.dropLast_concat]

theorem read_append_suffix {rest suffix : Text} (hc : c.isDigit = true)
    (hrest : ∀ d ∈ rest, isDecimalChar d = true) (hsuffix : suffix ∈ [[], ['d'], ['D']]) :
    read (c :: rest ++ suffix) = ofDecimal (c :: rest) := by
  simp only [List.mem_cons, List.not_mem_nil, or_false] at hsuffix
  rcases hsuffix with rfl | rfl | rfl
  · rw [List.append_nil]
    refine read_of_isDecimalChar hc fun d hd => ?_
    rcases List.mem_cons.1 (List.mem_of_mem_getLast? hd) with rfl | hd
    · simp [isDecimalChar, hc]
    · exact hrest d hd
  · exact read_of_suffix hc rfl
  · exact read_of_suffix hc rfl

end Numeral

/-! ## Operands -/

theorem Operand.read_of_isDigit (hc : c.isDigit = true) (htext : ∀ c ∈ text, isNameChar c = true)
    (h : Stops tail) : read (c :: text ++ tail) = some (ofNumeral (c :: text), tail) := by
  have hname := isNameChar_of_isDigit hc
  have hdollar : (c == '$') = false := by simpa using ne_of_isNameChar hname (by decide)
  have hcolon : (c == ':') = false := by simpa using ne_of_isNameChar hname (by decide)
  rw [List.cons_append, read]
  simp only [hdollar, hcolon, hc, Bool.true_or, if_true, Bool.false_eq_true, if_false,
    h.takeWhile_append isNameChar_space htext, h.dropWhile_append isNameChar_space htext]

theorem Operand.read_of_point {value : Float} (hc : c.isDigit = true)
    (htext : ∀ c ∈ text, isNameChar c = true) (h : Stops tail)
    (hread : Numeral.read ('0' :: '.' :: c :: text) = some value) :
    read ('.' :: c :: text ++ tail) = some (.number value, tail) := by
  have hname : ∀ d ∈ c :: text, isNameChar d = true :=
    List.forall_mem_cons.2 ⟨isNameChar_of_isDigit hc, htext⟩
  have htake : (c :: (text ++ tail)).takeWhile isNameChar = c :: text :=
    h.takeWhile_append isNameChar_space hname
  have hdrop : (c :: (text ++ tail)).dropWhile isNameChar = tail :=
    h.dropWhile_append isNameChar_space hname
  simp only [List.cons_append, read, htake, hdrop, hread]
  simp [hc]

theorem Operand.read_address (h : Stops tail) : read ('$' :: tail) = some (.address, tail) := by
  have hnext : tail.head?.any (fun d => (digitValue 16 d).isSome) = false :=
    h.head?_any (by decide)
  simp [read, hnext]

namespace DecimalLiteral

variable (n : DecimalLiteral)

theorem grouped_digits : Grouped (n.whole ++ n.fraction.getD []) := fun c hc => by
  simpa using List.all_eq_true.1 n.grouped c hc

theorem grouped_whole : Grouped n.whole :=
  fun c hc => n.grouped_digits c (List.mem_append_left _ hc)

theorem grouped_fraction : Grouped (n.fraction.getD []) :=
  fun c hc => n.grouped_digits c (List.mem_append_right _ hc)

theorem exists_head : ∃ c, (n.whole ++ n.fraction.getD []).head? = some c ∧ c.isDigit = true :=
  (Option.any_eq_true ..).1 n.starts

theorem decimalDigits_ne_nil : decimalDigits (n.whole ++ n.fraction.getD []) ≠ [] := by
  obtain ⟨c, hc, hdigit⟩ := n.exists_head
  exact List.ne_nil_of_mem (List.mem_filter.2 ⟨List.mem_of_mem_head? hc, hdigit⟩)

/-- The literal without its suffix. -/
def body : Text :=
  n.whole ++ (n.fraction.map ('.' :: ·)).getD []

theorem ofDecimal_body : Numeral.ofDecimal n.body = some n.value := by
  have hw := n.grouped_whole
  have hf := n.grouped_fraction
  have hne := n.decimalDigits_ne_nil
  unfold body value
  cases hfraction : n.fraction with
  | none =>
    simp only [hfraction, Option.getD_none, Option.map_none, List.append_nil] at hne ⊢
    exact Numeral.ofDecimal_whole hw hne
  | some fraction =>
    simp only [hfraction, Option.getD_some] at hf hne ⊢
    exact Numeral.ofDecimal_fraction hw hf hne

theorem isDecimalChar_of_mem_body {c : Char} (h : c ∈ n.body) : isDecimalChar c = true := by
  have hgrouped : ∀ c ∈ n.whole ++ n.fraction.getD [], isDecimalChar c = true := by
    intro c hc
    rcases n.grouped_digits c hc with hdigit | rfl
    · simp [isDecimalChar, hdigit]
    · rfl
  rcases List.mem_append.1 h with h | h
  · exact hgrouped c (List.mem_append_left _ h)
  · cases hfraction : n.fraction with
    | none => simp [hfraction] at h
    | some fraction =>
      rw [hfraction, Option.map_some, Option.getD_some] at h
      rcases List.mem_cons.1 h with rfl | h
      · rfl
      · exact hgrouped c (List.mem_append_right _ (by simpa [hfraction] using h))

theorem isNameChar_of_mem_text {c : Char} (h : c ∈ n.text) : isNameChar c = true := by
  rcases List.mem_append.1 h with h | h
  · exact isNameChar_of_isDecimalChar (n.isDecimalChar_of_mem_body h)
  · have hsuffix := n.suffix_mem
    simp only [List.mem_cons, List.not_mem_nil, or_false] at hsuffix
    rcases hsuffix with hs | hs | hs <;> rw [hs] at h
    · cases h
    · obtain rfl := List.mem_singleton.1 h
      decide
    · obtain rfl := List.mem_singleton.1 h
      decide

theorem text_ne_nil : n.text ≠ [] := by
  obtain ⟨c, hc, -⟩ := n.exists_head
  intro hnil
  obtain ⟨⟨hwhole, hpoint⟩, -⟩ : (n.whole = [] ∧ (n.fraction.map ('.' :: ·)).getD [] = []) ∧
      n.suffix = [] := by
    simpa only [text, List.append_eq_nil_iff] using hnil
  cases hfraction : n.fraction with
  | none => simp [hwhole, hfraction] at hc
  | some fraction => simp [hfraction] at hpoint

theorem read_text_of_whole {c : Char} {whole : Text} (hwhole : n.whole = c :: whole)
    (hc : c.isDigit = true) (h : Stops tail) :
    Operand.read (n.text ++ tail) = some (.number n.value, tail) := by
  obtain ⟨rest, hbody⟩ : ∃ rest, n.body = c :: rest := ⟨_, by rw [body, hwhole]; rfl⟩
  have htext : n.text = c :: (rest ++ n.suffix) := by
    rw [← List.cons_append, ← hbody]
    rfl
  have hrest : ∀ d ∈ rest, isDecimalChar d = true := fun d hd =>
    n.isDecimalChar_of_mem_body (hbody ▸ List.mem_cons_of_mem _ hd)
  have hread : Numeral.read n.text = some n.value := by
    rw [htext, ← List.cons_append, Numeral.read_append_suffix hc hrest n.suffix_mem, ← hbody,
      n.ofDecimal_body]
  have hname : ∀ d ∈ rest ++ n.suffix, isNameChar d = true := fun d hd =>
    n.isNameChar_of_mem_text (htext ▸ List.mem_cons_of_mem _ hd)
  rw [htext, Operand.read_of_isDigit hc hname h, ← htext, Operand.ofNumeral, hread]

/-- A literal that starts with its point is read with a zero in front. -/
theorem read_text_of_point {c : Char} {rest : Text} (hwhole : n.whole = [])
    (hfraction : n.fraction = some (c :: rest)) (hc : c.isDigit = true) (h : Stops tail) :
    Operand.read (n.text ++ tail) = some (.number n.value, tail) := by
  have hbody : n.body = '.' :: c :: rest := by simp [body, hwhole, hfraction]
  have htext : n.text = '.' :: c :: (rest ++ n.suffix) := by
    rw [← List.cons_append, ← List.cons_append, ← hbody]
    rfl
  have hvalue : Numeral.ofDecimal ('0' :: n.body) = some n.value := by
    have hf : Grouped (c :: rest) := by simpa [hfraction] using n.grouped_fraction
    have hzero : Grouped ['0'] := by simp [Grouped]
    have hdigits : decimalDigits (['0'] ++ c :: rest) = '0' :: decimalDigits (c :: rest) := rfl
    rw [hbody, value, hwhole, hfraction]
    exact Numeral.ofDecimal_fraction hzero hf (by rw [hdigits]; exact List.cons_ne_nil _ _)
  have hread : Numeral.read ('0' :: n.text) = some n.value := by
    have hdecimal : ∀ d ∈ n.body, isDecimalChar d = true := fun d => n.isDecimalChar_of_mem_body
    rw [← hvalue, ← Numeral.read_append_suffix rfl hdecimal n.suffix_mem]
    rfl
  have hname : ∀ d ∈ rest ++ n.suffix, isNameChar d = true := fun d hd =>
    n.isNameChar_of_mem_text (htext ▸ List.mem_cons_of_mem _ (List.mem_cons_of_mem _ hd))
  rw [htext] at hread ⊢
  exact Operand.read_of_point hc hname h hread

theorem read_text (h : Stops tail) :
    Operand.read (n.text ++ tail) = some (.number n.value, tail) := by
  obtain ⟨c, hc, hdigit⟩ := n.exists_head
  cases hwhole : n.whole with
  | cons d whole =>
    obtain rfl : d = c := by simpa [hwhole] using hc
    exact n.read_text_of_whole hwhole hdigit h
  | nil =>
    cases hfraction : n.fraction with
    | none => simp [hwhole, hfraction] at hc
    | some fraction =>
      obtain ⟨rest, rfl⟩ : ∃ rest, fraction = c :: rest := by
        simpa [hwhole, hfraction, List.head?_eq_some_iff] using hc
      exact n.read_text_of_point hwhole hfraction hdigit h

end DecimalLiteral

theorem LabelName.isNameChar_of_mem_text (name : LabelName) (h : c ∈ name.text) :
    isNameChar c = true :=
  List.all_eq_true.1 name.chars c h

theorem LabelName.read_text (name : LabelName) (h : Stops tail) :
    Operand.read (name.text ++ tail) = some (.label name.text, tail) := by
  obtain ⟨text, hne, hchars, hword⟩ := name
  cases text with
  | nil => exact absurd rfl hne
  | cons c rest =>
    obtain ⟨hc, hrest⟩ : isNameChar c = true ∧ ∀ d ∈ rest, isNameChar d = true := by
      simpa using hchars
    obtain ⟨hdigit, hpoint⟩ : c.isDigit = false ∧
      (c == '.' && rest.head?.any Char.isDigit) = false := by
      simpa only [startsNumeral, Bool.or_eq_false_iff] using hword
    have hnext : (c == '.' && (rest ++ tail).head?.any Char.isDigit) = false := by
      cases rest with
      | nil => simp [h.head?_any (p := Char.isDigit) rfl]
      | cons d rest => exact hpoint
    have hmark : ∀ m ∈ marks, (c == m) = false := fun m hm => by
      simpa using ne_of_isNameChar hc hm
    rw [List.cons_append, Operand.read]
    simp only [hmark '$' (by decide), hmark ':' (by decide), hmark '%' (by decide),
      hmark '@' (by decide),
      hdigit, hnext, hc, Bool.false_and, Bool.or_false, Bool.false_eq_true, if_false, if_true,
      h.takeWhile_append isNameChar_space hrest, h.dropWhile_append isNameChar_space hrest]

/-! ## Terms -/

namespace Term

theorem read_space (text : Text) : read (' ' :: text) = read text := rfl

/-- The term with one more operator in front. -/
def push (op : Unary) (t : Term) : Term :=
  ⟨op :: t.unaries, t.operand⟩

theorem read_cons {op : Unary} {term : Term} (hblank : isBlank c = false)
    (hop : Unary.ofChar c = some op)
    (h : read text = some (term, tail)) : read (c :: text) = some (term.push op, tail) := by
  obtain ⟨⟨operand, after⟩, ho, heq⟩ := Option.map_eq_some_iff.1 h
  cases heq
  simp [read, readUnaries, hblank, hop, ho, push]

theorem read_sign (op : Unary) {term : Term} (h : read text = some (term, tail)) :
    read (op.sign :: text) = some (term.push op, tail) := by
  cases op <;> exact read_cons rfl rfl h

/-- An operand without operators is a term. -/
theorem read_of_operand {operand : Operand} (hblank : isBlank c = false)
    (hop : Unary.ofChar c = none) (h : Operand.read (c :: text) = some (operand, tail)) :
    read (c :: text) = some (⟨[], operand⟩, tail) := by
  simp [read, readUnaries, hblank, hop, h]

theorem ofChar_of_isNameChar (h : isNameChar c = true) : Unary.ofChar c = none := by
  have hmark : ∀ m ∈ marks, (c == m) = false := fun m hm => by
    simpa using ne_of_isNameChar h hm
  simp [Unary.ofChar, Numeral.negativeMark, hmark '-' (by decide), hmark '¬' (by decide),
    hmark '+' (by decide), hmark '~' (by decide), hmark '!' (by decide)]

theorem read_of_isNameChar {operand : Operand} (hne : text ≠ [])
    (hname : ∀ c ∈ text, isNameChar c = true)
    (h : Operand.read (text ++ tail) = some (operand, tail)) :
    read (text ++ tail) = some (⟨[], operand⟩, tail) := by
  cases text with
  | nil => exact absurd rfl hne
  | cons c text =>
    have hc := hname c List.mem_cons_self
    exact read_of_operand (isBlank_of_isNameChar hc) (ofChar_of_isNameChar hc) h

end Term

/-! ## Written values -/

theorem Decimal.isDecimalChar_of_mem_positional {d : Decimal} (h : c ∈ d.positional) :
    isDecimalChar c = true := by
  have hdigits : ∀ c ∈ (trimmedDigits d.digits).1, isDecimalChar c = true := by
    intro c hc
    have hmem : c ∈ Nat.toDigits 10 d.digits := by
      rw [← List.mem_reverse]
      exact (List.dropWhile_suffix _).subset (List.mem_reverse.1 hc)
    simp [isDecimalChar, Nat.isDigit_of_mem_toDigits (by decide) (by decide) hmem]
  have hzeros : ∀ n, ∀ c ∈ List.replicate n '0', isDecimalChar c = true := by
    intro n c hc
    obtain rfl := List.eq_of_mem_replicate hc
    rfl
  simp only [positional] at h
  split at h
  · rcases List.mem_append.1 h with h | h
    · exact hdigits c h
    · exact hzeros _ c h
  · split at h
    · rcases List.mem_append.1 h with h | h
      · exact hdigits c (List.mem_of_mem_take h)
      · rcases List.mem_cons.1 h with rfl | h
        · rfl
        · exact hdigits c (List.mem_of_mem_drop h)
    · simp only [List.mem_append] at h
      rcases h with (h | h) | h
      · have hlead : ∀ c ∈ "0.".toList, isDecimalChar c = true := forall_mem_of_all (by decide)
        exact hlead c h
      · exact hzeros _ c h
      · exact hdigits c h

namespace Value

/-- The absolute value is read back from its text. -/
def ReadsBack (x : Float) : Prop :=
  Numeral.read (Numeral.write x.abs) = some x.abs

instance (x : Float) : Decidable (ReadsBack x) :=
  inferInstanceAs (Decidable (_ = _))

variable {x : Float}

/-- Of the texts of values only digits with at most a point between them can be read. -/
theorem isDecimalChar_of_read {value : Float} (h : Numeral.read (toText x) = some value) :
    ∀ c ∈ toText x, isDecimalChar c = true := by
  unfold toText at h ⊢
  split at h
  · cases h
  next hnan =>
    rw [if_neg hnan]
    simp only at h ⊢
    split at h
    · cases h
    next hsign =>
      rw [if_neg hsign]
      rw [List.nil_append] at h ⊢
      split at h
      · cases h
      next hfinite =>
        rw [if_neg hfinite]
        split
        · exact forall_mem_of_all (by decide)
        · exact fun c => Decimal.isDecimalChar_of_mem_positional

theorem ReadsBack.read_abs (hx : ReadsBack x) : Numeral.read (toText x.abs) = some x.abs := by
  unfold ReadsBack Numeral.write at hx
  split at hx
  · cases hx
  · exact hx

/-- The text of an absolute value starts with a digit and is a name throughout. -/
theorem ReadsBack.toText_eq_cons (hx : ReadsBack x) : ∃ c rest, toText x.abs = c :: rest ∧
    c.isDigit = true ∧ ∀ d ∈ rest, isNameChar d = true := by
  have hread := hx.read_abs
  have hchars := isDecimalChar_of_read hread
  cases htext : toText x.abs with
  | nil => simp [htext, Numeral.read] at hread
  | cons c rest =>
    rw [htext] at hread hchars
    have hc : isDecimalChar c = true := hchars c List.mem_cons_self
    have hrest : ∀ d ∈ rest, isNameChar d = true := fun d hd =>
      isNameChar_of_isDecimalChar (hchars d (List.mem_cons_of_mem _ hd))
    refine ⟨c, rest, rfl, ?_, hrest⟩
    by_contra hdigit
    have hpoint : c = '_' ∨ c = '.' := by simpa [isDecimalChar, hdigit] using hc
    rcases hpoint with rfl | rfl <;> cases hread

theorem ReadsBack.read_term (hx : ReadsBack x) (h : Stops tail) :
    Term.read (toText x.abs ++ tail) = some (⟨[], .number x.abs⟩, tail) := by
  have hread := hx.read_abs
  obtain ⟨c, rest, htext, hc, hrest⟩ := hx.toText_eq_cons
  rw [htext] at hread ⊢
  refine Term.read_of_isNameChar (List.cons_ne_nil c rest)
    (List.forall_mem_cons.2 ⟨isNameChar_of_isDigit hc, hrest⟩) ?_
  rw [Operand.read_of_isDigit hc hrest h, Operand.ofNumeral, hread]

/-- A value is written as its absolute value; if it is another one, with a mark of negation in
front. -/
theorem ReadsBack.write_cases (hx : ReadsBack x) : (Numeral.write x = toText x.abs ∧ x.abs = x) ∨
    ∃ mark ∈ ['¬', '-'], Numeral.write x = mark :: toText x.abs ∧ x.abs ≠ x ∧ -x.abs = x := by
  by_cases hneg : x < 0
  · have habs := neg_eq_abs_of_lt hneg
    have hne : x.abs ≠ x := by
      intro hsame
      rw [ReadsBack, hsame, Numeral.write, if_pos hneg] at hx
      cases hx
    refine .inr ⟨'¬', by decide, ?_, hne, ?_⟩
    · rw [Numeral.write, if_pos hneg, habs]
      rfl
    · rw [← habs, neg_neg]
  rcases abs_eq_self_or_of_not_lt hneg with habs | rfl
  · rw [Numeral.write, if_neg hneg, habs]
    exact .inl ⟨rfl, rfl⟩
  · -- the negative zero keeps its sign in its text
    exact .inr ⟨'-', by decide, by decide +kernel, by decide +kernel, rfl⟩

/-- A written value is made of characters of names, up to its mark. -/
theorem ReadsBack.isNameChar_or_of_mem_write (hx : ReadsBack x) (h : c ∈ Numeral.write x) :
    isNameChar c = true ∨ c ∈ ['¬', '-'] := by
  have hname : ∀ c ∈ toText x.abs, isNameChar c = true := fun c hc =>
    isNameChar_of_isDecimalChar (isDecimalChar_of_read hx.read_abs c hc)
  rcases hx.write_cases with ⟨hwrite, -⟩ | ⟨mark, hmark, hwrite, -⟩
  · exact .inl (hname c (hwrite ▸ h))
  · rcases List.mem_cons.1 (hwrite ▸ h) with rfl | h
    · exact .inr hmark
    · exact .inl (hname c h)

/-- The term that a written value is read as. -/
def written (x : Float) : Term :=
  if x.abs = x then ⟨[], .number x⟩ else ⟨[.neg], .number x.abs⟩

theorem ReadsBack.read_write (hx : ReadsBack x) (h : Stops tail) :
    Term.read (Numeral.write x ++ tail) = some (written x, tail) := by
  have hterm := hx.read_term h
  rcases hx.write_cases with ⟨hwrite, habs⟩ | ⟨mark, hmark, hwrite, hne, -⟩
  · rw [hwrite, hterm, written, if_pos habs, habs]
  · have hneg : isBlank mark = false ∧ Unary.ofChar mark = some .neg := by
      simp only [List.mem_cons, List.not_mem_nil, or_false] at hmark
      rcases hmark with rfl | rfl <;> exact ⟨rfl, rfl⟩
    rw [hwrite, written, if_neg hne]
    exact Term.read_cons hneg.1 hneg.2 hterm

/-- A written value has its value as a term. -/
theorem ReadsBack.evalTerm_written {σ : Type} (hx : ReadsBack x) (env : Environment σ) :
    evalTerm env (written x) = pure x := by
  rcases hx.write_cases with ⟨-, habs⟩ | ⟨-, -, -, hne, hneg⟩
  · rw [written, if_pos habs]
    rfl
  · rw [written, if_neg hne]
    show (pure (-x.abs) : EvalM σ Float) = pure x
    rw [hneg]

end Value

/-! ## Operators -/

theorem Operator.read_spelling (op : SpelledOperator) (rest : Text) :
    Operator.read (op.spelling ++ ' ' :: rest) = some (op.op, ' ' :: rest) := by
  obtain ⟨spelling, op, h⟩ := op
  simp only [Operator.spellings, List.mem_cons, List.not_mem_nil, or_false, Prod.mk.injEq] at h
  rcases h with h | h | h | h | h | h | h | h | h | h | h | h | h | h | h | h | h | h | h | h <;>
    obtain ⟨rfl, rfl⟩ := h <;> rfl

end MacroAssembler
