import MacroAssembler.Text.LetterCase

/-!
# Texts

Source text is handled as a list of characters.  Every scanner of the assembler is then a
recursion on that list, and the rest of a text is a tail of it.

Three comparisons of names occur.  Directives, struct names and mnemonics ignore the case of ASCII
letters only; labels and macros ignore the case of every letter, through `lowerText`; and a
case-sensitive assembly compares them as written.
-/

namespace MacroAssembler

/-- Source text, or a stretch of it. -/
abbrev Text := List Char

namespace Text

/-- The text without its leading blanks. -/
def trimStart (text : Text) : Text :=
  text.dropWhile isBlank

/-- The text without its trailing blanks. -/
def trimEnd (text : Text) : Text :=
  (text.reverse.dropWhile isBlank).reverse

/-- The text without the blanks around it. -/
def trim (text : Text) : Text :=
  trimEnd (trimStart text)

/-- The first word, and what follows the blanks after it. -/
def splitWord (text : Text) : Text × Text :=
  let text := trimStart text
  (text.takeWhile (!isBlank ·), trimStart (text.dropWhile (!isBlank ·)))

/-- The parts of a text between the occurrences of a separator; never empty. -/
def splitOn (sep : Char) : Text → List Text
  | [] => [[]]
  | c :: rest =>
    match splitOn sep rest with
    | [] => [[]]
    | part :: parts => if c = sep then [] :: part :: parts else (c :: part) :: parts

/-- The text in front of the first occurrence of `c` and the text after it. -/
def splitAtFirst (c : Char) : Text → Option (Text × Text)
  | [] => none
  | d :: rest =>
    if d = c then some ([], rest)
    else (splitAtFirst c rest).map fun (front, back) => (d :: front, back)

theorem length_lt_of_splitAtFirst {c : Char} {text front back : Text}
    (h : splitAtFirst c text = some (front, back)) : back.length < text.length := by
  fun_induction splitAtFirst c text generalizing front back with
  | case1 => cases h
  | case2 rest =>
    cases h
    simp
  | case3 d rest hd ih =>
    obtain ⟨⟨f, b⟩, hb, heq⟩ := Option.map_eq_some_iff.1 h
    cases heq
    exact Nat.lt_succ_of_lt (ih hb)

/-- What follows `lead`, for a text that starts with it. -/
def after? : (lead text : Text) → Option Text
  | [], text => some text
  | _ :: _, [] => none
  | c :: lead, d :: text => if c = d then after? lead text else none

theorem length_le_of_after? {lead text rest : Text} (h : after? lead text = some rest) :
    rest.length ≤ text.length := by
  fun_induction after? lead text with
  | case1 => simp_all
  | case2 => simp at h
  | case3 c lead text ih => exact Nat.le_succ_of_le (ih h)
  | case4 => simp at h

theorem length_dropWhile_le (p : Char → Bool) (text : Text) :
    (text.dropWhile p).length ≤ text.length :=
  (List.dropWhile_suffix p).length_le

theorem length_trim_le (text : Text) : (trim text).length ≤ text.length := by
  unfold trim trimEnd trimStart
  rw [List.length_reverse]
  refine Nat.le_trans (length_dropWhile_le _ _) ?_
  rw [List.length_reverse]
  exact length_dropWhile_le _ _

/-- Behind the first word of a text there is less than the whole. -/
theorem length_splitWord_lt {text : Text} (h : text ≠ []) :
    (splitWord text).2.length < text.length := by
  unfold splitWord trimStart
  cases text with
  | nil => exact absurd rfl h
  | cons c rest =>
    have inner : ∀ t : Text, ((t.dropWhile (!isBlank ·)).dropWhile isBlank).length ≤ t.length :=
      fun t => Nat.le_trans (length_dropWhile_le _ _) (length_dropWhile_le _ _)
    by_cases hc : isBlank c
    · simp only [List.dropWhile_cons, hc, if_true, List.length_cons]
      exact Nat.lt_succ_of_le (Nat.le_trans (inner _) (length_dropWhile_le _ _))
    · simp only [List.dropWhile_cons, hc, Bool.false_eq_true, if_false, Bool.not_false, if_true,
        List.length_cons]
      exact Nat.lt_succ_of_le (inner rest)

/-- The text in front of a final character `c`. -/
def beforeLast? (c : Char) (text : Text) : Option Text :=
  if text.getLast? = some c then some text.dropLast else none

/-- The text without a final `c`, if it has one. -/
def dropFinal (c : Char) (text : Text) : Text :=
  (beforeLast? c text).getD text

/-- Every occurrence of a non-empty `old` replaced by `new`, after dropping the first `skip`
characters. -/
def replaceFrom (old new : Text) : (skip : Nat) → Text → Text
  | _, [] => []
  | skip + 1, _ :: rest => replaceFrom old new skip rest
  | 0, c :: rest =>
    if old.isPrefixOf (c :: rest) then new ++ replaceFrom old new (old.length - 1) rest
    else c :: replaceFrom old new 0 rest

/-- Every occurrence of a non-empty `old` replaced by `new`, from left to right. -/
def replace (old new text : Text) : Text :=
  replaceFrom old new 0 text

/-- Lower case for the ASCII letters. -/
def asciiLower (text : Text) : Text :=
  text.map Char.toLower

/-- Upper case for the ASCII letters. -/
def asciiUpper (text : Text) : Text :=
  text.map Char.toUpper

/-- Equality up to the case of ASCII letters. -/
def sameIgnoringCase (a b : Text) : Bool :=
  asciiLower a == asciiLower b

/-- The form under which a name is filed: as written when case matters, else in lower case. -/
def nameKey (caseSensitive : Bool) (name : Text) : Text :=
  if caseSensitive then name else lowerText name

end Text

/-- A character that ties an apostrophe to the word in front of it. -/
def isWordChar (c : Char) : Bool :=
  isAlphanumeric c || c == '_'

/-- A character of a label name. -/
def isNameChar (c : Char) : Bool :=
  isWordChar c || c == '.'

/-! ## Indices of names -/

/-- Things filed under names: pairs in which each name occurs once, in the order in which the names
were first used. -/
abbrev Index (α : Type) := List (Text × α)

namespace Index

variable {α : Type}

/-- The index with `value` under `name`, in the old place if the name was there already. -/
def put (name : Text) (value : α) : Index α → Index α
  | [] => [(name, value)]
  | (key, old) :: rest =>
    if key = name then (name, value) :: rest else (key, old) :: put name value rest

/-- The index without `name`. -/
def remove (name : Text) (index : Index α) : Index α :=
  index.filter fun (key, _) => key != name

end Index

end MacroAssembler
