import MacroAssembler.Expr.Operator
import MacroAssembler.Text.Literal

/-!
# Terms

Once braces, literals and brackets are gone, an expression is a chain of terms and operators.  A
term is an operand behind any number of unary operators.  Reading a chain looks nothing up: labels
stay names.  A text may stop making sense after some terms, and the terms in front of that point
are still part of the result, since looking up their names counts as a use of them.
-/

namespace MacroAssembler

/-- What an operand stands for. -/
inductive Operand where
  | number (value : Float)
  /-- The current address. -/
  | address
  /-- The page of a label. -/
  | page (name : Text)
  | label (name : Text)
  /-- Starts like a numeral and is none. -/
  | badNumeral (text : Text)

/-- An operand behind unary operators. -/
structure Term where
  unaries : List Unary
  operand : Operand

namespace Operand

/-- The numeral, or the complaint about it. -/
def ofNumeral (text : Text) : Operand :=
  match Numeral.read text with
  | some value => .number value
  | none => .badNumeral text

/-- Reads the operand at the start of a text. -/
def read : Text → Option (Operand × Text)
  | [] => none
  | c :: rest =>
    let next (p : Char → Bool) := rest.head?.any p
    let upTo (p : Char → Bool) := (c :: rest.takeWhile p, rest.dropWhile p)
    if c == '$' then
      if next fun d => (digitValue 16 d).isSome then
        let (body, rest) := upTo fun d => isNameChar d && d != '.'
        some (ofNumeral body, rest)
      else some (.address, rest)
    else if c == ':' then
      let name := rest.takeWhile isNameChar
      if name.isEmpty then none else some (.page name, rest.dropWhile isNameChar)
    else if c.isDigit || (c == '%' && next fun d => d == '0' || d == '1') ||
        (c == '@' && next fun d => (digitValue 8 d).isSome) then
      let (body, rest) := upTo isNameChar
      some (ofNumeral body, rest)
    else if c == '.' && next Char.isDigit then
      let (body, rest) := upTo isNameChar
      -- a fraction without its leading zero, which a complaint does not show
      match Numeral.read ('0' :: body) with
      | some value => some (.number value, rest)
      | none => some (.badNumeral body, rest)
    else if isNameChar c then
      let (name, rest) := upTo isNameChar
      some (.label name, rest)
    else none

theorem length_lt_of_read {text rest : Text} {operand : Operand}
    (h : read text = some (operand, rest)) : rest.length < text.length := by
  cases text with
  | nil => simp [read] at h
  | cons c t =>
    simp only [read] at h
    have h₁ := Text.length_dropWhile_le (fun d => isNameChar d && d != '.') t
    have h₂ := Text.length_dropWhile_le isNameChar t
    simp only [List.length_cons]
    repeat' split at h
    all_goals
      simp only [Option.some.injEq, Prod.mk.injEq, reduceCtorEq] at h
    all_goals
      obtain ⟨-, rfl⟩ := h
      omega

end Operand

namespace Term

/-- Reads the unary operators at the start of a text, and the blanks around them. -/
def readUnaries : Text → List Unary × Text
  | [] => ([], [])
  | c :: rest =>
    if isBlank c then readUnaries rest
    else match Unary.ofChar c with
      | some u =>
        let (us, rest) := readUnaries rest
        (u :: us, rest)
      | none => ([], c :: rest)

theorem length_readUnaries_le (text : Text) : (readUnaries text).2.length ≤ text.length := by
  fun_induction readUnaries text <;> simp_all <;> omega

/-- Reads the term at the start of a text. -/
def read (text : Text) : Option (Term × Text) :=
  let (unaries, rest) := readUnaries text
  (Operand.read rest).map fun (operand, rest) => (⟨unaries, operand⟩, rest)

theorem length_lt_of_read {text rest : Text} {term : Term}
    (h : read text = some (term, rest)) : rest.length < text.length := by
  obtain ⟨⟨operand, after⟩, ho, heq⟩ := Option.map_eq_some_iff.1 h
  have := length_readUnaries_le text
  have := Operand.length_lt_of_read ho
  cases heq
  omega

end Term

theorem Operator.length_le_of_read {text rest : Text} {op : Operator}
    (h : Operator.read text = some (op, rest)) : rest.length ≤ text.length := by
  obtain ⟨⟨spelling, op'⟩, -, hs⟩ := List.exists_of_findSome?_eq_some h
  obtain ⟨r, hr, heq⟩ := Option.map_eq_some_iff.1 hs
  cases heq
  exact Text.length_le_of_after? hr

/-- Operators, each with the term after it.  The flag says whether they reach the end of the
text. -/
def readChain (text : Text) : List (Operator × Term) × Bool :=
  match _ht : Text.trimStart text with
  | [] => ([], true)
  | c :: rest =>
    match _ho : Operator.read (c :: rest) with
    | none => ([], false)
    | some (op, afterOp) =>
      match _hr : Term.read afterOp with
      | none => ([], false)
      | some (term, after) =>
        let (chain, complete) := readChain after
        ((op, term) :: chain, complete)
termination_by text.length
decreasing_by
  have h₁ := Text.length_dropWhile_le isBlank text
  rw [show text.dropWhile isBlank = c :: rest from _ht] at h₁
  have h₂ := Operator.length_le_of_read _ho
  have h₃ := Term.length_lt_of_read _hr
  omega

end MacroAssembler
