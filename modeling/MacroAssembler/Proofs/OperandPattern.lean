import MacroAssembler.Instruction.Pattern
import MacroAssembler.Proofs.LetterCase

/-!
# What a pattern takes from the operands

A pattern can match a text in many ways: with several stars, each comma of the text may be the one
that ends the first expression.  `Takes` says what a match is, without any search: the stars take
stretches of the text that are balanced and not empty, the other characters stand for themselves up
to case, and a plus sign in front of a star may be missing if the star takes a minus sign first.

The search of `capture` tries the longest stretch for each star first and goes back when the rest of
the pattern fails.  It commits itself at one point: at a plus sign in front of a star it looks at
the next character of the text, and a minus sign decides that the plus sign is missing.  No match is
lost by this, since the minus sign is not the plus sign, and without a minus sign the plus sign has
to be there.  So the search comes to nothing only if there is no match, and otherwise it finds the
greediest one: `Greedier` compares two lists of captures at the first place where they differ.

## Letters in upper case

Whether a pattern matches does not depend on the case of the letters of the text, and neither do the
places at which the text is cut.  In upper case the same stretches are taken in upper case.
-/

namespace MacroAssembler

namespace Pattern

variable {captures : List Text} {pattern text : Text}

/-! ## Matches -/

/-- A pattern matches a text, and its stars take the given stretches of it, in order. -/
inductive Takes : (pattern text : Text) → (captures : List Text) → Prop
  | done : Takes [] [] []
  | star {pattern front back : Text} {captures : List Text} (hne : front ≠ [])
      (hbalanced : Text.balanced front = true) (hrest : Takes pattern back captures) :
      Takes ('*' :: pattern) (front ++ back) (front :: captures)
  | char {p c : Char} {pattern text : Text} {captures : List Text} (hstar : p ≠ '*')
      (hsame : p.toLower = c.toLower) (hrest : Takes pattern text captures) :
      Takes (p :: pattern) (c :: text) captures
  /-- The plus sign is missing where the star behind it takes a minus sign first. -/
  | droppedPlus {pattern text front : Text} {captures : List Text} (hminus : front.head? = some '-')
      (hrest : Takes ('*' :: pattern) text (front :: captures)) :
      Takes ('+' :: '*' :: pattern) text (front :: captures)

theorem takes_nil_iff {text : Text} : Takes [] text captures ↔ text = [] ∧ captures = [] := by
  constructor
  · rintro ⟨⟩
    exact ⟨rfl, rfl⟩
  · rintro ⟨rfl, rfl⟩
    exact .done

theorem takes_star_iff :
    Takes ('*' :: pattern) text captures ↔
      ∃ front back rest, front ++ back = text ∧ captures = front :: rest ∧ front ≠ [] ∧
        Text.balanced front = true ∧ Takes pattern back rest := by
  constructor
  · intro h
    cases h with
    | star hne hbalanced hrest => exact ⟨_, _, _, rfl, rfl, hne, hbalanced, hrest⟩
    | char hstar => exact absurd rfl hstar
  · rintro ⟨front, back, rest, rfl, rfl, hne, hbalanced, hrest⟩
    exact .star hne hbalanced hrest

/-- What a star takes starts where the text starts. -/
theorem Takes.head?_eq {pattern text front : Text}
    (h : Takes ('*' :: pattern) text (front :: captures)) : text.head? = front.head? := by
  obtain ⟨front', back, rest, rfl, heq, hne, -, -⟩ := takes_star_iff.1 h
  cases heq
  obtain ⟨c, front, rfl⟩ := List.exists_cons_of_ne_nil hne
  rfl

/-- In front of a minus sign the plus sign is always missing. -/
theorem takes_plus_iff (hminus : text.head? = some '-') :
    Takes ('+' :: '*' :: pattern) text captures ↔ Takes ('*' :: pattern) text captures := by
  constructor
  · intro h
    cases h with
    | char hstar hsame hrest =>
      rw [List.head?_cons, Option.some.injEq] at hminus
      subst hminus
      exact absurd hsame (by decide)
    | droppedPlus hminus hrest => exact hrest
  · intro h
    obtain ⟨front, back, rest, rfl, rfl, hne, hbalanced, hrest⟩ := takes_star_iff.1 h
    exact .droppedPlus (h.head?_eq.symm.trans hminus) h

/-- Anywhere else a character stands for itself. -/
theorem takes_char_iff {p : Char} (hstar : p ≠ '*')
    (hplus : ¬ (p = '+' ∧ pattern.head? = some '*' ∧ text.head? = some '-')) :
    Takes (p :: pattern) text captures ↔
      ∃ c rest, text = c :: rest ∧ p.toLower = c.toLower ∧ Takes pattern rest captures := by
  constructor
  · intro h
    cases h with
    | star => exact absurd rfl hstar
    | char _ hsame hrest => exact ⟨_, _, rfl, hsame, hrest⟩
    | droppedPlus hminus hrest => exact absurd ⟨rfl, rfl, hrest.head?_eq.trans hminus⟩ hplus
  · rintro ⟨c, rest, rfl, hsame, hrest⟩
    exact .char hstar hsame hrest

/-- The captures are stretches of the text as it is written. -/
theorem Takes.isInfix (h : Takes pattern text captures) :
    ∀ capture ∈ captures, capture <:+: text := by
  induction h with
  | done => exact fun capture hcapture => absurd hcapture List.not_mem_nil
  | @star pattern front back captures hne hbalanced hrest ih =>
    intro capture hcapture
    rcases List.mem_cons.1 hcapture with rfl | hcapture
    · exact (List.prefix_append _ _).isInfix
    · exact (ih capture hcapture).trans (List.suffix_append _ _).isInfix
  | char hstar hsame hrest ih =>
    exact fun capture hcapture => (ih capture hcapture).trans (List.suffix_cons _ _).isInfix
  | droppedPlus hminus hrest ih => exact ih

/-! ## The greediest match -/

/-- Of two lists of captures the first takes more at the first place where they differ. -/
inductive Greedier : (captures others : List Text) → Prop
  | here {front front' : Text} {captures others : List Text} (h : front'.length < front.length) :
      Greedier (front :: captures) (front' :: others)
  | later {front : Text} {captures others : List Text} (h : Greedier captures others) :
      Greedier (front :: captures) (front :: others)

theorem Greedier.asymm {captures others : List Text} (h : Greedier captures others) :
    ¬ Greedier others captures := by
  induction h with
  | here h =>
    intro h'
    cases h' with
    | here h' => exact Nat.lt_asymm h h'
    | later => exact Nat.lt_irrefl _ h
  | later _ ih =>
    intro h'
    cases h' with
    | here h' => exact Nat.lt_irrefl _ h'
    | later h' => exact ih h'

/-- What a search for the greediest list of captures with a property comes to. -/
def Finds (P : List Text → Prop) : Option (List Text) → Prop
  | none => ∀ captures, ¬ P captures
  | some captures => P captures ∧ ∀ others, P others → others = captures ∨ Greedier captures others

namespace Finds

variable {P Q : List Text → Prop} {result : Option (List Text)}

theorem congr (hresult : Finds P result) (h : ∀ captures, P captures ↔ Q captures) :
    Finds Q result := by
  have hPQ : P = Q := funext fun captures => propext (h captures)
  rwa [hPQ] at hresult

theorem eq_none_iff (h : Finds P result) : result = none ↔ ¬ ∃ captures, P captures := by
  cases result with
  | none => exact iff_of_true rfl fun hsome => hsome.elim h
  | some captures => exact iff_of_false (Option.some_ne_none _) fun hno => hno ⟨captures, h.1⟩

/-- Only one list of captures is the greediest. -/
theorem eq_some_iff (h : Finds P result) {captures : List Text} :
    result = some captures ↔
      P captures ∧ ∀ others, P others → others = captures ∨ Greedier captures others := by
  constructor
  · rintro rfl
    exact h
  · rintro ⟨hcaptures, hgreediest⟩
    cases result with
    | none => exact absurd hcaptures (h captures)
    | some found =>
      rcases hgreediest found h.1 with rfl | hgreedier
      · rfl
      · rcases h.2 captures hcaptures with rfl | hgreedier'
        · rfl
        · exact absurd hgreedier' hgreedier.asymm

end Finds

/-! ## The search -/

/-- Either every cut fails, or the outcome is that of the longest front with one. -/
theorem longestFront_cases {α : Type} (attempt : (front back : Text) → Option α)
    (front text : Text) :
    (longestFront attempt front text = none ∧
      ∀ a b, a ++ b = text → attempt (front ++ a) b = none) ∨
    ∃ a b result, a ++ b = text ∧ attempt (front ++ a) b = some result ∧
      longestFront attempt front text = some result ∧
      ∀ a' b', a' ++ b' = text → a.length < a'.length → attempt (front ++ a') b' = none := by
  induction text generalizing front with
  | nil =>
    have hcut {a b : Text} (hab : a ++ b = []) : attempt (front ++ a) b = attempt front [] := by
      obtain ⟨rfl, rfl⟩ := List.append_eq_nil_iff.1 hab
      rw [List.append_nil]
    cases hresult : attempt front [] with
    | none => exact .inl ⟨hresult, fun a b hab => (hcut hab).trans hresult⟩
    | some result =>
      refine .inr ⟨[], [], result, rfl, (hcut rfl).trans hresult, hresult, fun a b hab hlong => ?_⟩
      obtain ⟨rfl, -⟩ := List.append_eq_nil_iff.1 hab
      exact absurd hlong (Nat.lt_irrefl _)
  | cons c rest ih =>
    have hstep (a : Text) : front ++ c :: a = front ++ [c] ++ a := List.append_cons front c a
    rw [longestFront, Option.orElse_eq_orElse, Option.orElse_eq_or]
    rcases ih (front ++ [c]) with ⟨hnone, hall⟩ | ⟨a, b, result, rfl, hresult, hsome, hall⟩
    · rw [hnone, Option.none_or]
      -- every longer front fails, so the outcome is that of the shortest one
      have hlonger {a b : Text} (hab : a ++ b = c :: rest) (hne : a ≠ []) :
          attempt (front ++ a) b = none := by
        obtain ⟨d, a, rfl⟩ := List.exists_cons_of_ne_nil hne
        rw [List.cons_append, List.cons.injEq] at hab
        rw [hab.1, hstep]
        exact hall a b hab.2
      cases hresult : attempt front (c :: rest) with
      | none =>
        refine .inl ⟨rfl, fun a b hab => ?_⟩
        rcases eq_or_ne a [] with rfl | hne
        · rw [List.append_nil, ← hresult, ← hab, List.nil_append]
        · exact hlonger hab hne
      | some result =>
        refine .inr ⟨[], c :: rest, result, rfl, by rw [List.append_nil, hresult], rfl, ?_⟩
        exact fun a b hab hlong => hlonger hab (List.ne_nil_of_length_pos hlong)
    · rw [hsome, Option.some_or]
      refine .inr ⟨c :: a, b, result, rfl, by rw [hstep, hresult], rfl, fun a' b' hab hlong => ?_⟩
      cases a' with
      | nil => exact absurd hlong (Nat.not_lt_zero _)
      | cons d a' =>
        rw [List.cons_append, List.cons.injEq] at hab
        rw [hab.1, hstep]
        exact hall a' b' hab.2 (Nat.lt_of_succ_lt_succ hlong)

/-- What a star does with one way to cut the text in two. -/
def starAttempt (pattern front back : Text) : Option (List Text) :=
  if !front.isEmpty && Text.balanced front then (capture pattern back).map (front :: ·) else none

theorem capture_star (pattern text : Text) :
    capture ('*' :: pattern) text = longestFront (starAttempt pattern) [] text :=
  rfl

theorem starAttempt_eq_some_iff {pattern front back : Text} :
    starAttempt pattern front back = some captures ↔
      (front ≠ [] ∧ Text.balanced front = true) ∧
        ∃ rest, capture pattern back = some rest ∧ captures = front :: rest := by
  rw [starAttempt, Option.ite_none_right_eq_some, Bool.and_eq_true, Bool.not_eq_true',
    List.isEmpty_eq_false_iff, Option.map_eq_some_iff]
  simp only [eq_comm]

theorem capture_char_nil {p : Char} (hstar : p ≠ '*') (pattern : Text) :
    capture (p :: pattern) [] = none := by
  rw [capture]
  · exact if_neg fun h => Option.some_ne_none _ h.2.2.symm
  · exact hstar

theorem capture_char_cons {p : Char} (hstar : p ≠ '*') (pattern : Text) (c : Char) (rest : Text) :
    capture (p :: pattern) (c :: rest) =
      if p = '+' ∧ pattern.head? = some '*' ∧ (c :: rest).head? = some '-' then
        capture pattern (c :: rest)
      else if p = c.toUpper then capture pattern rest else none := by
  rw [capture]
  exact hstar

/-- A star finds the greediest match if the rest of its pattern does. -/
theorem capture_star_finds {pattern : Text}
    (ih : ∀ back, Finds (Takes pattern back) (capture pattern back)) (text : Text) :
    Finds (Takes ('*' :: pattern) text) (capture ('*' :: pattern) text) := by
  -- a cut with a match behind it does not fail
  have hsucceeds {front back : Text} {rest : List Text} (hne : front ≠ [])
      (hbalanced : Text.balanced front = true) (hrest : Takes pattern back rest) :
      starAttempt pattern front back ≠ none := by
    intro hnone
    have hback := ih back
    cases hresult : capture pattern back with
    | none =>
      rw [hresult] at hback
      exact hback rest hrest
    | some captures =>
      have hsome := starAttempt_eq_some_iff.2 ⟨⟨hne, hbalanced⟩, captures, hresult, rfl⟩
      rw [hnone] at hsome
      cases hsome
  rw [capture_star]
  rcases longestFront_cases (starAttempt pattern) [] text with
    ⟨hnone, hall⟩ | ⟨front, back, captures, rfl, hattempt, hsome, hall⟩
  · rw [hnone]
    intro captures htakes
    obtain ⟨front, back, rest, hcut, -, hne, hbalanced, hrest⟩ := takes_star_iff.1 htakes
    exact hsucceeds hne hbalanced hrest (hall front back hcut)
  · rw [hsome]
    obtain ⟨⟨hne, hbalanced⟩, rest, hresult, rfl⟩ := starAttempt_eq_some_iff.1 hattempt
    have hback := ih back
    rw [hresult] at hback
    refine ⟨.star hne hbalanced hback.1, fun others hothers => ?_⟩
    obtain ⟨front', back', rest', hcut, rfl, hne', hbalanced', hrest'⟩ := takes_star_iff.1 hothers
    rcases Nat.lt_trichotomy front'.length front.length with hshort | hequal | hlong
    · exact .inr (.here hshort)
    · obtain ⟨rfl, rfl⟩ := List.append_inj hcut hequal
      rcases hback.2 rest' hrest' with rfl | hgreedier
      · exact .inl rfl
      · exact .inr (.later hgreedier)
    · exact absurd (hall front' back' hcut hlong) (hsucceeds hne' hbalanced' hrest')

/-- A character of a pattern in upper case is compared up to case. -/
theorem eq_toUpper_iff {p c : Char} (hp : p.isLower = false) :
    p = c.toUpper ↔ p.toLower = c.toLower := by
  rw [Text.toLower_eq_toLower_iff, Text.toUpper_eq_self hp]

/-- The search finds the greediest match, or nothing if there is none. -/
theorem capture_finds {pattern : Text} (hupper : Text.isUpper pattern = true) (text : Text) :
    Finds (Takes pattern text) (capture pattern text) := by
  -- the pattern loses one character in each step, the text any number of them
  induction pattern generalizing text with
  | nil =>
    refine Finds.congr ?_ fun captures => takes_nil_iff.symm
    cases text with
    | nil => exact ⟨⟨rfl, rfl⟩, fun others hothers => .inl hothers.2⟩
    | cons c rest => exact fun captures h => List.cons_ne_nil _ _ h.1
  | cons p pattern ih =>
    obtain ⟨hp, hupper⟩ := Text.isUpper_cons_iff.1 hupper
    have ih := ih hupper
    by_cases hstar : p = '*'
    · subst hstar
      exact capture_star_finds ih text
    cases text with
    | nil =>
      have hplus : ¬ (p = '+' ∧ pattern.head? = some '*' ∧ ([] : Text).head? = some '-') := by
        rintro ⟨-, -, h⟩
        cases h
      rw [capture_char_nil hstar]
      intro captures htakes
      obtain ⟨c, rest, hnil, -⟩ := (takes_char_iff hstar hplus).1 htakes
      cases hnil
    | cons c rest =>
      rw [capture_char_cons hstar]
      split
      next hplus =>
        obtain ⟨rfl, hhead, hminus⟩ := hplus
        obtain ⟨pattern, rfl⟩ := List.head?_eq_some_iff.1 hhead
        exact (ih _).congr fun captures => (takes_plus_iff hminus).symm
      next hplus =>
        refine Finds.congr ?_ fun captures => (takes_char_iff hstar hplus).symm
        have hletter := eq_toUpper_iff (c := c) hp
        split
        next hsame =>
          refine (ih rest).congr fun captures => ⟨fun h => ⟨c, rest, rfl, hletter.1 hsame, h⟩, ?_⟩
          rintro ⟨c', rest', heq, -, h⟩
          cases heq
          exact h
        next hdiffer =>
          rintro captures ⟨c', rest', heq, hsame, -⟩
          cases heq
          exact hdiffer (hletter.2 hsame)

/-- **Matching is sound, complete and greedy.**  For a pattern in upper case and any text the search
comes to nothing exactly if there is no match.  It comes to some captures exactly if they are those
of a match, and every other match has a shorter capture at the first place where it differs.  The
captures are stretches of the text as it is written. -/
theorem capture_greediest {pattern : Text} (hupper : Text.isUpper pattern = true) (text : Text) :
    (capture pattern text = none ↔ ¬ ∃ captures, Takes pattern text captures) ∧
    ∀ captures,
      (capture pattern text = some captures ↔ Takes pattern text captures ∧
        ∀ others, Takes pattern text others → others = captures ∨ Greedier captures others) ∧
      (capture pattern text = some captures → ∀ stretch ∈ captures, stretch <:+: text) := by
  have hfinds := capture_finds hupper text
  refine ⟨hfinds.eq_none_iff, fun captures => ⟨hfinds.eq_some_iff, fun hcaptures => ?_⟩⟩
  exact (hfinds.eq_some_iff.1 hcaptures).1.isInfix

/-- The first star goes on to the last comma at which the rest matches, and the plus sign is
missing. -/
theorem capture_greediest_twoStars :
    Text.isUpper "*,(IX+*)".toList = true ∧
    capture "*,(IX+*)".toList "1,2,(ix-3)".toList = some ["1,2".toList, "-3".toList] ∧
    Takes "*,(IX+*)".toList "1,2,(ix-3)".toList ["1,2".toList, "-3".toList] := by
  have hupper : Text.isUpper "*,(IX+*)".toList = true := by decide
  have hcapture :
      capture "*,(IX+*)".toList "1,2,(ix-3)".toList = some ["1,2".toList, "-3".toList] := by
    decide +kernel
  exact ⟨hupper, hcapture, (((capture_greediest hupper _).2 _).1.1 hcapture).1⟩

/-! ## Upper case -/

theorem longestFront_asciiUpper {attempt : (front back : Text) → Option (List Text)}
    (h : ∀ front back, attempt (Text.asciiUpper front) (Text.asciiUpper back) =
      (attempt front back).map (List.map Text.asciiUpper)) (front text : Text) :
    longestFront attempt (Text.asciiUpper front) (Text.asciiUpper text) =
      (longestFront attempt front text).map (List.map Text.asciiUpper) := by
  induction text generalizing front with
  | nil => exact h front []
  | cons c rest ih =>
    have hlonger := ih (front ++ [c])
    rw [Text.asciiUpper, List.map_append] at hlonger
    have hshort := h front (c :: rest)
    simp only [Text.asciiUpper, List.map_cons, List.map_nil, longestFront, Option.orElse_eq_orElse,
      Option.orElse_eq_or, Option.map_or] at hlonger hshort ⊢
    rw [hlonger, hshort]

/-- **A pattern takes the same stretches of a text in upper case.** -/
theorem capture_asciiUpper (pattern text : Text) :
    capture pattern (Text.asciiUpper text) =
      (capture pattern text).map (List.map Text.asciiUpper) := by
  induction pattern generalizing text with
  | nil => cases text <;> rfl
  | cons p pattern ih =>
    by_cases hstar : p = '*'
    · subst hstar
      rw [capture_star, capture_star]
      refine longestFront_asciiUpper (fun front back => ?_) [] text
      rw [starAttempt, starAttempt, Text.balanced_asciiUpper, ih, Text.asciiUpper, List.isEmpty_map]
      split
      · rw [Option.map_map, Option.map_map]
        rfl
      · rfl
    · cases text with
      | nil => rw [Text.asciiUpper, List.map_nil, capture_char_nil hstar, Option.map_none]
      | cons c rest =>
        have hminus : (c.toUpper :: Text.asciiUpper rest).head? = some '-' ↔
            (c :: rest).head? = some '-' := by
          rw [List.head?_cons, List.head?_cons, Option.some.injEq, Option.some.injEq,
            Text.toUpper_eq_iff (by decide)]
        have hcons : Text.asciiUpper (c :: rest) = c.toUpper :: Text.asciiUpper rest := rfl
        rw [hcons, capture_char_cons hstar, capture_char_cons hstar,
          Text.toUpper_eq_self (Text.isLower_toUpper _)]
        simp only [hminus]
        split
        · exact ih (c :: rest)
        · split
          · exact ih rest
          · rfl

end Pattern

end MacroAssembler
