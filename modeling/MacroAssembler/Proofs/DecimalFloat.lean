import Mathlib.Algebra.GroupWithZero.Nat
import MacroAssembler.DataType

/-!
# A decimal float has nine bytes

Whatever the value is, a decimal float has a sign, an exponent and seven bytes of digits.  That is
no matter of course: the digits are those of the value rounded to fourteen places, written out, and
a number with fewer digits would give fewer bytes.  The rounding starts by moving the decimal point
so that fourteen digits stand in front of it, and the main lemma is that they do.
-/

namespace MacroAssembler

/-- A number is at least as large as the least one with as many digits. -/
theorem pow_le_of_toDigits {n : Nat} (hn : 0 < n) :
    10 ^ ((Nat.toDigits 10 n).length - 1) ≤ n := by
  rcases Nat.eq_zero_or_pos ((Nat.toDigits 10 n).length - 1) with hone | hmore
  · rw [hone]
    exact hn
  · refine Nat.le_of_not_lt fun hlt => ?_
    have hlength := (Nat.length_toDigits_le_iff (by decide) hmore).2 hlt
    omega

namespace Ratio

variable {r : Ratio}

/-- A fraction moved by as many places as its scale asks for has no digit less than that in front of
the point. -/
theorem pow_le_floor_timesTenPow (hnum : 0 < r.num) (hden : 0 < r.den) (places : Nat) :
    10 ^ places ≤ (r.timesTenPow (places + 1 - r.scale)).floor := by
  by_cases hone : r.den ≤ r.num
  · -- the whole part has `k + 1` digits, so it is at least `10 ^ k`
    have hpos : 0 < r.num / r.den := Nat.div_pos hone hden
    have hlength := Nat.length_toDigits_pos (b := 10) (n := r.num / r.den)
    generalize hk : (Nat.toDigits 10 (r.num / r.den)).length - 1 = k
    have hscale : r.scale = k + 1 := by
      rw [scale, if_pos hone]
      omega
    have hlow : 10 ^ k * r.den ≤ r.num :=
      (Nat.le_div_iff_mul_le hden).1 (hk ▸ pow_le_of_toDigits hpos)
    rw [hscale]
    by_cases hplaces : k ≤ places
    · have hsplit : 10 ^ places = 10 ^ k * 10 ^ (places - k) := by
        rw [← Nat.pow_add, Nat.add_sub_cancel' hplaces]
      have hmove : ((places : Int) + 1 - (k + 1)).toNat = places - k := by omega
      rw [timesTenPow, if_neg (by omega), hmove]
      refine (Nat.le_div_iff_mul_le hden).2 ?_
      calc 10 ^ places * r.den = 10 ^ k * r.den * 10 ^ (places - k) := by
            rw [hsplit, Nat.mul_right_comm]
        _ ≤ r.num * 10 ^ (places - k) := Nat.mul_le_mul_right _ hlow
    · have hsplit : 10 ^ k = 10 ^ places * 10 ^ (k - places) := by
        rw [← Nat.pow_add, Nat.add_sub_cancel' (Nat.le_of_not_le hplaces)]
      have hmove : ((places : Int) + 1 - (k + 1)).natAbs = k - places := by omega
      rw [timesTenPow, if_pos (by omega), hmove]
      refine (Nat.le_div_iff_mul_le (Nat.mul_pos hden (Nat.pow_pos (by decide)))).2 ?_
      calc 10 ^ places * (r.den * 10 ^ (k - places)) = 10 ^ k * r.den := by
            rw [hsplit, Nat.mul_left_comm, Nat.mul_comm]
        _ ≤ r.num := hlow
  · -- the reciprocal has `k` digits in front of the point, so it is below `10 ^ k`
    have hless := Nat.lt_of_not_le hone
    generalize hk : (Nat.toDigits 10 ((r.den - 1) / r.num)).length = k
    have hscale : r.scale = 1 - k := by rw [scale, if_neg hone, hk]
    have hhigh : r.den ≤ r.num * 10 ^ k := by
      have hlength := Nat.length_toDigits_pos (b := 10) (n := (r.den - 1) / r.num)
      have hlt := (Nat.length_toDigits_le_iff (by decide) (hk ▸ hlength)).1 (Nat.le_of_eq hk)
      have hmul := (Nat.div_lt_iff_lt_mul hnum).1 hlt
      rw [Nat.mul_comm] at hmul
      omega
    have hmove : ((places : Int) + 1 - (1 - k)).toNat = places + k := by omega
    rw [hscale, timesTenPow, if_neg (by omega), hmove]
    refine (Nat.le_div_iff_mul_le hden).2 ?_
    calc 10 ^ places * r.den ≤ 10 ^ places * (r.num * 10 ^ k) := Nat.mul_le_mul_left _ hhigh
      _ = r.num * 10 ^ (places + k) := by rw [Nat.pow_add, Nat.mul_left_comm]

end Ratio

namespace Binary

variable {b : Binary}

theorem num_toRatio_pos (hb : 0 < b.significand) : 0 < b.toRatio.num := by
  unfold toRatio Ratio.timesTwoPow
  split
  · exact hb
  · exact Nat.mul_pos hb (Nat.pow_pos (by decide))

theorem den_toRatio_pos (b : Binary) : 0 < b.toRatio.den := by
  unfold toRatio Ratio.timesTwoPow
  split
  · exact Nat.mul_pos Nat.one_pos (Nat.pow_pos (by decide))
  · exact Nat.one_pos

/-- A number that is not zero has all of its digits after rounding. -/
theorem lt_length_digits_rounded (hb : 0 < b.significand) (places : Nat) :
    places < (Nat.toDigits 10 (b.rounded (places + 1)).digits).length := by
  have hfloor : 10 ^ places ≤ (b.rounded (places + 1)).digits := by
    have hbelow := Ratio.pow_le_floor_timesTenPow (num_toRatio_pos hb) b.den_toRatio_pos places
    have hgrid : -(b.toRatio.scale - ((places + 1 : Nat) : Int)) =
        places + 1 - b.toRatio.scale := by omega
    unfold rounded
    dsimp only
    rw [hgrid]
    split
    · exact Nat.le_succ_of_le hbelow
    · exact hbelow
  refine Nat.lt_of_not_le fun hle => ?_
  rcases Nat.eq_zero_or_pos places with rfl | hplaces
  · exact Nat.not_lt.2 hle Nat.length_toDigits_pos
  · exact Nat.not_lt.2 hfloor ((Nat.length_toDigits_le_iff (by decide) hplaces).1 hle)

end Binary

namespace Value

/-- Values with the same bits are the same. -/
theorem eq_of_toBits_eq {x y : Float} (h : x.toBits = y.toBits) : x = y := by
  obtain ⟨⟨bits, valid⟩⟩ := x
  obtain ⟨⟨bits', valid'⟩⟩ := y
  cases h
  rfl

/-- Only the two zeros have the significand zero. -/
theorem significand_magnitude_pos {x : Float} (hx : (x == 0) = false) :
    0 < (magnitude x).significand := by
  refine Nat.pos_of_ne_zero fun hzero => ?_
  have hbits : x.toBits = (0 : Float).toBits ∨ x.toBits = (-0 : Float).toBits := by
    have hplus : (0 : Float).toBits.toNat = 0 := by decide +kernel
    have hminus : (-0 : Float).toBits.toNat = 2 ^ 63 := by decide +kernel
    have hlt := x.toBits.toNat_lt
    rw [← UInt64.toNat_inj, ← UInt64.toNat_inj, hplus, hminus]
    unfold magnitude exponentField at hzero
    simp only [Nat.pow_eq] at hzero
    split at hzero
    next hfield =>
      dsimp only at hzero
      omega
    next =>
      dsimp only at hzero
      omega
  have hzeros : ((0 : Float) == 0) = true ∧ ((-0 : Float) == 0) = true := by decide +kernel
  rcases hbits with hbits | hbits
  · rw [eq_of_toBits_eq hbits, hzeros.1] at hx
    cases hx
  · rw [eq_of_toBits_eq hbits, hzeros.2] at hx
    cases hx

end Value

namespace DataType

theorem length_packDigits (digits : List Nat) :
    (packDigits digits).length = (digits.length + 1) / 2 := by
  fun_induction packDigits digits with
  | case1 high low rest ih =>
    simp only [List.length_cons, ih]
    omega
  | case2 high => simp only [List.length_cons, List.length_nil]
  | case3 => rfl

/-- **A decimal float has nine bytes**, whatever its value. -/
theorem length_decimalFloat (x : Float) : (decimalFloat x).length = 9 := by
  unfold decimalFloat
  split
  · rfl
  next h =>
    have hx : (x == 0) = false := by
      rw [Bool.not_eq_true, Bool.or_eq_false_iff] at h
      exact h.1
    have hdigits : 13 < (Nat.toDigits 10 ((Value.magnitude x).rounded 14).digits).length :=
      Binary.lt_length_digits_rounded (Value.significand_magnitude_pos hx) 13
    simp only [List.length_cons, length_packDigits, List.length_map, List.length_take]
    omega

end DataType

end MacroAssembler
