import Mathlib

/-!
# The sign of a value

A negative value is written into a text as a mark and the value without its sign, and it is read
back by negating what stands behind the mark.  So the text of an expression depends on three facts
about doubles: negation undoes itself, the negation of a negative value is its magnitude, and a
value that is not negative is its own magnitude, unless it is the negative zero.

A double is a sign, an exponent and a mantissa side by side.  Every operation takes it apart and
puts the parts together again, and the facts follow because a change of the sign leaves the other
two as they are (`unpack_packComponents`), so that what is put together is taken apart as it was
(`unpack_pack_withSign`).  The library proves how bits are packed, but only the whole of it does.
-/

namespace MacroAssembler

namespace Value

open Float.Model UnpackedFloat

/-- A float with another sign.  What is no number has none. -/
def withSign (sign : Sign) : UnpackedFloat → UnpackedFloat
  | .notANumber => .notANumber
  | .infinity _ => .infinity sign
  | .zero _ => .zero sign
  | .finite _ m e hm => .finite sign m e hm

/-! ## Taking apart and putting together -/

/-- The parts of a double with another sign are those of the float with that sign. -/
theorem unpack_packComponents {spec : Format} (sign : Sign) (b : BitVec spec.numBits) :
    UnpackedFloat.unpack spec (packComponents spec sign (unpackExponent b) (unpackMantissa b)) =
      withSign sign (UnpackedFloat.unpack spec b) := by
  simp only [UnpackedFloat.unpack, unpackExponent_packComponents, unpackMantissa_packComponents,
    unpackSign_packComponents, Sign.ofBitVec_toBitVec]
  split
  · split <;> rfl
  · split
    · split <;> rfl
    · rfl

/-- What has been taken apart survives being put together. -/
theorem unpack_pack_unpack (b : BitVec Format.binary64.numBits) :
    UnpackedFloat.unpack Format.binary64
        (UnpackedFloat.pack Format.binary64 (UnpackedFloat.unpack Format.binary64 b)) =
      UnpackedFloat.unpack Format.binary64 b := by
  rw [UnpackedFloat.pack_unpack]
  split
  next hnan =>
    obtain ⟨htop, hmantissa⟩ : unpackExponent b = -1#_ ∧ unpackMantissa b ≠ 0#_ := by
      simpa only [isNaNBits, decide_eq_true_eq] using hnan
    rw [unpack_packedNaN]
    simp only [UnpackedFloat.unpack, htop, hmantissa, if_true, if_false]
  next => rfl

/-- A double is put together again as it was. -/
theorem pack_unpack (f : Float.Model) : pack f.unpack = f := by
  have hbits : UnpackedFloat.pack Format.binary64 f.unpack = f.toBits.toBitVec :=
    pack_unpack_of_valid f.valid
  obtain ⟨bits, valid⟩ := f
  unfold Float.Model.pack
  congr 1
  exact UInt64.toBitVec_inj.1 hbits

/-! ## Changes of the sign -/

theorem neg_withSign (sign : Sign) (u : UnpackedFloat) :
    (withSign sign u).neg = withSign (-sign) u := by
  cases u <;> rfl

/-- The sign that the sign bit says. -/
def signOf (f : Float.Model) : Sign :=
  Sign.ofBitVec (@unpackSign Format.binary64 f.toBits.toBitVec)

theorem withSign_signOf (f : Float.Model) : withSign (signOf f) f.unpack = f.unpack := by
  have h :=
    unpack_packComponents (signOf f) (show BitVec Format.binary64.numBits from f.toBits.toBitVec)
  rw [signOf, packComponents_unpackSign_unpackExponent_unpackMantissa] at h
  exact h.symm

/-- A double with another sign is taken apart as one. -/
theorem unpack_pack_withSign (sign : Sign) (f : Float.Model) :
    (pack (withSign sign f.unpack)).unpack = withSign sign f.unpack := by
  have hsigned :=
    unpack_packComponents sign (show BitVec Format.binary64.numBits from f.toBits.toBitVec)
  have hunpack := unpack_pack_unpack (packComponents Format.binary64 sign
    (@unpackExponent Format.binary64 f.toBits.toBitVec)
      (@unpackMantissa Format.binary64 f.toBits.toBitVec))
  rw [hsigned] at hunpack
  exact hunpack

/-- Negation undoes itself. -/
theorem neg_neg (x : Float) : -(-x) = x := by
  obtain ⟨f⟩ := x
  have hneg : f.unpack.neg = withSign (-signOf f) f.unpack := by
    rw [← neg_withSign, withSign_signOf]
  have hsign : - -signOf f = signOf f := by
    cases signOf f <;> rfl
  have hmodel : Float.Model.pack (Float.Model.pack f.unpack.neg).unpack.neg = f := by
    rw [hneg, unpack_pack_withSign, neg_withSign, hsign, withSign_signOf, pack_unpack]
  exact congrArg Float.ofModel hmodel

/-- How a value compares with zero is told by what it unpacks to. -/
theorem lt_zero_iff (f : Float.Model) :
    (Float.ofModel f < 0) ↔ f.unpack.compare (.zero .positive) = some .lt := by
  have hzero : (0 : Float).toModel.unpack = .zero .positive := rfl
  have hiff : (Float.ofModel f < 0) ↔
      (f.unpack.compare (0 : Float).toModel.unpack == some .lt) = true :=
    decide_eq_true_iff
  rw [hiff, hzero, beq_iff_eq]

/-- The negation of a negative value is its magnitude. -/
theorem neg_eq_abs_of_lt {x : Float} (h : x < 0) : -x = x.abs := by
  obtain ⟨f⟩ := x
  rw [lt_zero_iff] at h
  have hsame : f.unpack.neg = f.unpack.abs := by
    cases hunpack : f.unpack with
    | notANumber => rfl
    | infinity sign =>
      rw [hunpack] at h
      cases sign with
      | negative => rfl
      | positive => cases h
    | zero sign =>
      rw [hunpack] at h
      cases h
    | finite sign m e hm =>
      rw [hunpack] at h
      cases sign with
      | negative => rfl
      | positive => cases h
  exact congrArg (fun u => Float.ofModel (Float.Model.pack u)) hsame

/-- A value that is not negative is its own magnitude, unless it is the negative zero. -/
theorem abs_eq_self_or_of_not_lt {x : Float} (h : ¬x < 0) : x.abs = x ∨ x = -0 := by
  obtain ⟨f⟩ := x
  rw [lt_zero_iff] at h
  have hpack := pack_unpack f
  have hself : f.unpack.abs = f.unpack → (Float.ofModel f).abs = Float.ofModel f := by
    intro hsame
    have hmodel : Float.Model.pack f.unpack.abs = f := by rw [hsame, hpack]
    exact congrArg Float.ofModel hmodel
  cases hunpack : f.unpack with
  | notANumber => exact .inl (hself (by rw [hunpack]; rfl))
  | infinity sign =>
    cases sign with
    | negative =>
      rw [hunpack] at h
      exact absurd rfl h
    | positive => exact .inl (hself (by rw [hunpack]; rfl))
  | zero sign =>
    cases sign with
    | negative =>
      rw [hunpack] at hpack
      rw [← hpack]
      exact .inr (by decide +kernel)
    | positive => exact .inl (hself (by rw [hunpack]; rfl))
  | finite sign m e hm =>
    cases sign with
    | negative =>
      rw [hunpack] at h
      exact absurd rfl h
    | positive => exact .inl (hself (by rw [hunpack]; rfl))

end Value

end MacroAssembler
