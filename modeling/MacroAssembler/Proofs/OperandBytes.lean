import MacroAssembler.Proofs.EncodedSize
import Mathlib.Algebra.GroupWithZero.Nat
import Mathlib.Algebra.Ring.Int.Defs

/-!
# Reading operands back from machine code

A processor reads the bytes behind an opcode as a number, the least byte first.  An immediate is
read as it stands, a distance in two's complement.  This module reads the bytes that encoding puts
out in the same way and compares with the operand that they came from.

The two kinds of operands have different ranges.  A distance is always signed, so that one byte
reaches from -128 to 127.  An immediate may be meant as signed or as unsigned: one byte takes
everything from -128 to 255, and what is read back is the operand modulo 256.  Operands are signed
64-bit integers; the shift and the mask of a row act on all 64 bits, so that a row without either
leaves its operand as it is.
-/

namespace MacroAssembler

/-! ## Numbers as bytes -/

/-- The number that some bytes spell, the least byte first. -/
def leNat : List UInt8 → Nat
  | [] => 0
  | b :: bytes => b.toNat + 256 * leNat bytes

/-- The number that some bytes spell in two's complement, the least byte first. -/
def leInt (bytes : List UInt8) : Int :=
  (leNat bytes : Int).bmod (256 ^ bytes.length)

/-- The bytes of a number are its low byte and the bytes of what is above it. -/
theorem leBytes_succ (n : Int) {count : Nat} (h : count < 8) :
    leBytes n (count + 1) = lowByte n :: leBytes (n / 256) count := by
  have hfirst : Int.pow 2 (8 * 0) = 1 := rfl
  have hnext (i : Nat) : n / Int.pow 2 (8 * (i + 1)) = n / 256 / Int.pow 2 (8 * i) := by
    rw [Int.ediv_ediv_of_nonneg (by decide)]
    congr 1
    change (2 : Int) ^ (8 * (i + 1)) = 256 * 2 ^ (8 * i)
    rw [Nat.mul_succ, Int.pow_add, Int.mul_comm]
    rfl
  unfold leBytes lowByte
  rw [Nat.min_eq_left h, Nat.min_eq_left (Nat.le_of_lt h), List.range_succ_eq_map, List.map_cons,
    List.map_map, hfirst, Int.ediv_one]
  refine congrArg (_ :: ·) (List.map_congr_left fun i _ => ?_)
  rw [Function.comp_apply, Nat.succ_eq_add_one, hnext]

theorem toNat_lowByte (n : Int) : ((lowByte n).toNat : Int) = n % 256 := by
  have hmin : 0 ≤ n % 256 := Int.emod_nonneg _ (by decide)
  have hmax : n % 256 < 256 := Int.emod_lt_of_pos _ (by decide)
  rw [lowByte, UInt8.toNat_ofNat']
  omega

/-- The remainder of a division by a product, taken in two steps. -/
theorem emod_mul_eq (n : Int) {a b : Int} (ha : 0 < a) (hb : 0 < b) :
    n % (a * b) = n % a + a * (n / a % b) := by
  have hlow : 0 ≤ n % a ∧ n % a + 1 ≤ a :=
    ⟨Int.emod_nonneg _ (Int.ne_of_gt ha), Int.emod_lt_of_pos _ ha⟩
  have hhigh : 0 ≤ n / a % b ∧ n / a % b + 1 ≤ b :=
    ⟨Int.emod_nonneg _ (Int.ne_of_gt hb), Int.emod_lt_of_pos _ hb⟩
  have hnonneg : 0 ≤ a * (n / a % b) := Int.mul_nonneg (Int.le_of_lt ha) hhigh.1
  have hle : a * (n / a % b + 1) ≤ a * b :=
    Int.mul_le_mul_of_nonneg_left hhigh.2 (Int.le_of_lt ha)
  rw [Int.mul_add, Int.mul_one] at hle
  have hsplit : n = n % a + a * (n / a % b) + a * b * (n / a / b) := by
    calc n = n % a + a * (n / a) := (Int.emod_add_mul_ediv n a).symm
      _ = n % a + a * (n / a % b + b * (n / a / b)) := by rw [Int.emod_add_mul_ediv (n / a) b]
      _ = n % a + a * (n / a % b) + a * b * (n / a / b) := by
        rw [Int.mul_add, Int.mul_assoc, Int.add_assoc]
  calc n % (a * b) = (n % a + a * (n / a % b) + a * b * (n / a / b)) % (a * b) :=
        congrArg (· % (a * b)) hsplit
    _ = (n % a + a * (n / a % b)) % (a * b) := Int.add_mul_emod_self_left _ _ _
    _ = n % a + a * (n / a % b) := Int.emod_eq_of_lt (by omega) (by omega)

/-- Bytes give back the number they were made from, up to what they have no room for. -/
theorem leNat_leBytes (n : Int) {count : Nat} (h : count ≤ 8) :
    (leNat (leBytes n count) : Int) = n % 256 ^ count := by
  induction count generalizing n with
  | zero =>
    rw [Int.pow_zero, Int.emod_one]
    rfl
  | succ count ih =>
    rw [leBytes_succ n h, leNat, Int.natCast_add, Int.natCast_mul, ih _ (Nat.le_of_lt h),
      toNat_lowByte, Int.pow_succ', emod_mul_eq n (by decide) (Int.pow_pos (by decide))]
    rfl

/-- In two's complement a number of the signed range is given back as it is. -/
theorem leInt_leBytes {n : Int} {count : Nat} (hcount : count ≤ 8) (hmin : -256 ^ count ≤ n * 2)
    (hmax : n * 2 < 256 ^ count) : leInt (leBytes n count) = n := by
  have hcast : (256 : Int) ^ count = ((256 ^ count : Nat) : Int) := (Int.natCast_pow 256 count).symm
  rw [hcast] at hmin hmax
  rw [leInt, leNat_leBytes n hcount, Instruction.length_leBytes, Nat.min_eq_left hcount, hcast,
    Int.emod_bmod]
  exact Int.bmod_eq_of_le_mul_two hmin hmax

namespace Instruction

variable {ins : Instruction}

/-! ## Distances -/

/-- What a relative branch comes to that leaves `width` bytes for a distance from `low` to `high`:
it is encoded exactly if the distance is in this range, it is refused with the distance otherwise,
and the bytes behind the opcode, read in two's complement from the end of the instruction, lead to
the target. -/
structure LeadsTo (ins : Instruction) (width : Nat) (low high target address : Int)
    (result : Except EncodeError (List UInt8)) : Prop where
  ok_iff : (∃ code, result = .ok code) ↔
    low ≤ target - (address + ins.size) ∧ target - (address + ins.size) ≤ high
  refused : ¬ (low ≤ target - (address + ins.size) ∧ target - (address + ins.size) ≤ high) →
    result = .error (.branchRange (target - (address + ins.size)))
  reads_back : ∀ code, result = .ok code → ∃ distance, code = ins.opcode ++ distance ∧
    distance.length = width ∧ leInt distance + (address + ins.size) = target

/-- The range of a distance is half the numbers of its bytes to each side. -/
theorem encodeRelative_leadsTo {width : Nat} {half : Int} (hwidth : width ≤ 8)
    (hhalf : Int.pow 2 (8 * width - 1) = half) (hall : half * 2 = 256 ^ width)
    (target address : Int) :
    ins.LeadsTo width (-half) (half - 1) target address
      (ins.encodeRelative width target address) := by
  unfold encodeRelative
  dsimp only
  rw [hhalf]
  by_cases hrange : -half ≤ target - (address + ins.size) ∧ target - (address + ins.size) < half
  · rw [if_pos hrange]
    have hclosed := And.intro hrange.1 (Int.le_sub_one_of_lt hrange.2)
    refine ⟨⟨fun _ => hclosed, fun _ => ⟨_, rfl⟩⟩, fun hout => absurd hclosed hout, ?_⟩
    intro code hcode
    cases hcode
    refine ⟨_, rfl, ?_, ?_⟩
    · rw [length_leBytes, Nat.min_eq_left hwidth]
    · rw [leInt_leBytes hwidth (by omega) (by omega)]
      omega
  · rw [if_neg hrange]
    refine ⟨⟨?_, fun hin => absurd ⟨hin.1, Int.lt_of_le_sub_one hin.2⟩ hrange⟩, fun _ => rfl, ?_⟩
    · rintro ⟨code, hcode⟩
      cases hcode
    · intro code hcode
      cases hcode

/-! ## Immediates -/

/-- What a plain operand comes to that has `width` bytes behind the opcode: it is encoded exactly if
it can be meant as a signed or as an unsigned number of so many bytes, it is refused with this range
otherwise, and the bytes behind the opcode give it back modulo what fits in them. -/
structure Holds (ins : Instruction) (width : Nat) (operand : Int)
    (result : Except EncodeError (List UInt8)) : Prop where
  ok_iff : (∃ code, result = .ok code) ↔
    -2 ^ (8 * width - 1) ≤ operand ∧ operand < 2 ^ (8 * width)
  refused : ¬ (-2 ^ (8 * width - 1) ≤ operand ∧ operand < 2 ^ (8 * width)) →
    result = .error (.outOfRange operand (-2 ^ (8 * width - 1)) (2 ^ (8 * width) - 1))
  reads_back : ∀ code, result = .ok code → ∃ immediate, code = ins.opcode ++ immediate ∧
    immediate.length = width ∧ (leNat immediate : Int) = operand % 2 ^ (8 * width)

/-- The numbers that go into fewer than eight bytes. -/
theorem fit_eq (value : Int) {count : Nat} (hcount : count < 8) :
    fit value count =
      if -2 ^ (8 * count - 1) ≤ value ∧ value < 2 ^ (8 * count) then .ok (leBytes value count)
      else .error (.outOfRange value (-2 ^ (8 * count - 1)) (2 ^ (8 * count) - 1)) := by
  have hrange : placeRange count = (-2 ^ (8 * count - 1), 2 ^ (8 * count) - 1) := by
    rw [placeRange, if_neg (Nat.not_le_of_lt hcount)]
    rfl
  unfold fit
  rw [hrange]
  dsimp only
  simp only [Int.le_sub_one_iff]

theorem encodePlain_holds (hpos : 0 < ins.trailing) (hcount : ins.trailing < 8) (operand : Int) :
    ins.Holds ins.trailing operand (ins.encodePlain operand) := by
  have hpow : (2 : Int) ^ (8 * ins.trailing) = 256 ^ ins.trailing := Int.pow_mul
  unfold encodePlain
  rw [if_neg (Nat.ne_of_gt hpos), fit_eq operand hcount]
  by_cases hrange : -2 ^ (8 * ins.trailing - 1) ≤ operand ∧ operand < 2 ^ (8 * ins.trailing)
  · rw [if_pos hrange]
    refine ⟨⟨fun _ => hrange, fun _ => ⟨_, rfl⟩⟩, fun hout => absurd hrange hout, ?_⟩
    intro code hcode
    cases hcode
    refine ⟨_, rfl, ?_, ?_⟩
    · rw [length_leBytes, Nat.min_eq_left (Nat.le_of_lt hcount)]
    · rw [leNat_leBytes operand (Nat.le_of_lt hcount), hpow]
  · rw [if_neg hrange]
    refine ⟨⟨?_, fun hin => absurd hin hrange⟩, fun _ => rfl, ?_⟩
    · rintro ⟨code, hcode⟩
      cases hcode
    · intro code hcode
      cases hcode

/-- A row without a shift and a mask takes a 64-bit operand as it is. -/
theorem shiftedOperand_eq_self (hshift : ins.shift = 0) (hmask : ins.mask = 0) (operand : Int64) :
    ins.shiftedOperand operand.toInt = operand.toInt := by
  have hpow : Int.pow 2 0 = 1 := rfl
  have hword : Nat.pow 2 64 = 2 ^ 64 := rfl
  rw [shiftedOperand, hshift, hmask, if_pos (by decide), hpow, Int.mul_one, BitVec.or_zero,
    BitVec.toInt_ofInt, hword, Int.bmod_bmod]
  exact operand.toInt_bmod

/-! ## Rows -/

/-- **Branches and immediates read back as their operands.**  A relative branch with an operand is
encoded exactly if the distance from its end to the target fits the one or two bytes of its rule as
a signed number, and then the processor's reading of these bytes leads to the target; any other
distance is refused and named.  A plain row with one operand, neither shift nor mask and `width`
bytes behind its opcode takes exactly the 64-bit operands of the signed and the unsigned range of
these bytes, refuses the others with this range, and puts the operand modulo the number of values
of these bytes behind its opcode. -/
theorem operands_read_back (ins : Instruction) (address : Int) :
    (∀ target more, (target :: more).length = ins.arity →
      (ins.encoding = .relative8 →
        ins.LeadsTo 1 (-128) 127 target address (ins.encode (target :: more) address)) ∧
      (ins.encoding = .relative16 →
        ins.LeadsTo 2 (-32768) 32767 target address (ins.encode (target :: more) address))) ∧
    ∀ width, 1 ≤ width → width ≤ 4 → ins.size = ins.opcode.length + width →
      ins.encoding = .plain → ins.arity = 1 → ins.shift = 0 → ins.mask = 0 →
      ∀ operand : Int64, ins.Holds width operand.toInt (ins.encode [operand.toInt] address) := by
  constructor
  · intro target more hargs
    constructor
    · intro hrule
      unfold encode
      rw [if_neg (not_not_intro hargs), hrule]
      exact encodeRelative_leadsTo (by decide) rfl rfl target address
    · intro hrule
      unfold encode
      rw [if_neg (not_not_intro hargs), hrule]
      exact encodeRelative_leadsTo (by decide) rfl rfl target address
  · intro width hmin hmax hsize hrule harity hshift hmask operand
    have htrailing : ins.trailing = width := by rw [trailing, hsize, Nat.add_sub_cancel_left]
    subst htrailing
    have hargs : [operand.toInt].length = ins.arity := harity.symm
    unfold encode
    rw [if_neg (not_not_intro hargs), hrule]
    dsimp only
    rw [shiftedOperand_eq_self hshift hmask]
    exact encodePlain_holds hmin (Nat.lt_of_le_of_lt hmax (by decide)) _

/-- A branch with one byte for the distance. -/
def branchNear : Instruction where
  mnemonic := "JR".toList
  operands := "*".toList
  opcode := [0x18]
  size := 2
  encoding := .relative8

/-- A load with an immediate of two bytes. -/
def loadPair : Instruction where
  mnemonic := "LD".toList
  operands := "HL,*".toList
  opcode := [0x21]
  size := 3
  encoding := .plain

/-- A branch as far back as it goes, and the least signed number of two bytes. -/
theorem operands_read_back_rangeEnds :
    ([0x7F82].length = branchNear.arity ∧ branchNear.encoding = .relative8 ∧
      branchNear.encode [0x7F82] 0x8000 = .ok [0x18, 0x80] ∧
      branchNear.LeadsTo 1 (-128) 127 0x7F82 0x8000 (branchNear.encode [0x7F82] 0x8000)) ∧
    (loadPair.size = loadPair.opcode.length + 2 ∧ loadPair.encoding = .plain ∧
      loadPair.arity = 1 ∧ loadPair.shift = 0 ∧ loadPair.mask = 0 ∧
      loadPair.encode [(-32768 : Int64).toInt] 0 = .ok [0x21, 0x00, 0x80] ∧
      loadPair.Holds 2 (-32768 : Int64).toInt
        (loadPair.encode [(-32768 : Int64).toInt] 0)) := by
  refine ⟨⟨by decide, rfl, rfl, ?_⟩, ⟨rfl, rfl, by decide, rfl, rfl, rfl, ?_⟩⟩
  · exact ((operands_read_back branchNear 0x8000).1 0x7F82 [] (by decide)).1 rfl
  · exact (operands_read_back loadPair 0).2 2 (by decide) (by decide) rfl rfl (by decide) rfl rfl
      (-32768)

end Instruction

end MacroAssembler
