import MacroAssembler.Proofs.OperandBytes

/-!
# Operands with their bytes exchanged

A row may ask for the high byte of its operand first.  Its rule exchanges the two low bytes of the
operand and encodes what comes out as a plain operand.  As long as the operand fits its two bytes,
the code is that of the plain row with the last two bytes exchanged.

The exchange comes before the check of the range, and it drops all that stands above the two bytes.
What is checked then always fits.  So a row with exchanged bytes refuses nothing: of an operand that
the plain row refuses it keeps the low sixteen bits.
-/

namespace MacroAssembler

namespace Instruction

/-- The row under another rule. -/
def under (ins : Instruction) (rule : Encoding) : Instruction :=
  { ins with encoding := rule }

/-- The code with its last two bytes exchanged. -/
def exchangeLast (code : List UInt8) : List UInt8 :=
  match code.reverse with
  | last :: previous :: front => (previous :: last :: front).reverse
  | _ => code

theorem exchangeLast_append (front : List UInt8) (low high : UInt8) :
    exchangeLast (front ++ [low, high]) = front ++ [high, low] := by
  simp [exchangeLast]

/-- The second of two results is the first one with the last two bytes of the code exchanged: both
are refused, or there is code for both. -/
inductive Exchanged : Except EncodeError (List UInt8) → Except EncodeError (List UInt8) → Prop
  | refused (e e' : EncodeError) : Exchanged (.error e) (.error e')
  | encoded (code : List UInt8) : Exchanged (.ok code) (.ok (exchangeLast code))

theorem leBytes_two (n : Int) : leBytes n 2 = [lowByte n, lowByte (n / 256)] := by
  rw [leBytes_succ n (by decide), leBytes_succ (n / 256) (by decide)]
  rfl

/-- The exchange keeps the two low bytes and nothing above them. -/
theorem leBytes_swapBytes (n : Int) : leBytes (swapBytes n) 2 = [lowByte (n / 256), lowByte n] := by
  have hlow : swapBytes n % 256 = n / 256 % 256 := by
    unfold swapBytes
    omega
  have hhigh : swapBytes n / 256 = n % 256 := by
    have hrest : 0 ≤ n / 256 % 256 ∧ n / 256 % 256 < 256 := by omega
    unfold swapBytes
    generalize n / 256 % 256 = rest at hrest
    omega
  rw [leBytes_two, lowByte, lowByte, hlow, hhigh, Int.emod_emod]
  rfl

/-- An operand of a plain row with two bytes for it. -/
theorem encodePlain_pair {ins : Instruction} (htrailing : ins.trailing = 2) (value : Int) :
    ins.encodePlain value =
      if -2 ^ 15 ≤ value ∧ value < 2 ^ 16 then
        .ok (ins.opcode ++ [lowByte value, lowByte (value / 256)])
      else .error (.outOfRange value (-2 ^ 15) (2 ^ 16 - 1)) := by
  rw [encodePlain, if_neg (by omega), htrailing, fit_eq value (by decide), leBytes_two]
  by_cases hrange : -2 ^ 15 ≤ value ∧ value < 2 ^ 16
  · rw [if_pos hrange, if_pos hrange]
    rfl
  · rw [if_neg hrange, if_neg hrange]
    rfl

/-- What the exchange leaves of a number always fits. -/
theorem encodePlain_swapBytes {ins : Instruction} (htrailing : ins.trailing = 2) (value : Int) :
    ins.encodePlain (swapBytes value) =
      .ok (ins.opcode ++ [lowByte (value / 256), lowByte value]) := by
  have hrange : -2 ^ 15 ≤ swapBytes value ∧ swapBytes value < 2 ^ 16 := by
    unfold swapBytes
    omega
  rw [encodePlain_pair htrailing, if_pos hrange, ← leBytes_two, leBytes_swapBytes]

/-- **Exchanging the bytes of an operand is exchanging the bytes of its code, as long as the operand
fits.**  Take a row with one operand, neither shift nor mask and two bytes behind its opcode.  With
exchanged bytes it encodes every 64-bit operand, by the high byte and then the low byte of the
operand's low sixteen bits.  This is the plain encoding with the last two bytes exchanged, refused
operands included, exactly for the operands of the signed and the unsigned range of two bytes; an
operand beyond them is refused by the plain row only. -/
theorem swapped_exchanges_iff (ins : Instruction) (harity : ins.arity = 1) (hshift : ins.shift = 0)
    (hmask : ins.mask = 0) (hsize : ins.size = ins.opcode.length + 2) (operand : Int64)
    (address : Int) :
    (ins.under .swapped).encode [operand.toInt] address =
      .ok (ins.opcode ++ [lowByte (operand.toInt / 256), lowByte operand.toInt]) ∧
    (Exchanged ((ins.under .plain).encode [operand.toInt] address)
        ((ins.under .swapped).encode [operand.toInt] address) ↔
      -2 ^ 15 ≤ operand.toInt ∧ operand.toInt < 2 ^ 16) := by
  have htrailing (rule : Encoding) : (ins.under rule).trailing = 2 := by
    show ins.size - ins.opcode.length = 2
    omega
  have hargs (rule : Encoding) : [operand.toInt].length = (ins.under rule).arity := harity.symm
  have hoperand (rule : Encoding) : (ins.under rule).shiftedOperand operand.toInt = operand.toInt :=
    shiftedOperand_eq_self hshift hmask operand
  have hplain : (ins.under .plain).encode [operand.toInt] address =
      (ins.under .plain).encodePlain operand.toInt := by
    unfold encode
    rw [if_neg (not_not_intro (hargs _)), show (ins.under .plain).encoding = .plain from rfl]
    dsimp only
    rw [hoperand]
  have hswapped : (ins.under .swapped).encode [operand.toInt] address =
      .ok (ins.opcode ++ [lowByte (operand.toInt / 256), lowByte operand.toInt]) := by
    unfold encode
    rw [if_neg (not_not_intro (hargs _)), show (ins.under .swapped).encoding = .swapped from rfl]
    dsimp only
    rw [hoperand]
    exact encodePlain_swapBytes (htrailing .swapped) operand.toInt
  refine ⟨hswapped, ?_⟩
  rw [hplain, hswapped, encodePlain_pair (htrailing .plain)]
  by_cases hrange : -2 ^ 15 ≤ operand.toInt ∧ operand.toInt < 2 ^ 16
  · rw [if_pos hrange, ← exchangeLast_append ins.opcode (lowByte operand.toInt)]
    exact ⟨fun _ => hrange, fun _ => .encoded _⟩
  · rw [if_neg hrange]
    refine ⟨fun h => ?_, fun h => absurd h hrange⟩
    cases h

/-- A row with one operand of two bytes. -/
def loadWord : Instruction where
  mnemonic := "LD".toList
  operands := "BC,*".toList
  opcode := [0x01]
  size := 3
  encoding := .swapped

/-- The least operand that fits, and the first one beyond the greatest. -/
theorem swapped_exchanges_iff_rangeEnds :
    loadWord.arity = 1 ∧ loadWord.shift = 0 ∧ loadWord.mask = 0 ∧
    loadWord.size = loadWord.opcode.length + 2 ∧
    (loadWord.under .swapped).encode [(-32768 : Int64).toInt] 0 = .ok [0x01, 0x80, 0x00] ∧
    Exchanged ((loadWord.under .plain).encode [(-32768 : Int64).toInt] 0)
      ((loadWord.under .swapped).encode [(-32768 : Int64).toInt] 0) := by
  refine ⟨by decide, rfl, rfl, rfl, rfl, ?_⟩
  exact (swapped_exchanges_iff loadWord (by decide) rfl rfl rfl (-32768) 0).2.2 (by decide)

/-- An operand of seventeen bits is refused by the plain row and cut down by the exchange. -/
theorem swapped_not_exchanged_seventeenBits :
    loadWord.arity = 1 ∧ loadWord.shift = 0 ∧ loadWord.mask = 0 ∧
    loadWord.size = loadWord.opcode.length + 2 ∧
    (loadWord.under .plain).encode [(65536 : Int64).toInt] 0 =
      .error (.outOfRange 65536 (-32768) 65535) ∧
    (loadWord.under .swapped).encode [(65536 : Int64).toInt] 0 = .ok [0x01, 0x00, 0x00] ∧
    ¬ Exchanged ((loadWord.under .plain).encode [(65536 : Int64).toInt] 0)
      ((loadWord.under .swapped).encode [(65536 : Int64).toInt] 0) := by
  have hplain : (loadWord.under .plain).encode [(65536 : Int64).toInt] 0 =
      .error (.outOfRange 65536 (-32768) 65535) := rfl
  have hswapped : (loadWord.under .swapped).encode [(65536 : Int64).toInt] 0 =
      .ok [0x01, 0x00, 0x00] := rfl
  refine ⟨by decide, rfl, rfl, rfl, hplain, hswapped, ?_⟩
  rw [hplain, hswapped]
  intro h
  cases h

end Instruction

end MacroAssembler
