import MacroAssembler.Instruction.Z80
import MacroAssembler.Proofs.OperandBytes
import Mathlib.Data.List.Basic

/-!
# Operands inside the instructions of the Z80

Two kinds of operands of the Z80 do not simply follow the opcode.  A bit number and a restart vector
are part of the last opcode byte: they have bits 3 to 5 of it, and the other bits say which
instruction it is.  A displacement from an index register stands behind the first two bytes, so it
is the third byte of every form that has one, and in the forms with a `CB` in the second byte it
stands in front of the last opcode byte.  The processor adds it to the register as a signed number.

Encoding is strict about bit numbers only.  A bit number beyond 7 is refused, and so all other bits
of the opcode are kept.  A restart vector is added to the opcode, and the sum is asked for nothing
but to fit one byte: a vector that is no multiple of eight, or is negative, makes another
instruction of it.  And a displacement may be anything that fits one byte as a signed or as an
unsigned number, although it is read as a signed one: from 128 on it leads below the register.
-/

namespace MacroAssembler

namespace Instruction

variable {ins : Instruction} {args : List Int} {address : Int} {code : List UInt8}

/-! ## Operands of one byte -/

theorem fit_byte (value : Int) : fit value 1 =
    if -128 ≤ value ∧ value ≤ 255 then .ok [lowByte value]
    else .error (.outOfRange value (-128) 255) := by
  have hrange : -2 ^ (8 * 1 - 1) ≤ value ∧ value < 2 ^ (8 * 1) ↔ -128 ≤ value ∧ value ≤ 255 := by
    omega
  rw [fit_eq value (by decide), leBytes_succ value (by decide)]
  simp only [hrange]
  rfl

theorem of_fit_byte {value : Int} {bytes : List UInt8} (h : fit value 1 = .ok bytes) :
    (-128 ≤ value ∧ value ≤ 255) ∧ bytes = [lowByte value] := by
  rw [fit_byte] at h
  split at h
  next hrange =>
    cases h
    exact ⟨hrange, rfl⟩
  · cases h

theorem exists_fit_byte_iff {value : Int} :
    (∃ bytes, fit value 1 = .ok bytes) ↔ -128 ≤ value ∧ value ≤ 255 := by
  constructor
  · rintro ⟨bytes, h⟩
    exact (of_fit_byte h).1
  · intro hrange
    exact ⟨[lowByte value], by rw [fit_byte, if_pos hrange]⟩

/-- There is only code for as many operands as the row has expressions. -/
theorem length_eq_arity_of_encode (h : ins.encode args address = .ok code) :
    args.length = ins.arity := by
  by_contra hargs
  unfold encode at h
  rw [if_pos hargs] at h
  cases h

/-! ## Bits of the last opcode byte -/

/-- The operand that a number in bits 3 to 5 of the last opcode byte stands for. -/
def fieldOperand (rule : Encoding) (field : Nat) : Int :=
  match rule with
  | .restart => 8 * field
  | _ => field

/-- The code is the opcode of the row with one byte for each further operand in front of its last
byte.  The last byte differs from that of the opcode in bits 3 to 5 at most, and these bits hold the
first operand. -/
def KeepsOpcode (ins : Instruction) (args : List Int) (code : List UInt8) : Prop :=
  ∃ (operand : Int) (more : List Int) (front : List UInt8) (last : UInt8) (inserted : List UInt8)
      (byte : UInt8),
    args = operand :: more ∧ ins.opcode = front ++ [last] ∧ code = front ++ inserted ++ [byte] ∧
    inserted.length = more.length ∧ byte &&& 0xC7 = last &&& 0xC7 ∧
    fieldOperand ins.encoding (byte >>> 3 &&& 7).toNat = operand

/-- The operands for which a row with a number in its last opcode byte has code. -/
def TakesFolded (ins : Instruction) (args : List Int) : Prop :=
  args.length = ins.arity ∧ ∃ operand more, args = operand :: more ∧
    match ins.encoding with
    | .restart => -327 ≤ operand ∧ operand ≤ 56
    | _ =>
      0 ≤ operand ∧ operand ≤ 7 ∧ ∀ displacement ∈ more, -128 ≤ displacement ∧ displacement ≤ 255

/-- Bits 3 to 5 of a byte in which they are free take any number up to 7. -/
theorem or_field {last : UInt8} (hfree : last &&& 0x38 = 0) {bit : Nat} (hbit : bit < 8) :
    (last ||| lowByte (8 * bit)) &&& 0xC7 = last &&& 0xC7 ∧
      ((last ||| lowByte (8 * bit)) >>> 3 &&& 7).toNat = bit := by
  have hall : ∀ n : Nat, n < 256 → ∀ bit : Nat, bit < 8 → UInt8.ofNat n &&& 0x38 = 0 →
      (UInt8.ofNat n ||| lowByte (8 * bit)) &&& 0xC7 = UInt8.ofNat n &&& 0xC7 ∧
        ((UInt8.ofNat n ||| lowByte (8 * bit)) >>> 3 &&& 7).toNat = bit := by
    decide +kernel
  have h := hall last.toNat last.toNat_lt bit hbit
  rw [UInt8.ofNat_toNat] at h
  exact h hfree

theorem field_lt (byte : UInt8) : (byte >>> 3 &&& 7).toNat < 8 := by
  rw [UInt8.toNat_and]
  exact Nat.lt_of_le_of_lt Nat.and_le_right (by decide)

/-- A row with a bit number whose last opcode byte has room for it. -/
structure HasBitField (ins : Instruction) : Prop where
  rule : ins.encoding = .bit
  opcode : ∃ front last, ins.opcode = front ++ [last] ∧ last &&& 0x38 = 0
  arity : ins.arity = 1 ∨ ins.arity = 2

/-- The row of the restarts. -/
structure IsRestart (ins : Instruction) : Prop where
  rule : ins.encoding = .restart
  opcode : ins.opcode = [0xC7]
  arity : ins.arity = 1

theorem encode_bit (hrule : ins.encoding = .bit) {bit : Int} {more : List Int}
    (hargs : (bit :: more).length = ins.arity) :
    ins.encode (bit :: more) address = ins.encodeBit bit more := by
  unfold encode
  rw [if_neg (not_not_intro hargs), hrule]

/-- What a bit number and at most a displacement come to. -/
theorem encodeBit_eq_ok_iff {bit : Int} {more : List Int} (hmore : more.length ≤ 1) :
    ins.encodeBit bit more = .ok code ↔
      (0 ≤ bit ∧ bit ≤ 7) ∧ (∀ displacement ∈ more, -128 ≤ displacement ∧ displacement ≤ 255) ∧
      code = ins.opcode.dropLast ++ more.map lowByte ++
        [ins.opcode.getLast?.getD 0 ||| lowByte (8 * bit)] := by
  unfold encodeBit
  by_cases hbit : 0 ≤ bit ∧ bit ≤ 7
  swap
  · rw [if_neg hbit]
    exact ⟨fun h => (by cases h), fun h => absurd h.1 hbit⟩
  rw [if_pos hbit]
  cases more with
  | nil => exact ⟨fun h => ⟨hbit, by simp, (Except.ok.inj h).symm⟩, fun h => congrArg _ h.2.2.symm⟩
  | cons displacement more =>
    obtain rfl : more = [] :=
      List.length_eq_zero_iff.1 (Nat.le_zero.1 (Nat.le_of_succ_le_succ hmore))
    dsimp only
    rw [fit_byte, List.forall_mem_singleton]
    by_cases hrange : -128 ≤ displacement ∧ displacement ≤ 255
    · rw [if_pos hrange]
      exact ⟨fun h => ⟨hbit, hrange, (Except.ok.inj h).symm⟩, fun h => congrArg _ h.2.2.symm⟩
    · rw [if_neg hrange]
      exact ⟨fun h => (by cases h), fun h => absurd h.2.1 hrange⟩

namespace HasBitField

variable (h : ins.HasBitField)
include h

/-- With the right number of operands there is a bit number and at most a displacement. -/
theorem exists_args (hargs : args.length = ins.arity) :
    ∃ bit more, args = bit :: more ∧ more.length ≤ 1 := by
  have harity := h.arity
  cases args with
  | nil =>
    rw [List.length_nil] at hargs
    omega
  | cons bit more =>
    rw [List.length_cons] at hargs
    exact ⟨bit, more, rfl, by omega⟩

theorem exists_encode_iff :
    (∃ code, ins.encode args address = .ok code) ↔ ins.TakesFolded args := by
  rw [TakesFolded, h.rule]
  constructor
  · rintro ⟨code, hcode⟩
    have hargs := length_eq_arity_of_encode hcode
    obtain ⟨bit, more, rfl, hmore⟩ := h.exists_args hargs
    rw [encode_bit h.rule hargs, encodeBit_eq_ok_iff hmore] at hcode
    exact ⟨hargs, bit, more, rfl, hcode.1.1, hcode.1.2, hcode.2.1⟩
  · rintro ⟨hargs, bit, more, rfl, hmin, hmax, hrange⟩
    obtain ⟨_, _, heq, hmore⟩ := h.exists_args hargs
    cases heq
    rw [encode_bit h.rule hargs]
    exact ⟨_, (encodeBit_eq_ok_iff hmore).2 ⟨⟨hmin, hmax⟩, hrange, rfl⟩⟩

/-- A bit number that is taken leaves the instruction as it is. -/
theorem keepsOpcode (hcode : ins.encode args address = .ok code) : ins.KeepsOpcode args code := by
  obtain ⟨front, last, hopcode, hfree⟩ := h.opcode
  have hargs := length_eq_arity_of_encode hcode
  obtain ⟨bit, more, rfl, hmore⟩ := h.exists_args hargs
  rw [encode_bit h.rule hargs, encodeBit_eq_ok_iff hmore, hopcode] at hcode
  obtain ⟨hbit, -, rfl⟩ := hcode
  obtain ⟨n, rfl⟩ := Int.eq_ofNat_of_zero_le hbit.1
  have hn : n < 8 := by omega
  obtain ⟨hkept, hfield⟩ := or_field hfree hn
  refine ⟨n, more, front, last, more.map lowByte, last ||| lowByte (8 * n), rfl, hopcode, ?_,
    List.length_map .., hkept, ?_⟩
  · simp
  · rw [h.rule, hfield]
    rfl

end HasBitField

namespace IsRestart

variable (h : ins.IsRestart)
include h

theorem encode_eq (vector : Int) : ins.encode [vector] address = fit (199 + vector) 1 := by
  have hargs : [vector].length = ins.arity := h.arity.symm
  unfold encode
  rw [if_neg (not_not_intro hargs), h.rule, h.opcode]
  rfl

theorem exists_encode_iff :
    (∃ code, ins.encode args address = .ok code) ↔ ins.TakesFolded args := by
  rw [TakesFolded, h.rule]
  constructor
  · rintro ⟨code, hcode⟩
    have hargs := length_eq_arity_of_encode hcode
    obtain ⟨vector, rfl⟩ := List.length_eq_one_iff.1 (hargs.trans h.arity)
    rw [h.encode_eq] at hcode
    have hrange := (of_fit_byte hcode).1
    exact ⟨hargs, vector, [], rfl, by omega⟩
  · rintro ⟨hargs, vector, more, rfl, hrange⟩
    obtain rfl : more = [] := by simpa [h.arity] using hargs
    rw [h.encode_eq]
    exact exists_fit_byte_iff.2 (by omega)

/-- Only the eight vectors of the processor leave the instruction as it is. -/
theorem keepsOpcode_iff (hcode : ins.encode args address = .ok code) :
    ins.KeepsOpcode args code ↔ ∃ n : Nat, n < 8 ∧ args = [8 * (n : Int)] := by
  have hargs := length_eq_arity_of_encode hcode
  obtain ⟨vector, rfl⟩ := List.length_eq_one_iff.1 (hargs.trans h.arity)
  rw [h.encode_eq] at hcode
  obtain ⟨-, rfl⟩ := of_fit_byte hcode
  constructor
  · rintro ⟨operand, more, front, last, inserted, byte, heq, -, -, -, -, hfield⟩
    rw [h.rule] at hfield
    cases heq
    exact ⟨_, field_lt byte, congrArg (fun v => [v]) hfield.symm⟩
  · rintro ⟨n, hn, heq⟩
    cases heq
    have hall : ∀ n : Nat, n < 8 → lowByte (199 + 8 * n) &&& 0xC7 = 0xC7 &&& 0xC7 ∧
        (lowByte (199 + 8 * n) >>> 3 &&& 7).toNat = n := by
      decide
    obtain ⟨hkept, hfield⟩ := hall n hn
    refine ⟨_, [], [], 0xC7, [], lowByte (199 + 8 * n), rfl, h.opcode, rfl, rfl, hkept, ?_⟩
    rw [h.rule, hfield]
    rfl

end IsRestart

/-! ## Displacements -/

/-- How an operand with a displacement goes on behind its bracket. -/
def indexOperands : List Text :=
  [['I', 'X', '+', '*', ')'], ['I', 'Y', '+', '*', ')']]

/-- The number of expressions in front of the first displacement, and of the `seen` ones in front of
the text. -/
def countToDisplacement (seen : Nat) : Text → Option Nat
  | [] => none
  | c :: rest =>
    if c = '(' ∧ rest.take 5 ∈ indexOperands then some seen
    else countToDisplacement (if c = '*' then seen + 1 else seen) rest

/-- The place of the displacement among the operands of a row. -/
def displacementPlace (ins : Instruction) : Option Nat :=
  countToDisplacement 0 ins.operands

/-- The layouts with a displacement: behind an opcode of two bytes, with or without an immediate
after it, or in front of the last of three opcode bytes, with or without a bit number in that. -/
inductive DisplacementLayout (ins : Instruction) : Nat → Prop
  | last (hrule : ins.encoding = .indexed) (hopcode : ins.opcode.length = 2) (hsize : ins.size = 3)
    (harity : ins.arity = 1) : DisplacementLayout ins 0
  | immediate (hrule : ins.encoding = .indexed) (hopcode : ins.opcode.length = 2)
    (harity : ins.arity = 2) : DisplacementLayout ins 0
  | inner (hrule : ins.encoding = .indexed) (hopcode : ins.opcode.length = 3) (hsize : ins.size = 4)
    (harity : ins.arity = 1) : DisplacementLayout ins 0
  | bit (hrule : ins.encoding = .bit) (hopcode : ins.opcode.length = 3)
    (harity : ins.arity = 2) : DisplacementLayout ins 1

/-- A displacement as the third byte of the code. -/
structure Displaced (ins : Instruction) (args : List Int) (place : Nat) (code : List UInt8)
    (displacement : Int) : Prop where
  operand : args[place]? = some displacement
  range : -128 ≤ displacement ∧ displacement ≤ 255
  code : ∃ rest, code = ins.opcode.take 2 ++ lowByte displacement :: rest

theorem encode_indexed (hrule : ins.encoding = .indexed) (hargs : args.length = ins.arity) :
    ins.encode args address = ins.encodeIndexed args := by
  unfold encode
  rw [if_neg (not_not_intro hargs), hrule]

/-- In every layout the displacement is the third byte. -/
theorem DisplacementLayout.displaced {place : Nat} (h : ins.DisplacementLayout place)
    (hcode : ins.encode args address = .ok code) :
    ∃ displacement, ins.Displaced args place code displacement := by
  have hargs := length_eq_arity_of_encode hcode
  cases h with
  | last hrule hopcode hsize harity =>
    obtain ⟨displacement, rfl⟩ := List.length_eq_one_iff.1 (hargs.trans harity)
    have hwidth : max ins.trailing 1 = 1 := by
      rw [trailing, hsize, hopcode]
      rfl
    rw [encode_indexed hrule hargs, encodeIndexed, if_neg (by omega), hwidth] at hcode
    obtain ⟨bytes, hbytes, heq⟩ := exists_of_bind_eq_ok hcode
    cases heq
    obtain ⟨hrange, rfl⟩ := of_fit_byte hbytes
    exact ⟨displacement, rfl, hrange, [], by rw [List.take_of_length_le (Nat.le_of_eq hopcode)]⟩
  | immediate hrule hopcode harity =>
    obtain ⟨displacement, value, rfl⟩ := List.length_eq_two.1 (hargs.trans harity)
    rw [encode_indexed hrule hargs] at hcode
    obtain ⟨bytes, hbytes, hcode⟩ := exists_of_bind_eq_ok hcode
    obtain ⟨immediate, -, heq⟩ := exists_of_bind_eq_ok hcode
    cases heq
    obtain ⟨hrange, rfl⟩ := of_fit_byte hbytes
    refine ⟨displacement, rfl, hrange, immediate, ?_⟩
    rw [List.take_of_length_le (Nat.le_of_eq hopcode), List.append_assoc]
    rfl
  | inner hrule hopcode hsize harity =>
    obtain ⟨displacement, rfl⟩ := List.length_eq_one_iff.1 (hargs.trans harity)
    rw [encode_indexed hrule hargs, encodeIndexed, if_pos ⟨hopcode, hsize⟩] at hcode
    obtain ⟨bytes, hbytes, heq⟩ := exists_of_bind_eq_ok hcode
    cases heq
    obtain ⟨hrange, rfl⟩ := of_fit_byte hbytes
    refine ⟨displacement, rfl, hrange, ins.opcode.getLast?.toList, ?_⟩
    rw [List.dropLast_eq_take, hopcode, List.append_assoc]
    rfl
  | bit hrule hopcode harity =>
    obtain ⟨bit, displacement, rfl⟩ := List.length_eq_two.1 (hargs.trans harity)
    rw [encode_bit hrule hargs, encodeBit_eq_ok_iff (Nat.le_refl _)] at hcode
    obtain ⟨-, hrange, rfl⟩ := hcode
    refine ⟨displacement, rfl, hrange displacement List.mem_cons_self,
      [ins.opcode.getLast?.getD 0 ||| lowByte (8 * bit)], ?_⟩
    rw [List.dropLast_eq_take, hopcode, List.append_assoc]
    rfl

/-- A byte is read as a signed number. -/
theorem toInt_toInt8_lowByte (n : Int) : (lowByte n).toInt8.toInt = n.bmod 256 := by
  show (lowByte n).toBitVec.toInt = n.bmod 256
  rw [BitVec.toInt_eq_toNat_bmod, UInt8.toNat_toBitVec, toNat_lowByte]
  exact Int.emod_bmod n 256

theorem bmod_eq_self_iff {n : Int} (h : -128 ≤ n ∧ n ≤ 255) : n.bmod 256 = n ↔ n ≤ 127 := by
  rw [Int.bmod_def]
  split <;> omega

end Instruction

/-! ## The table -/

namespace Z80

variable {row : Instruction}

theorem hasBitField_of_mem_rows (hrow : row ∈ rows) (hrule : row.encoding = .bit) :
    row.HasBitField := by
  have hall : ∀ ins ∈ rows, ins.encoding = .bit → ins.opcode ≠ [] ∧
      ins.opcode.getLast?.getD 0 &&& 0x38 = 0 ∧ (ins.arity = 1 ∨ ins.arity = 2) := by
    decide +kernel
  obtain ⟨hne, hfree, harity⟩ := hall row hrow hrule
  rw [List.getLast?_eq_some_getLast hne] at hfree
  exact ⟨hrule, ⟨_, _, (List.dropLast_append_getLast hne).symm, hfree⟩, harity⟩

theorem isRestart_of_mem_rows (hrow : row ∈ rows) (hrule : row.encoding = .restart) :
    row.IsRestart := by
  have hall : ∀ ins ∈ rows, ins.encoding = .restart → ins.opcode = [0xC7] ∧ ins.arity = 1 := by
    decide +kernel
  obtain ⟨hopcode, harity⟩ := hall row hrow hrule
  exact ⟨hrule, hopcode, harity⟩

/-- Every row with an operand that is taken from an index register has one of the four layouts. -/
theorem displacementLayout_of_mem_rows (hrow : row ∈ rows) {place : Nat}
    (hplace : row.displacementPlace = some place) : row.DisplacementLayout place := by
  have hall : ∀ ins ∈ rows, ∀ place ∈ ins.displacementPlace,
      (place = 0 ∧ ins.encoding = .indexed ∧
        (ins.opcode.length = 2 ∧ ins.size = 3 ∧ ins.arity = 1 ∨
          ins.opcode.length = 2 ∧ ins.arity = 2 ∨
          ins.opcode.length = 3 ∧ ins.size = 4 ∧ ins.arity = 1)) ∨
      (place = 1 ∧ ins.encoding = .bit ∧ ins.opcode.length = 3 ∧ ins.arity = 2) := by
    decide +kernel
  rcases hall row hrow place hplace with ⟨rfl, hrule, h | h | h⟩ | ⟨rfl, hrule, hopcode, harity⟩
  · exact .last hrule h.1 h.2.1 h.2.2
  · exact .immediate hrule h.1 h.2
  · exact .inner hrule h.1 h.2.1 h.2.2
  · exact .bit hrule hopcode harity

/-- **Bit numbers never change the instruction, restart vectors only if they are none of the
eight.**  A row with a bit number has code for the numbers 0 to 7, and for displacements of one
byte; the row of the restarts has code for the vectors from -327 to 56.  The code is the opcode
except for bits 3 to 5 of the last opcode byte, which hold the bit number or the eighth part of the
vector, and for the displacement in front of that byte.  For a restart this is so exactly if the
vector is one of 0, 8 and so on up to 56. -/
theorem folded_operand_kept_iff (hrow : row ∈ rows)
    (hrule : row.encoding = .bit ∨ row.encoding = .restart) (args : List Int) (address : Int) :
    ((∃ code, row.encode args address = .ok code) ↔ row.TakesFolded args) ∧
    ∀ code, row.encode args address = .ok code →
      (row.KeepsOpcode args code ↔
        (row.encoding = .restart → ∃ n : Nat, n < 8 ∧ args = [8 * (n : Int)])) := by
  rcases hrule with hrule | hrule
  · have hfield := hasBitField_of_mem_rows hrow hrule
    refine ⟨hfield.exists_encode_iff, fun code hcode => ?_⟩
    rw [hrule]
    exact ⟨fun _ hrestart => (by cases hrestart), fun _ => hfield.keepsOpcode hcode⟩
  · have hrestart := isRestart_of_mem_rows hrow hrule
    refine ⟨hrestart.exists_encode_iff, fun code hcode => ?_⟩
    rw [hrestart.keepsOpcode_iff hcode]
    exact ⟨fun h _ => h, fun h => h hrule⟩

/-- A bit number with a displacement. -/
def setBitIndexed : Instruction :=
  form "SET" "*,(IY+*)" [0xFD, 0xCB, 0xC6] 4 .bit

/-- The restarts. -/
def restart : Instruction :=
  form "RST" "*" [0xC7] 1 .restart

theorem mem_rows_of_mem_jumps (h : row ∈ jumps) : row ∈ rows := by
  simp only [rows, List.mem_append, h, true_or, or_true]

theorem restart_mem_rows : restart ∈ rows :=
  mem_rows_of_mem_jumps (by decide +kernel)

theorem setBitIndexed_mem_rows : setBitIndexed ∈ rows := by
  have hbits : setBitIndexed ∈ bits := by decide +kernel
  simp only [rows, List.mem_append, hbits, true_or, or_true]

theorem encode_restart {vector : Int} (h : -327 ≤ vector ∧ vector ≤ 56) :
    restart.encode [vector] 0 = .ok [lowByte (199 + vector)] := by
  rw [(isRestart_of_mem_rows restart_mem_rows rfl).encode_eq, Instruction.fit_byte,
    if_pos (by omega)]

theorem folded_operand_kept_iff_lastOfEach :
    (setBitIndexed ∈ rows ∧ setBitIndexed.encode [7, -2] 0 = .ok [0xFD, 0xCB, 0xFE, 0xFE] ∧
      setBitIndexed.KeepsOpcode [7, -2] [0xFD, 0xCB, 0xFE, 0xFE]) ∧
    (restart ∈ rows ∧ restart.encode [56] 0 = .ok [0xFF] ∧ restart.KeepsOpcode [56] [0xFF]) := by
  have hset := setBitIndexed_mem_rows
  have hcode : restart.encode [56] 0 = .ok [0xFF] := encode_restart (by decide)
  refine ⟨⟨hset, rfl, ?_⟩, restart_mem_rows, hcode, ?_⟩
  · exact ((folded_operand_kept_iff hset (.inl rfl) [7, -2] 0).2 _ rfl).2 (by decide)
  · exact ((folded_operand_kept_iff restart_mem_rows (.inr rfl) [56] 0).2 _ hcode).2
      fun _ => ⟨7, by decide, rfl⟩

/-- The restart with the vector 1 is encoded as another instruction, a conditional return. -/
theorem restart_not_kept_oddVector :
    restart ∈ rows ∧ restart.encoding = .restart ∧ restart.encode [1] 0 = .ok [0xC8] ∧
      form "RET" "Z" [0xC8] 1 .plain ∈ rows ∧ ¬ restart.KeepsOpcode [1] [0xC8] := by
  refine ⟨restart_mem_rows, rfl, encode_restart (by decide),
    mem_rows_of_mem_jumps (by decide +kernel), ?_⟩
  rintro ⟨operand, more, front, last, inserted, byte, heq, -, -, -, -, hfield⟩
  cases heq
  have hfield : 8 * ((byte >>> 3 &&& 7).toNat : Int) = 1 := hfield
  omega

/-- **Displacements mean what was written as long as they are signed bytes.**  Whenever a row with
an operand that is taken from an index register is encoded, the third byte of the code is the
displacement, in all four layouts, and the displacement is in the signed or in the unsigned range of
a byte.  The processor reads the byte as a signed number.  This is the displacement modulo 256, and
it is the displacement itself exactly if that is at most 127. -/
theorem displacement_read_back_iff (hrow : row ∈ rows) {place : Nat}
    (hplace : row.displacementPlace = some place) {args : List Int} {address : Int}
    {code : List UInt8} (hcode : row.encode args address = .ok code) :
    ∃ displacement byte rest, args[place]? = some displacement ∧
      code = row.opcode.take 2 ++ byte :: rest ∧
      (-128 ≤ displacement ∧ displacement ≤ 255) ∧
      byte.toInt8.toInt = displacement.bmod 256 ∧
      (byte.toInt8.toInt = displacement ↔ displacement ≤ 127) := by
  obtain ⟨displacement, hoperand, hrange, rest, heq⟩ :=
    (displacementLayout_of_mem_rows hrow hplace).displaced hcode
  have hbyte := Instruction.toInt_toInt8_lowByte displacement
  refine ⟨displacement, lowByte displacement, rest, hoperand, heq, hrange, hbyte, ?_⟩
  rw [hbyte]
  exact Instruction.bmod_eq_self_iff hrange

/-- A load from a displacement. -/
def loadIndexed : Instruction :=
  form "LD" "A,(IX+*)" [0xDD, 0x7E] 3 .indexed

/-- The lowest displacement, in front of the last byte of an opcode. -/
theorem displacement_read_back_iff_lowest :
    setBitIndexed ∈ rows ∧ setBitIndexed.displacementPlace = some 1 ∧
    setBitIndexed.encode [3, -128] 0 = .ok [0xFD, 0xCB, 0x80, 0xDE] ∧
    ∃ displacement byte rest, [3, -128][1]? = some displacement ∧
      [0xFD, 0xCB, 0x80, 0xDE] = setBitIndexed.opcode.take 2 ++ byte :: rest ∧
      (-128 ≤ displacement ∧ displacement ≤ 255) ∧
      byte.toInt8.toInt = displacement.bmod 256 ∧
      (byte.toInt8.toInt = displacement ↔ displacement ≤ 127) := by
  have hset := setBitIndexed_mem_rows
  have hplace : setBitIndexed.displacementPlace = some 1 := by decide
  have hcode : setBitIndexed.encode [3, -128] 0 = .ok [0xFD, 0xCB, 0x80, 0xDE] := rfl
  exact ⟨hset, hplace, hcode, displacement_read_back_iff hset hplace hcode⟩

/-- The displacement 200 is encoded, and the processor goes 56 bytes down instead. -/
theorem displacement_not_read_back_unsigned :
    loadIndexed ∈ rows ∧ loadIndexed.displacementPlace = some 0 ∧
    loadIndexed.encode [200] 0 = .ok [0xDD, 0x7E, 0xC8] ∧
    (0xC8 : UInt8).toInt8.toInt = -56 ∧ (0xC8 : UInt8).toInt8.toInt ≠ 200 := by
  have hloads : loadIndexed ∈ loads := by decide +kernel
  refine ⟨?_, by decide, rfl, by decide, by decide⟩
  simp only [rows, List.mem_append, hloads, true_or, or_true]

end Z80

end MacroAssembler
