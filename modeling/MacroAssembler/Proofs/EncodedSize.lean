import MacroAssembler.Instruction.TableText

/-!
# The size of a row and the size of its code

A row of the instruction table states its size, and the labels passes count with that number.  The
assembling pass puts out the bytes that the rule of the row makes of the operands.  How many these
are depends on the row alone: on its rule, on its opcode, on the number of its operands, and for
some rules on the stated size.  It never depends on the operands or on the address.

Reading a table refuses rows that lack an operand which their rule takes, and rows with more than
four bytes behind the opcode.  So an operand is never missing.  But it does not compare the stated
size with what the rule puts out.  A row may claim too little for its rule, such as a relative
branch without a byte for the distance, or too much, such as bytes behind an opcode that takes no
operand.  `Instruction.Sized` says which rows state the size that their code has.
-/

namespace MacroAssembler

namespace Instruction

/-! ## The length of the code -/

/-- What encoding can come to: so many bytes, or a number that does not fit its place. -/
inductive Encodes (count : Nat) : Except EncodeError (List UInt8) → Prop
  | bytes {bytes : List UInt8} (h : bytes.length = count) : Encodes count (.ok bytes)
  | outOfRange (value min max : Int) : Encodes count (.error (.outOfRange value min max))
  | branchRange (offset : Int) : Encodes count (.error (.branchRange offset))
  | bitIndex (bit : Int) : Encodes count (.error (.bitIndex bit))

namespace Encodes

variable {count count' : Nat} {result : Except EncodeError (List UInt8)}

theorem bind {f : List UInt8 → Except EncodeError (List UInt8)} (h : Encodes count result)
    (hf : ∀ bytes : List UInt8, bytes.length = count → Encodes count' (f bytes)) :
    Encodes count' (result >>= f) := by
  cases h with
  | bytes h => exact hf _ h
  | outOfRange value min max => exact .outOfRange value min max
  | branchRange offset => exact .branchRange offset
  | bitIndex bit => exact .bitIndex bit

theorem length_eq (h : Encodes count result) {bytes : List UInt8} (hok : result = .ok bytes) :
    bytes.length = count := by
  cases h with
  | bytes h =>
    cases hok
    exact h
  | _ => cases hok

/-- No operand is missing, and there is none too many. -/
theorem ne_arguments (h : Encodes count result) (expected found : Nat) :
    result ≠ .error (.arguments expected found) := by
  rintro rfl
  cases h

end Encodes

theorem length_leBytes (n : Int) (count : Nat) : (leBytes n count).length = min count 8 := by
  rw [leBytes, List.length_map, List.length_range]

theorem length_mergeLast (opcode : List UInt8) (bits : UInt8) :
    (mergeLast opcode bits).length = opcode.length := by
  unfold mergeLast
  split
  next last hlast =>
    have hne : opcode ≠ [] := by
      rintro rfl
      cases hlast
    rw [List.length_append, List.length_dropLast, List.length_singleton]
    exact Nat.sub_add_cancel (List.length_pos_iff.2 hne)
  next hnone => rw [List.getLast?_eq_none_iff.1 hnone]

/-- Bytes in front of the last byte of an opcode. -/
theorem length_insertBeforeLast {opcode inserted last : List UInt8} (hopcode : opcode ≠ [])
    (hlast : last.length = 1) :
    (opcode.dropLast ++ inserted ++ last).length = opcode.length + inserted.length := by
  have hpos : 0 < opcode.length := List.length_pos_iff.2 hopcode
  rw [List.length_append, List.length_append, List.length_dropLast, hlast]
  omega

/-- A number takes up the whole of its place, which is never wider than eight bytes. -/
theorem fit_encodes (value : Int) (count : Nat) : Encodes (min count 8) (fit value count) := by
  unfold fit
  dsimp only
  split
  · exact .bytes (length_leBytes value count)
  · exact .outOfRange _ _ _

/-- The number of bytes that the rule of a row makes of its operands. -/
def codeLength (ins : Instruction) : Nat :=
  match ins.encoding with
  | .plain | .swapped =>
    if ins.arity = 0 then ins.opcode.length else ins.opcode.length + min ins.trailing 8
  | .relative8 => ins.opcode.length + 1
  | .relative16 => ins.opcode.length + 2
  | .indexed =>
    match ins.arity with
    | 1 => ins.opcode.length + min (max ins.trailing 1) 8
    | 2 => ins.opcode.length + 2
    | _ => ins.opcode.length
  | .bit => if ins.arity = 1 then ins.opcode.length else ins.opcode.length + 1
  | .restart => 1

section Rules

variable (ins : Instruction)

theorem encodePlain_encodes (value : Int) :
    Encodes (ins.opcode.length + min ins.trailing 8) (ins.encodePlain value) := by
  unfold encodePlain
  split
  next hroom =>
    rw [hroom]
    split
    next hempty => exact .bytes (by rw [List.isEmpty_iff.1 hempty]; rfl)
    next =>
      refine (fit_encodes value 1).bind fun bits _ => ?_
      exact .bytes (length_mergeLast _ _)
  next =>
    refine (fit_encodes value ins.trailing).bind fun operand hoperand => ?_
    exact .bytes (by rw [List.length_append, hoperand])

theorem encodeRelative_encodes (count : Nat) (target address : Int) :
    Encodes (ins.opcode.length + min count 8) (ins.encodeRelative count target address) := by
  unfold encodeRelative
  dsimp only
  split
  · exact .bytes (by rw [List.length_append, length_leBytes])
  · exact .branchRange _

variable {ins}

theorem encodeIndexed_encodes (hopcode : ins.opcode ≠ []) (args : List Int) :
    Encodes (match args.length with
      | 1 => ins.opcode.length + min (max ins.trailing 1) 8
      | 2 => ins.opcode.length + 2
      | _ => ins.opcode.length) (ins.encodeIndexed args) := by
  match args with
  | [] => exact .bytes rfl
  | [displacement] =>
    simp only [encodeIndexed]
    by_cases hform : ins.opcode.length = 3 ∧ ins.size = 4
    · have hroom : ins.trailing = 1 := by rw [trailing, hform.1, hform.2]
      have hlast : ins.opcode.getLast?.toList.length = 1 := by
        rw [List.getLast?_eq_some_getLast hopcode]
        rfl
      rw [if_pos hform]
      refine (fit_encodes displacement 1).bind fun bytes hbytes => .bytes ?_
      rw [length_insertBeforeLast hopcode hlast, hbytes, hroom]
      rfl
    · rw [if_neg hform]
      refine (fit_encodes displacement _).bind fun bytes hbytes => .bytes ?_
      rw [List.length_append, hbytes]
      rfl
  | [displacement, value] =>
    refine (fit_encodes displacement 1).bind fun first hfirst => ?_
    refine (fit_encodes value 1).bind fun second hsecond => .bytes ?_
    rw [List.length_append, List.length_append, hfirst, hsecond]
    rfl
  | _ :: _ :: _ :: _ => exact .bytes rfl

theorem encodeBit_encodes (hopcode : ins.opcode ≠ []) (bit : Int) (more : List Int) :
    Encodes (if more.length = 0 then ins.opcode.length else ins.opcode.length + 1)
      (ins.encodeBit bit more) := by
  unfold encodeBit
  by_cases hbit : 0 ≤ bit ∧ bit ≤ 7
  · rw [if_pos hbit]
    cases more with
    | nil => exact .bytes (length_insertBeforeLast hopcode rfl)
    | cons d rest =>
      refine (fit_encodes d 1).bind fun bytes hbytes => .bytes ?_
      rw [length_insertBeforeLast hopcode rfl, hbytes]
      rfl
  · rw [if_neg hbit]
    exact .bitIndex _

end Rules

/-- What the reading of a table has checked of a row. -/
structure Accepted (ins : Instruction) : Prop where
  opcode_ne_nil : ins.opcode ≠ []
  opcode_le_size : ins.opcode.length ≤ ins.size
  problem_eq_none : RowText.problem ins = none

namespace Accepted

variable {ins : Instruction} (h : ins.Accepted)
include h

/-- A row whose rule takes an operand has one. -/
theorem arity_ne_zero (hrule : ins.encoding.takesOperand = true) : ins.arity ≠ 0 := by
  intro harity
  have hproblem := h.problem_eq_none
  rw [RowText.problem, hrule, harity] at hproblem
  cases hproblem

theorem trailing_le : ins.trailing ≤ 4 := by
  have hproblem := h.problem_eq_none
  rw [RowText.problem] at hproblem
  split at hproblem
  · cases hproblem
  · split at hproblem
    · cases hproblem
    next hfour => exact Nat.le_of_not_lt hfour

/-- **Encoding with the right number of operands** comes to as many bytes as the row determines, or
fails for the value of an operand. -/
theorem encodes {args : List Int} (hargs : args.length = ins.arity) (address : Int) :
    Encodes ins.codeLength (ins.encode args address) := by
  have hne : ins.encoding.takesOperand = true → args ≠ [] := by
    rintro hrule rfl
    exact h.arity_ne_zero hrule hargs.symm
  unfold encode codeLength
  rw [if_neg (not_not_intro hargs), ← hargs]
  cases hrule : ins.encoding with
  | plain =>
    cases args with
    | nil => exact .bytes rfl
    | cons arg rest => exact ins.encodePlain_encodes _
  | swapped =>
    cases args with
    | nil => exact .bytes rfl
    | cons arg rest => exact ins.encodePlain_encodes _
  | indexed => exact encodeIndexed_encodes h.opcode_ne_nil args
  | relative8 =>
    obtain ⟨target, rest, rfl⟩ := List.exists_cons_of_ne_nil (hne (by rw [hrule]; rfl))
    exact ins.encodeRelative_encodes 1 target address
  | relative16 =>
    obtain ⟨target, rest, rfl⟩ := List.exists_cons_of_ne_nil (hne (by rw [hrule]; rfl))
    exact ins.encodeRelative_encodes 2 target address
  | bit =>
    obtain ⟨bit, more, rfl⟩ := List.exists_cons_of_ne_nil (hne (by rw [hrule]; rfl))
    have hbit := encodeBit_encodes h.opcode_ne_nil bit more
    simp only [List.length_cons, Nat.add_eq_right]
    exact hbit
  | restart =>
    obtain ⟨vector, rest, rfl⟩ := List.exists_cons_of_ne_nil (hne (by rw [hrule]; rfl))
    exact fit_encodes _ 1

/-- The code of a row has its length, whatever the operands are. -/
theorem length_of_encode {args : List Int} {address : Int} {bytes : List UInt8}
    (hencode : ins.encode args address = .ok bytes) : bytes.length = ins.codeLength := by
  by_cases hargs : args.length = ins.arity
  · exact (h.encodes hargs address).length_eq hencode
  · unfold encode at hencode
    rw [if_pos hargs] at hencode
    cases hencode

end Accepted

/-- Whether a row states the size that its code has.  Behind the opcode there must be room for what
the rule puts there, and no more; a restart vector is added to an opcode of one byte. -/
def Sized (ins : Instruction) : Prop :=
  match ins.encoding with
  | .plain | .swapped => ins.arity = 0 → ins.trailing = 0
  | .relative8 => ins.trailing = 1
  | .relative16 => ins.trailing = 2
  | .indexed =>
    match ins.arity with
    | 1 => ins.trailing ≠ 0
    | 2 => ins.trailing = 2
    | _ => ins.trailing = 0
  | .bit => if ins.arity = 1 then ins.trailing = 0 else ins.trailing = 1
  | .restart => ins.size = 1

/-- The code of a row that was read from a table is as long as the row states exactly if the row
is `Sized`. -/
theorem Accepted.codeLength_eq_size_iff {ins : Instruction} (h : ins.Accepted) :
    ins.codeLength = ins.size ↔ ins.Sized := by
  have hsize : ins.size = ins.opcode.length + ins.trailing :=
    (Nat.add_sub_cancel' h.opcode_le_size).symm
  have hfour := h.trailing_le
  unfold codeLength Sized
  cases ins.encoding with
  | plain => dsimp only; split <;> omega
  | swapped => dsimp only; split <;> omega
  | relative8 => dsimp only; omega
  | relative16 => dsimp only; omega
  | indexed => dsimp only; split <;> omega
  | bit => dsimp only; split <;> omega
  | restart => exact eq_comm

end Instruction

/-! ## Reading a table -/

/-- A computation in two parts succeeds only if both do. -/
theorem exists_of_bind_eq_ok {ε α β : Type} {x : Except ε α} {f : α → Except ε β} {b : β}
    (h : (x >>= f) = .ok b) : ∃ a, x = .ok a ∧ f a = .ok b := by
  cases x with
  | error e => cases h
  | ok a => exact ⟨a, rfl, h⟩

/-- Every result of a list of computations is the result of one of them. -/
theorem exists_of_mem_mapM {ε α β : Type} {f : α → Except ε β} {xs : List α} {ys : List β}
    (h : xs.mapM f = .ok ys) {y : β} (hy : y ∈ ys) : ∃ x ∈ xs, f x = .ok y := by
  induction xs generalizing ys with
  | nil =>
    rw [List.mapM_nil] at h
    cases h
    cases hy
  | cons x xs ih =>
    rw [List.mapM_cons] at h
    obtain ⟨first, hfirst, h⟩ := exists_of_bind_eq_ok h
    obtain ⟨rest, hrest, h⟩ := exists_of_bind_eq_ok h
    cases h
    rcases List.mem_cons.1 hy with rfl | hy
    · exact ⟨x, List.mem_cons_self, hfirst⟩
    · obtain ⟨x', hx', hy'⟩ := ih hrest hy
      exact ⟨x', List.mem_cons_of_mem _ hx', hy'⟩

namespace RowText

/-- The opcode of a row has at least one byte. -/
theorem hexBytes_ne_nil_of_readOpcode {text field rest : Text}
    (h : readOpcode text = some (field, rest)) : hexBytes field ≠ [] := by
  simp only [readOpcode, Option.ite_none_left_eq_some, Option.some.injEq, Prod.mk.injEq] at h
  obtain ⟨hne, rfl, -⟩ := h
  have hpairs : (hexPairs text).1 = [] ∨ ∃ a b pairs, (hexPairs text).1 = a :: b :: pairs := by
    fun_cases hexPairs text with
    | case1 a b rest hdigits pairs _ _ => exact .inr ⟨a, b, pairs, rfl⟩
    | case2 => exact .inl rfl
    | case3 => exact .inl rfl
  rcases hpairs with hnil | ⟨a, b, pairs, heq⟩
  · rw [hnil] at hne
    exact absurd rfl hne
  · rw [heq]
    exact List.cons_ne_nil _ _

theorem hexBytes_ne_nil_of_read {text rest : Text} {row : RowText}
    (h : read text = some (row, rest)) : hexBytes row.opcode ≠ [] := by
  simp only [read, Option.bind_eq_bind, Option.bind_eq_some_iff] at h
  obtain ⟨⟨_, r₁⟩, -, ⟨_, r₂⟩, -, ⟨opcode, r₃⟩, hopcode, ⟨_, r₄⟩, -, ⟨_, r₅⟩, -, h⟩ := h
  have hne := hexBytes_ne_nil_of_readOpcode hopcode
  simp only at h
  split at h
  · cases h
    exact hne
  · split at h
    · cases h
      exact hne
    · cases h
      exact hne

/-- A row that passes the check is left as it is. -/
theorem of_check_eq_ok {line : Nat} {ins ins' : Instruction} (h : check line ins = .ok ins') :
    ins' = ins ∧ ins.opcode.length ≤ ins.size ∧ problem ins = none := by
  unfold check at h
  split at h
  · cases h
  next hsize =>
    split at h
    · cases h
    next hproblem =>
      cases h
      exact ⟨rfl, Nat.le_of_not_lt hsize, hproblem⟩

theorem accepted_of_toInstruction {line : Nat} {row : RowText} {ins : Instruction}
    (h : row.toInstruction line = .ok ins) (hopcode : hexBytes row.opcode ≠ []) :
    ins.Accepted := by
  unfold toInstruction at h
  dsimp only at h
  split at h
  · split at h
    · obtain ⟨shift, -, h⟩ := exists_of_bind_eq_ok h
      obtain ⟨mask, -, h⟩ := exists_of_bind_eq_ok h
      obtain ⟨rfl, hsize, hproblem⟩ := of_check_eq_ok h
      exact ⟨hopcode, hsize, hproblem⟩
    · cases h
  · cases h

end RowText

theorem hexBytes_ne_nil_of_readRow {text : Text} {row : RowText}
    (h : (readRow text).1 = some row) : RowText.hexBytes row.opcode ≠ [] := by
  unfold readRow at h
  dsimp only at h
  split at h
  next hread =>
    cases h
    exact RowText.hexBytes_ne_nil_of_read hread
  · cases h

theorem hexBytes_ne_nil_of_readRows {line : Nat} {text : Text} {rows : List (Nat × RowText)}
    (h : readRows line text = .ok rows) :
    ∀ entry ∈ rows, RowText.hexBytes entry.2.opcode ≠ [] := by
  have hfirst : ∀ (line : Nat) (text : Text),
      ∀ entry ∈ ((readRow text).1.map (line, ·)).toList,
        RowText.hexBytes entry.2.opcode ≠ [] := by
    intro line text entry hentry
    obtain ⟨row, hrow, rfl⟩ := Option.map_eq_some_iff.1 (Option.mem_toList.1 hentry)
    exact hexBytes_ne_nil_of_readRow hrow
  -- a line that ends is followed by the rows of the lines below it
  have hline : ∀ {first rows : List (Nat × RowText)} {below : Except TableError _},
      (∀ entry ∈ first, RowText.hexBytes entry.2.opcode ≠ []) →
      (∀ {rest}, below = .ok rest → ∀ entry ∈ rest, RowText.hexBytes entry.2.opcode ≠ []) →
      below.map (first ++ ·) = .ok rows →
      ∀ entry ∈ rows, RowText.hexBytes entry.2.opcode ≠ [] := by
    intro first rows below hfirst hbelow h entry hentry
    cases below with
    | error e => cases h
    | ok rest =>
      cases h
      rcases List.mem_append.1 hentry with hentry | hentry
      · exact hfirst entry hentry
      · exact hbelow rfl entry hentry
  fun_induction readRows line text generalizing rows with
  | case1 line text =>
    cases h
    exact hfirst line text
  | case2 line text =>
    rename_i ih
    exact hline (hfirst line text) ih h
  | case3 line text =>
    rename_i ih
    exact hline (hfirst line text) ih h
  | case4 line text =>
    rename_i ih
    exact hline (hfirst line text) ih h
  | case5 => cases h

namespace InstructionSet

/-- The rows of a table that was read have all been checked. -/
theorem accepted_of_ofText {text : Text} {set : InstructionSet} (h : ofText text = .ok set)
    {ins : Instruction} (hins : ins ∈ set.rows) : ins.Accepted := by
  unfold ofText at h
  cases hrows : rowsOfText text with
  | error e =>
    rw [hrows] at h
    cases h
  | ok rows =>
    rw [hrows] at h
    cases h
    obtain ⟨entries, hentries, hrows⟩ := exists_of_bind_eq_ok hrows
    obtain ⟨entry, hentry, hrow⟩ := exists_of_mem_mapM hrows (List.mem_toArray.1 hins)
    exact RowText.accepted_of_toInstruction hrow (hexBytes_ne_nil_of_readRows hentries entry hentry)

/-- **Tables that can be read have rows that can be encoded, and these state their size if they are
`Sized`.**  Take a row of such a table, as many operands as it has expressions, and an address.
Encoding never misses an operand or finds one too many.  When it succeeds, the number of bytes is
the size of the row, by which the labels passes move on, exactly if the size leaves room for what
the rule of the row puts behind the opcode, and for nothing else. -/
theorem encode_length_eq_size_iff_sized {text : Text} {set : InstructionSet}
    (h : ofText text = .ok set) {ins : Instruction} (hins : ins ∈ set.rows) {args : List Int}
    (hargs : args.length = ins.arity) (address : Int) :
    (∀ expected found, ins.encode args address ≠ .error (.arguments expected found)) ∧
    ∀ bytes, ins.encode args address = .ok bytes → (bytes.length = ins.size ↔ ins.Sized) := by
  have haccepted := accepted_of_ofText h hins
  have hencodes := haccepted.encodes hargs address
  refine ⟨hencodes.ne_arguments, fun bytes hbytes => ?_⟩
  rw [hencodes.length_eq hbytes]
  exact haccepted.codeLength_eq_size_iff

theorem ofText_of_rowsOfText {text : Text} {rows : List Instruction}
    (h : (rowsOfText text).toOption = some rows) : ofText text = .ok (ofRows rows) := by
  unfold ofText
  cases hrows : rowsOfText text with
  | error e =>
    rw [hrows] at h
    cases h
  | ok rows' =>
    rw [hrows] at h
    cases h
    rfl

/-- A row with a displacement in front of the last byte of its opcode. -/
def rotateIndexed : Instruction where
  mnemonic := "RLC".toList
  operands := "(IX+*)".toList
  opcode := [0xDD, 0xCB, 0x06]
  size := 4
  encoding := .indexed

theorem encode_length_eq_size_iff_sized_rotateIndexed : ∃ set,
    ofText "rlc (ix+*) DDCB06 4 ZIX\n".toList = .ok set ∧ rotateIndexed ∈ set.rows ∧
    [5].length = rotateIndexed.arity ∧
    rotateIndexed.encode [5] 0 = .ok [0xDD, 0xCB, 5, 0x06] ∧
    ([0xDD, 0xCB, 5, (0x06 : UInt8)].length = rotateIndexed.size ↔ rotateIndexed.Sized) := by
  have hrows : (rowsOfText "rlc (ix+*) DDCB06 4 ZIX\n".toList).toOption = some [rotateIndexed] := by
    decide +kernel
  have hmem : rotateIndexed ∈ (ofRows [rotateIndexed]).rows := List.mem_toArray.2 List.mem_cons_self
  have harity : [5].length = rotateIndexed.arity := by decide
  have hencode : rotateIndexed.encode [5] 0 = .ok [0xDD, 0xCB, 5, 0x06] := by rfl
  exact ⟨_, ofText_of_rowsOfText hrows, hmem, harity, hencode,
    (encode_length_eq_size_iff_sized (ofText_of_rowsOfText hrows) hmem harity 0).2 _ hencode⟩

/-- A relative branch that states no byte for the distance. -/
def shortBranch : Instruction where
  mnemonic := "JR".toList
  operands := "*".toList
  opcode := [0x18]
  size := 1
  encoding := .relative8

/-- A table with a row that states one byte can be read, and the code of the row has two. -/
theorem encode_length_ne_size_shortBranch : ∃ set,
    ofText "JR * 18 1 R1\n".toList = .ok set ∧ shortBranch ∈ set.rows ∧
    [5].length = shortBranch.arity ∧ shortBranch.encode [5] 0 = .ok [0x18, 4] ∧
    [0x18, (4 : UInt8)].length ≠ shortBranch.size := by
  have hrows : (rowsOfText "JR * 18 1 R1\n".toList).toOption = some [shortBranch] := by
    decide +kernel
  exact ⟨_, ofText_of_rowsOfText hrows, List.mem_toArray.2 List.mem_cons_self, by decide, rfl,
    by decide⟩

end InstructionSet

end MacroAssembler
