import MacroAssembler.Instruction.Z80
import MacroAssembler.Proofs.DecimalFloat
import MacroAssembler.Proofs.EncodedSize
import MacroAssembler.Proofs.Statement

/-!
# The program counter stays in step

A labels pass counts the bytes of a statement without working them out: it takes the size of the
row that it finds for an instruction, and goes by the form of the arguments in a list of values.
The assembling pass works the values out.  Expressions may be faulty there, numbers may be too large
and operands may not fit, and still the statements behind must find the program counter where the
labels passes had it.

`Command.byteCount` is the number of bytes that the text of a statement stands for.  Both kinds of
passes are compared with it, and so with each other.
-/

namespace MacroAssembler

/-! ## Pages without bounds -/

namespace Pages

variable {ps : Pages}

/-- Whether the current page takes every address. -/
def Unbounded (ps : Pages) : Prop :=
  ps.page.origin = none ∨ ps.page.size = none

theorem page_modifyPage (f : Page → Page) : (ps.modifyPage f).page = f ps.page := by
  rw [modifyPage, page, get?, Std.TreeMap.getElem?_insert_self]
  rfl

theorem pc_advance (count : Nat) : (ps.advance count).pc = (ps.pc + count) % addressSpace := by
  rw [advance, setPc, pc, page_modifyPage]

theorem Unbounded.contains (h : ps.Unbounded) (address : Nat) :
    ps.page.contains address = true := by
  unfold Page.contains
  rcases h with horigin | hsize
  · rw [horigin]
  · rw [hsize]
    cases ps.page.origin <;> rfl

/-- A page without bounds takes a byte, and has no bounds after that. -/
theorem Unbounded.write (h : ps.Unbounded) (value : UInt8) :
    ∃ ps', ps.write value = .ok (ps.pc, ps') ∧ ps'.Unbounded ∧
      ps'.pc = (ps.pc + 1) % addressSpace := by
  refine ⟨_, by rw [Pages.write, if_pos (h.contains _)], ?_, ?_⟩
  · rw [Unbounded, page_modifyPage]
    exact h
  · rw [pc, page_modifyPage]

end Pages

/-! ## Moving on -/

/-- A pass that counts its output, or that writes it to a page which takes every address. -/
def HasRoom (stage : Stage) (st : State) : Prop :=
  stage.kind.isLabels = true ∨ st.pages.Unbounded

/-- From a state, a part of a pass moves the program counter on by a number of bytes, whether it
succeeds or fails. -/
def MovesOn (stage : Stage) (st : State) (count : Nat) {α : Type} (m : PassM α) : Prop :=
  (stateAfter (m stage) st).pages.pc = (st.pages.pc + count) % addressSpace

variable {α β : Type} {stage : Stage} {st : State} {count : Nat}

/-- What only works out values does not move on. -/
theorem WorksOut.movesOn {m : PassM α} (h : WorksOut stage m) (hpc : st.pages.pc < addressSpace) :
    MovesOn stage st 0 m := by
  rw [MovesOn, h.pages_eq, Nat.add_zero, Nat.mod_eq_of_lt hpc]

theorem MovesOn.bind {m : PassM α} {f : α → PassM β} (hm : MovesOn stage st count m)
    (hf : ∀ a, WorksOut stage (f a)) : MovesOn stage st count (m >>= f) := by
  unfold MovesOn at hm ⊢
  cases hrun : m stage st with
  | ok a st' =>
    rw [stateAfter_of_ok hrun] at hm
    have hafter : stateAfter ((m >>= f) stage) st = stateAfter (f a stage) st' :=
      stateAfter_bind_of_ok hrun
    rw [hafter, (hf a).pages_eq, hm]
  | error fault st' =>
    rw [stateAfter_of_error hrun] at hm
    have hafter : stateAfter ((m >>= f) stage) st = st' := stateAfter_bind_of_error hrun
    rw [hafter, hm]

/-- Working out a value first makes no difference. -/
theorem WorksOut.bind_movesOn {m : PassM α} {f : α → PassM β} {a : α} {st' : State}
    (hm : WorksOut stage m) (hrun : m stage st = .ok a st')
    (hf : st'.pages = st.pages → MovesOn stage st' count (f a)) :
    MovesOn stage st count (m >>= f) := by
  have hpages : st'.pages = st.pages := by
    have := hm.pages_eq st
    rwa [stateAfter_of_ok hrun] at this
  have hafter : stateAfter ((m >>= f) stage) st = stateAfter (f a stage) st' :=
    stateAfter_bind_of_ok hrun
  have hmoves := hf hpages
  rw [MovesOn, hpages] at hmoves
  rw [MovesOn, hafter, hmoves]

theorem MovesOn.get_bind {f : State → PassM α} (h : MovesOn stage st count (f st)) :
    MovesOn stage st count (get >>= f) :=
  h

theorem MovesOn.read_bind {f : Stage → PassM α} (h : MovesOn stage st count (f stage)) :
    MovesOn stage st count (read >>= f) :=
  h

/-- A change beside the output makes no difference either. -/
theorem MovesOn.modify_bind {g : State → State} {f : PUnit → PassM α}
    (hpages : (g st).pages = st.pages) (h : MovesOn stage (g st) count (f ⟨⟩)) :
    MovesOn stage st count (modify g >>= f) := by
  have hafter : stateAfter ((modify g >>= f) stage) st = stateAfter (f ⟨⟩ stage) (g st) := rfl
  rw [MovesOn, hpages] at h
  rw [MovesOn, hafter, h]

namespace PassM

theorem read_apply (stage : Stage) (st : State) :
    (read : PassM Stage) stage st = .ok stage st :=
  rfl

/-- To observe a step is to succeed. -/
theorem exists_observe_eq_ok (m : PassM α) (stage : Stage) (st : State) :
    ∃ outcome st', observe m stage st = .ok outcome st' := by
  cases hrun : m stage st with
  | ok a st' => exact ⟨_, _, PassM.observe_of_ok hrun⟩
  | error fault st' => exact ⟨_, _, PassM.observe_of_error hrun⟩

theorem emitByte_of_write (stage : Stage) {value : UInt8} {address : Nat} {ps : Pages}
    (h : st.pages.write value = .ok (address, ps)) :
    ∃ st', emitByte value stage st = .ok ⟨⟩ st' ∧ st'.pages = ps := by
  refine ⟨{ st with
    pages := ps
    emissions := st.emissions.push ⟨address, ps.current, st.location, value⟩ }, ?_, rfl⟩
  rw [emitByte, PassM.get_bind_apply, h]
  rfl

theorem emitBytes_movesOn (bytes : List UInt8) {st : State} (hroom : st.pages.Unbounded)
    (hpc : st.pages.pc < addressSpace) : MovesOn stage st bytes.length (emitBytes bytes) := by
  induction bytes generalizing st with
  | nil => exact WorksOut.movesOn (Performs.pure _) hpc
  | cons value rest ih =>
    obtain ⟨ps', hwrite, hroom', hpc'⟩ := hroom.write value
    obtain ⟨st', hrun, rfl⟩ := emitByte_of_write stage hwrite
    have hrest := ih hroom' (by rw [hpc']; exact Nat.mod_lt _ (by decide))
    have hafter : stateAfter (emitBytes (value :: rest) stage) st =
        stateAfter (emitBytes rest stage) st' :=
      stateAfter_bind_of_ok hrun
    rw [MovesOn, hpc', Nat.mod_add_mod] at hrest
    rw [MovesOn, hafter, hrest, List.length_cons, Nat.add_right_comm, Nat.add_assoc]

theorem advance_movesOn (count : Nat) : MovesOn stage st count (advance count) :=
  Pages.pc_advance count

theorem emit_movesOn (bytes : List UInt8) (hroom : HasRoom stage st)
    (hpc : st.pages.pc < addressSpace) : MovesOn stage st bytes.length (emit bytes) := by
  have hread : emit bytes stage =
      (if stage.kind.isLabels then advance bytes.length else emitBytes bytes) stage := rfl
  rw [MovesOn, hread]
  by_cases hlabels : stage.kind.isLabels = true
  · rw [if_pos hlabels]
    exact advance_movesOn _
  · rw [if_neg hlabels]
    exact emitBytes_movesOn bytes (hroom.resolve_left hlabels) hpc

end PassM

/-! ## Lists of values -/

namespace DataDirective

open PassM

/-- A step that gives a number of bytes, comes what may, and only works out values. -/
structure Gives (stage : Stage) (count : Nat) (item : PassM Emitted) : Prop where
  worksOut : WorksOut stage item
  length_eq : ∀ st, ∃ emitted st', item stage st = .ok emitted st' ∧ emitted.bytes.length = count

theorem length_intBytes (value : Int) {width : Nat} (hwidth : width ≤ 8) :
    (intBytes value width).length = width := by
  unfold intBytes DataType.bytes
  rw [Option.getD_some, Instruction.length_leBytes, Nat.min_eq_left hwidth]

theorem length_floatBytes (value : Float) : ((DataType.float.bytes value).getD []).length = 9 :=
  DataType.length_decimalFloat value

/-- The number of bytes that an argument of a list of integers stands for. -/
def integerSize (width : Nat) (arg : Text) : Nat :=
  match Text.unquoteString arg with
  | some text => text.length * width
  | none => width

theorem integer_gives {width : Nat} (hwidth : width ≤ 8) (arg : Text) :
    Gives stage (integerSize width arg) (integer width arg) := by
  refine ⟨integer_worksOut width arg, fun st => ?_⟩
  unfold integer integerSize
  cases Text.unquoteString arg with
  | some text =>
    refine ⟨_, _, rfl, ?_⟩
    simp only [List.length_flatMap, length_intBytes _ hwidth, List.map_const',
      List.sum_replicate_nat]
  | none =>
    dsimp only
    rw [PassM.bind_of_ok (read_apply stage st)]
    by_cases hlabels : stage.kind.isLabels = true
    · rw [if_pos hlabels]
      exact ⟨_, _, rfl, List.length_replicate⟩
    · rw [if_neg hlabels]
      obtain ⟨outcome, st', hrun⟩ := exists_observe_eq_ok (do
        let value ← evalInt arg
        checkRange value width
        return value) stage st
      rw [PassM.bind_of_ok hrun]
      cases outcome with
      | ok value => exact ⟨_, _, rfl, length_intBytes value hwidth⟩
      | error fault => exact ⟨_, _, rfl, length_intBytes 0 hwidth⟩

theorem float_gives (arg : Text) : Gives stage 9 (float arg) := by
  refine ⟨float_worksOut arg, fun st => ?_⟩
  unfold float
  dsimp only
  rw [PassM.bind_of_ok (read_apply stage st)]
  by_cases hlabels : stage.kind.isLabels = true
  · rw [if_pos hlabels]
    exact ⟨_, _, rfl, length_floatBytes 0⟩
  · rw [if_neg hlabels]
    obtain ⟨outcome, st', hrun⟩ := exists_observe_eq_ok (eval arg) stage st
    rw [PassM.bind_of_ok hrun]
    cases outcome with
    | ok value => exact ⟨_, _, rfl, length_floatBytes value⟩
    | error fault => exact ⟨_, _, rfl, length_floatBytes 0⟩

/-- The arguments of a list give as many bytes as they do one by one. -/
theorem mapM_gives {item : Text → PassM Emitted} {size : Text → Nat}
    (hitem : ∀ arg, Gives stage (size arg) (item arg)) (args : List Text) (st : State) :
    ∃ items st', args.mapM item stage st = .ok items st' ∧
      (items.flatMap Emitted.bytes).length = (args.map size).sum := by
  induction args generalizing st with
  | nil => exact ⟨[], st, by rw [List.mapM_nil]; rfl, rfl⟩
  | cons arg args ih =>
    obtain ⟨emitted, st₁, hrun, hlength⟩ := (hitem arg).length_eq st
    obtain ⟨items, st₂, hruns, hlengths⟩ := ih st₁
    refine ⟨emitted :: items, st₂, ?_, ?_⟩
    · rw [List.mapM_cons, PassM.bind_of_ok hrun, PassM.bind_of_ok hruns]
      rfl
    · rw [List.flatMap_cons, List.length_append, hlength, hlengths, List.map_cons, List.sum_cons]

/-- A list of values moves the program counter on by the number of its bytes, also if some of them
have no value. -/
theorem emitAll_movesOn {item : Text → PassM Emitted} {size : Text → Nat}
    (hitem : ∀ arg, Gives stage (size arg) (item arg)) (name : Text) (args : List Text)
    (hroom : HasRoom stage st) (hpc : st.pages.pc < addressSpace) :
    MovesOn stage st (args.map size).sum (emitAll name args item) := by
  unfold emitAll
  cases args with
  | nil => exact WorksOut.movesOn (Performs.misuse _) hpc
  | cons arg args =>
    obtain ⟨items, st', hrun, hlength⟩ := mapM_gives hitem (arg :: args) st
    have hworks : WorksOut stage ((arg :: args).mapM item) :=
      Performs.closed.mapM fun arg _ => (hitem arg).worksOut
    refine hworks.bind_movesOn hrun fun hpages => ?_
    rw [← hlength]
    refine MovesOn.bind (emit_movesOn _ ?_ (by rwa [hpages])) fun _ => ?_
    · rwa [HasRoom, hpages]
    · split
      · exact Performs.throw _
      · exact Performs.pure _

end DataDirective

/-! ## Instructions -/

namespace Z80

/-- The rows of the table could have been read from a text, and they state the sizes of their
codes. -/
theorem rows_checked : ∀ ins ∈ rows, ins.opcode ≠ [] ∧ ins.opcode.length ≤ ins.size ∧
    RowText.problem ins = none ∧ ins.codeLength = ins.size := by
  decide +kernel

theorem length_of_encode {index : Nat} {ins : Instruction}
    (h : instructionSet.row? index = some ins) {args : List Int} {address : Int}
    {bytes : List UInt8} (hencode : ins.encode args address = .ok bytes) :
    bytes.length = ins.size := by
  have hmem : ins ∈ rows := List.mem_toArray.1 (Array.mem_of_getElem? h)
  obtain ⟨hopcode, hsize, hproblem, hlength⟩ := rows_checked ins hmem
  have haccepted : ins.Accepted := ⟨hopcode, hsize, hproblem⟩
  rw [haccepted.length_of_encode hencode, hlength]

end Z80

namespace PassM

variable {file : Nat} {pos : Position} {mnemonic operands : Text} {found : Match}
  {ins : Instruction}

theorem findInstruction_movesOn (hfind : stage.table.find mnemonic operands = some found)
    (hins : stage.table.row? found.index = some ins) :
    MovesOn stage st ins.size (findInstruction file pos mnemonic operands) := by
  refine MovesOn.read_bind ?_
  rw [hfind]
  refine MovesOn.modify_bind rfl (MovesOn.modify_bind rfl ?_)
  rw [hins]
  exact advance_movesOn _

/-- An instruction that can not be encoded takes as much room as one that can. -/
theorem encodeInstruction_movesOn (args : List Text)
    (hsize : ∀ values address bytes,
      ins.encode values address = .ok bytes → bytes.length = ins.size)
    (hroom : HasRoom stage st) (hpc : st.pages.pc < addressSpace) :
    MovesOn stage st ins.size (do
      match ← observe (encodeInstruction ins args) with
      | .ok bytes => emit bytes
      | .error fault =>
        advance ins.size
        throw fault) := by
  have hworks : WorksOut stage (observe (encodeInstruction ins args)) :=
    Performs.observe (encodeInstruction_serves ins args).performs
  cases hrun : encodeInstruction ins args stage st with
  | ok bytes st' =>
    refine hworks.bind_movesOn (PassM.observe_of_ok hrun) fun hpages => ?_
    have hlength : bytes.length = ins.size := by
      obtain ⟨values, st₁, -, hencode⟩ := bind_eq_ok hrun
      change ofExcept .encode (ins.encode values st₁.address) stage st₁ = .ok bytes st' at hencode
      cases hcode : ins.encode values st₁.address with
      | ok code =>
        rw [hcode] at hencode
        cases hencode
        exact hsize _ _ _ hcode
      | error e =>
        rw [hcode] at hencode
        cases hencode
    rw [← hlength]
    refine emit_movesOn bytes ?_ (by rwa [hpages])
    rwa [HasRoom, hpages]
  | error fault st' =>
    refine hworks.bind_movesOn (PassM.observe_of_error hrun) fun _ => ?_
    exact MovesOn.bind (advance_movesOn _) fun _ => Performs.throw _

theorem emitInstruction_movesOn
    (hrow : settledRow ((st.store.statementAt file pos).bind Statement.row) mnemonic operands =
      .ok found)
    (hins : stage.table.row? found.index = some ins)
    (hsize : ∀ values address bytes,
      ins.encode values address = .ok bytes → bytes.length = ins.size)
    (hroom : HasRoom stage st) (hpc : st.pages.pc < addressSpace) :
    MovesOn stage st ins.size (emitInstruction file pos mnemonic operands) := by
  refine MovesOn.get_bind (MovesOn.modify_bind rfl ?_)
  rw [SourceStore.statementAt] at hrow
  rw [hrow]
  refine MovesOn.read_bind ?_
  rw [hins]
  exact encodeInstruction_movesOn found.args hsize hroom hpc

end PassM

/-! ## Statements -/

/-- The number of bytes that a statement stands for, if it is a list of values or an instruction of
a table. -/
def Command.byteCount (table : InstructionSet) : Command → Option Nat
  | .directive name rest =>
    match Directive.ofName name with
    | some (.data (.values width)) =>
      some ((Text.arguments rest).map (DataDirective.integerSize width)).sum
    | some (.data .floats) => some ((Text.arguments rest).map fun _ => 9).sum
    | _ => none
  | .instruct mnemonic operands => do
    let found ← table.find mnemonic operands
    let ins ← table.row? found.index
    return ins.size
  | .blank | .assign _ _ | .label _ _ => none

theorem Command.exists_row_of_byteCount {table : InstructionSet} {mnemonic operands : Text}
    (h : byteCount table (.instruct mnemonic operands) = some count) :
    ∃ found ins, table.find mnemonic operands = some found ∧
      table.row? found.index = some ins ∧ ins.size = count := by
  obtain ⟨found, hfind, h⟩ := Option.bind_eq_some_iff.1 h
  obtain ⟨ins, hins, h⟩ := Option.bind_eq_some_iff.1 h
  cases h
  exact ⟨found, ins, hfind, hins, rfl⟩

theorem InstructionSet.isMnemonic_of_find {set : InstructionSet} {mnemonic operands : Text}
    {found : Match} (h : set.find mnemonic operands = some found) :
    set.isMnemonic mnemonic = true := by
  obtain ⟨group, hgroup, -⟩ := Option.bind_eq_some_iff.1 h
  rw [isMnemonic, hgroup]
  rfl

/-- The widths of the integers that lists of values have. -/
def Directive.widths : List Nat :=
  index.filterMap fun (_, d) =>
    match d with
    | .data (.values width) => some width
    | _ => none

theorem Directive.width_le_of_ofName {name : Text} {width : Nat}
    (h : ofName name = some (.data (.values width))) : width ≤ 8 := by
  have hall : ∀ width ∈ widths, width ≤ 8 := by decide
  obtain ⟨before, after, hindex, -⟩ := List.lookup_eq_some_iff.1 h
  refine hall width (List.mem_filterMap.2 ⟨(name, .data (.values width)), ?_, rfl⟩)
  rw [hindex]
  exact List.mem_append_right _ List.mem_cons_self

namespace PassM

variable {runFile : Option (Nat → PassM Bool)} {file : Nat} {pos : Position} {text : Text}
  {column0 : Bool}

/-- A statement moves the program counter on by its bytes, if its instruction does. -/
theorem command_movesOn {table : InstructionSet} (htable : stage.table = table)
    (hcount : (Command.ofText text column0).byteCount table = some count)
    (hroom : HasRoom stage st) (hpc : st.pages.pc < addressSpace)
    (hinstruction : ∀ mnemonic operands,
      Command.ofText text column0 = .instruct mnemonic operands →
        MovesOn stage st count (instruction file pos mnemonic operands)) :
    MovesOn stage st count (command runFile file pos text column0) := by
  rw [command]
  split
  next h =>
    rw [h] at hcount
    cases hcount
  next name rest h =>
    rw [h, Command.byteCount] at hcount
    split at hcount
    next width hname =>
      cases hcount
      rw [hname]
      refine MovesOn.bind ?_ fun _ => Performs.pure _
      have hwidth := Directive.width_le_of_ofName hname
      exact DataDirective.emitAll_movesOn (DataDirective.integer_gives hwidth) name _ hroom hpc
    next hname =>
      cases hcount
      rw [hname]
      refine MovesOn.bind ?_ fun _ => Performs.pure _
      exact DataDirective.emitAll_movesOn DataDirective.float_gives name _ hroom hpc
    next => cases hcount
  next name value h =>
    rw [h] at hcount
    cases hcount
  next name rest h =>
    rw [h] at hcount
    cases hcount
  next mnemonic operands h =>
    refine MovesOn.read_bind ?_
    rw [h] at hcount
    obtain ⟨found, ins, hfind, -, -⟩ := Command.exists_row_of_byteCount hcount
    rw [htable, if_pos (InstructionSet.isMnemonic_of_find hfind)]
    exact MovesOn.bind (hinstruction mnemonic operands h) fun _ => Performs.pure _

/-- The final labels pass has left the row of an instruction with a statement. -/
def RowLeft (table : InstructionSet) (st : State) (file : Nat) (pos : Position)
    (mnemonic operands : Text) : Prop :=
  ∀ found, table.find mnemonic operands = some found →
    (st.store.statementAt file pos).bind Statement.row =
      some ⟨.final, Text.squeeze operands, found⟩

theorem settledRow_of_final {mnemonic operands : Text} {found : Match} :
    settledRow (some ⟨.final, Text.squeeze operands, found⟩) mnemonic operands = .ok found := by
  unfold settledRow
  dsimp only
  rw [if_neg (not_not_intro rfl), if_neg (not_not_intro rfl)]

/-- **Addresses stay in step between passes.**  A statement is a list of values, or an instruction
of the Z80 for which the final labels pass left the row.  A labels pass executes it, and so does the
assembling pass on a page without bounds, from the same address.  Then both leave the program
counter at the same address, that is, behind the bytes that the text stands for.  It does not matter
whether operands have values, whether these fit, and what else the states and the stages are. -/
theorem program_counter_in_step {counting writing : Stage}
    (hcounting : counting.kind.isLabels = true) (hwriting : writing.kind = .assemble)
    (htable : counting.table = Z80.instructionSet) (htable' : writing.table = Z80.instructionSet)
    (hcount : (Command.ofText text column0).byteCount Z80.instructionSet = some count)
    {st st' : State} (hpc : st.pages.pc < addressSpace) (hpc' : st'.pages.pc = st.pages.pc)
    (hroom : st'.pages.Unbounded)
    (hrow : ∀ mnemonic operands, Command.ofText text column0 = .instruct mnemonic operands →
      RowLeft Z80.instructionSet st' file pos mnemonic operands)
    (runFile runFile' : Option (Nat → PassM Bool)) :
    (stateAfter (command runFile' file pos text column0 writing) st').pages.pc =
      (stateAfter (command runFile file pos text column0 counting) st).pages.pc ∧
    (stateAfter (command runFile file pos text column0 counting) st).pages.pc =
      (st.pages.pc + count) % addressSpace := by
  have hlabels : MovesOn counting st count (command runFile file pos text column0) := by
    refine command_movesOn htable hcount (.inl hcounting) hpc fun mnemonic operands h => ?_
    rw [h] at hcount
    obtain ⟨found, ins, hfind, hins, rfl⟩ := Command.exists_row_of_byteCount hcount
    rw [← htable] at hfind hins
    refine MovesOn.read_bind ?_
    rw [if_pos hcounting]
    exact findInstruction_movesOn hfind hins
  have hassemble : MovesOn writing st' count (command runFile' file pos text column0) := by
    have hpc'' : st'.pages.pc < addressSpace := hpc'.symm ▸ hpc
    refine command_movesOn htable' hcount (.inr hroom) hpc'' fun mnemonic operands h => ?_
    have hleft := hrow mnemonic operands h
    rw [h] at hcount
    obtain ⟨found, ins, hfind, hins, rfl⟩ := Command.exists_row_of_byteCount hcount
    have hsettled : settledRow ((st'.store.statementAt file pos).bind Statement.row) mnemonic
        operands = .ok found := by
      rw [hleft found hfind]
      exact settledRow_of_final
    have hnot : ¬writing.kind.isLabels = true := by
      rw [hwriting]
      decide
    refine MovesOn.read_bind ?_
    rw [if_neg hnot]
    refine emitInstruction_movesOn hsettled (htable' ▸ hins) ?_ (.inr hroom) hpc''
    exact fun _ _ _ => Z80.length_of_encode hins
  unfold MovesOn at hlabels hassemble
  rw [hassemble, hlabels, hpc']
  exact ⟨rfl, rfl⟩

/-- A pass over the instructions of the Z80, without labels of a pass before. -/
def bareStage (kind : PassKind) : Stage where
  kind := kind
  strict := false
  maxSteps := 100
  table := Z80.instructionSet
  previous := Symbols.empty false
  previousReusable := {}
  allocation := []

/-- A test of a bit whose number is nowhere defined. -/
def bitTest : Text :=
  " bit nowhere, (ix + 3)".toList

/-- The row of the table for the test. -/
def bitTestRow : Match :=
  ⟨710, ["nowhere".toList, "3".toList]⟩

/-- A state in front of the test, with what the passes before have left with it. -/
def beforeTest (row : Option FoundRow) : State :=
  let s : Statement := { text := bitTest, column0 := false, expanded := true, row := row }
  State.initial {} { files := #[⟨"main".toList, #[[s]]⟩] } {}

theorem program_counter_in_step_bitTest :
    let st := beforeTest none
    let st' := beforeTest (some ⟨.final, "nowhere,(ix+3)".toList, bitTestRow⟩)
    (Command.ofText bitTest false).byteCount Z80.instructionSet = some 4 ∧
    st.pages.pc < addressSpace ∧ st'.pages.pc = st.pages.pc ∧ st'.pages.Unbounded ∧
    (∀ mnemonic operands, Command.ofText bitTest false = .instruct mnemonic operands →
      RowLeft Z80.instructionSet st' 0 ⟨0, 0⟩ mnemonic operands) ∧
    (stateAfter (command none 0 ⟨0, 0⟩ bitTest false (bareStage .assemble)) st').pages.pc =
      (stateAfter (command none 0 ⟨0, 0⟩ bitTest false (bareStage .final)) st).pages.pc ∧
    (stateAfter (command none 0 ⟨0, 0⟩ bitTest false (bareStage .final)) st).pages.pc =
      (st.pages.pc + 4) % addressSpace := by
  intro st st'
  have htext : Command.ofText bitTest false =
      .instruct "bit".toList "nowhere, (ix + 3)".toList := by decide +kernel
  have hfind : Z80.instructionSet.find "bit".toList "nowhere, (ix + 3)".toList =
      some bitTestRow := by decide +kernel
  have hsize : (Z80.instructionSet.row? bitTestRow.index).map Instruction.size = some 4 := by
    decide +kernel
  have hcount : (Command.ofText bitTest false).byteCount Z80.instructionSet = some 4 := by
    obtain ⟨ins, hins, hsize⟩ := Option.map_eq_some_iff.1 hsize
    rw [htext, Command.byteCount, hfind, Option.bind_eq_bind, Option.bind_some, hins, ← hsize]
    rfl
  have hpc : st.pages.pc < addressSpace := by decide +kernel
  have hsame : st'.pages.pc = st.pages.pc := rfl
  have hroom : st'.pages.Unbounded := Or.inl (by decide +kernel)
  have hrow : ∀ mnemonic operands, Command.ofText bitTest false = .instruct mnemonic operands →
      RowLeft Z80.instructionSet st' 0 ⟨0, 0⟩ mnemonic operands := by
    intro mnemonic operands h found hfound
    cases htext.symm.trans h
    cases hfind.symm.trans hfound
    decide +kernel
  exact ⟨hcount, hpc, hsame, hroom, hrow,
    program_counter_in_step rfl rfl rfl rfl hcount hpc hsame hroom hrow none none⟩

end PassM

end MacroAssembler
