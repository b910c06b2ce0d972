import MacroAssembler.Proofs.Directive
import MacroAssembler.Proofs.Respects

/-!
# States that are alike

The bytes that a list of values puts out depend on a few parts of the state: the addresses, the
symbols, the character map.  The rest of it decides what is executed, or is kept for later.  Two
states that agree in these few parts, their `Essence`, are alike.  From states that are alike a list
of values has the same outcome, and it leaves states that are alike.

The first of the two states keeps its `Frame` meanwhile: a list of values leaves the course, the
sources and the errors alone, and as long as there are no labels it leaves the symbols alone too.
-/

namespace MacroAssembler

/-! ## What the output depends on -/

/-- The page, the address and the value of a byte of output. -/
def Emission.byte (e : Emission) : Nat × Nat × UInt8 :=
  (e.page, e.address, e.value)

/-- The bytes that a pass has put out, and where. -/
def State.bytes (st : State) : Array (Nat × Nat × UInt8) :=
  st.emissions.map Emission.byte

/-- The parts of a state that the values of expressions and the output depend on. -/
structure Essence where
  symbols : Symbols
  reusable : ReusableLabels
  structs : StructTable
  pages : Pages
  home : ModuleId
  localMark : Text
  allLocal : Bool
  relocation : Option Int
  charMap : Array UInt8
  quiet : Bool
  bytes : Array (Nat × Nat × UInt8)

/-- The essence of a state. -/
def State.essence (st : State) : Essence where
  symbols := st.symbols
  reusable := st.reusable
  structs := st.structs
  pages := st.pages
  home := st.home
  localMark := st.localMark
  allLocal := st.allLocal
  relocation := st.relocation
  charMap := st.charMap
  quiet := st.quiet
  bytes := st.bytes

/-- The parts of a state that are settled by statements other than data and loops. -/
structure Fixtures where
  symbols : Symbols
  reusable : ReusableLabels
  varAreas : List VarArea
  varDecls : List VarDecl
  openStruct : Option StructDef
  exports : List (Text × ModuleId)
  macros : MacroTable
  longMacro : Option (Text × Replacement)
  conditionals : Conditionals

/-- The fixtures of a state. -/
def State.fixtures (st : State) : Fixtures where
  symbols := st.symbols
  reusable := st.reusable
  varAreas := st.varAreas
  varDecls := st.varDecls
  openStruct := st.openStruct
  exports := st.exports
  macros := st.macros
  longMacro := st.longMacro
  conditionals := st.conditionals

/-- The errors among some diagnostics. -/
def Diagnostics.errors (ds : Diagnostics) : List Diagnostic :=
  ds.entries.toList.filter fun d => d.severity = .error

/-- A diagnostic that is no error leaves the errors as they were. -/
theorem Diagnostics.errors_report_of_ne (ds : Diagnostics) {d : Diagnostic}
    (hd : d.severity ≠ .error) : (ds.report d).2.errors = ds.errors := by
  rw [report]
  split
  · rfl
  · rw [errors, Array.toList_push, List.filter_append, List.filter_cons_of_neg (by simp [hd])]
    exact List.append_nil _

theorem Diagnostics.mem_errors_report {ds : Diagnostics} {d e : Diagnostic}
    (h : e ∈ (ds.report d).2.errors) : e ∈ ds.errors ∨ e = d := by
  rw [report] at h
  split at h
  · exact Or.inl h
  · rw [errors, Array.toList_push, List.filter_append, List.mem_append] at h
    rcases h with h | h
    · exact Or.inl h
    · exact Or.inr (List.mem_singleton.1 (List.mem_filter.1 h).1)

/-- What a data directive leaves alone where there are no labels. -/
structure Frame where
  fixtures : Fixtures
  loops : List OpenLoop
  skippedLoops : Nat
  store : SourceStore
  errors : List Diagnostic

/-- The frame of a state. -/
def State.frame (st : State) : Frame where
  fixtures := st.fixtures
  loops := st.loops
  skippedLoops := st.skippedLoops
  store := st.store
  errors := st.diagnostics.errors

theorem State.frame_report_warning (st : State) (message : String) :
    (st.report .warning message).frame = st.frame := by
  have herrors : (st.report .warning message).diagnostics.errors = st.diagnostics.errors :=
    Diagnostics.errors_report_of_ne _ fun h => nomatch h
  exact congrArg (Frame.mk st.fixtures st.loops st.skippedLoops st.store) herrors

/-- Two states without labels that have the same essence.  The count of the missing names matters in
a labels pass only. -/
structure Alike (stage : Stage) (st s : State) : Prop where
  essence_eq : st.essence = s.essence
  labels_eq : st.symbols.labels = #[]
  unresolved_eq : stage.kind.isLabels = true → st.unresolved = s.unresolved

/-- Two states that are alike, the first of them in a certain frame. -/
structure AlikeIn (frame : Frame) (stage : Stage) (st s : State) : Prop extends
    Alike stage st s where
  frame_eq : st.frame = frame

section

variable {stage : Stage} {st st' s s' : State} {frame : Frame}

namespace Alike

theorem symbols_eq (h : Alike stage st s) : st.symbols = s.symbols :=
  congrArg Essence.symbols h.essence_eq

theorem pages_eq (h : Alike stage st s) : st.pages = s.pages :=
  congrArg Essence.pages h.essence_eq

theorem bytes_eq (h : Alike stage st s) : st.bytes = s.bytes :=
  congrArg Essence.bytes h.essence_eq

theorem resolveLabel_eq (h : Alike stage st s) (name : Text) :
    st.resolveLabel name = s.resolveLabel name :=
  congrArg (fun e : Essence => e.symbols.resolve name ⟨e.home, e.localMark, e.allLocal⟩)
    h.essence_eq

theorem previousEntry_eq (h : Alike stage st s) (name : Text) :
    stage.previousEntry st name = stage.previousEntry s name :=
  congrArg (fun e : Essence =>
    (stage.previous.resolve name ⟨stage.previous.equivalentModule e.symbols e.home, e.localMark,
      e.allLocal⟩).bind fun id => (stage.previous.label? id).map (id, ·)) h.essence_eq

theorem charByte_eq (h : Alike stage st s) : st.charByte = s.charByte :=
  congrArg (fun e : Essence => fun c : Char => e.charMap.getD c.toNat (UInt8.ofNat c.toNat))
    h.essence_eq

/-- The first of two states may change where the output does not depend on it. -/
theorem left (h : Alike stage st s) (hessence : st'.essence = st.essence)
    (hcount : stage.kind.isLabels = true → st'.unresolved = st.unresolved) :
    Alike stage st' s :=
  ⟨hessence.trans h.essence_eq,
    (congrArg (fun e : Essence => e.symbols.labels) hessence).trans h.labels_eq,
    fun hlabels => (hcount hlabels).trans (h.unresolved_eq hlabels)⟩

/-- So may the second. -/
theorem right (h : Alike stage st s) (hessence : s'.essence = s.essence)
    (hcount : stage.kind.isLabels = true → s'.unresolved = s.unresolved) :
    Alike stage st s' :=
  ⟨h.essence_eq.trans hessence.symm, h.labels_eq,
    fun hlabels => (h.unresolved_eq hlabels).trans (hcount hlabels).symm⟩

end Alike

theorem AlikeIn.change (h : AlikeIn frame stage st s) (hessence : st'.essence = st.essence)
    (hessence' : s'.essence = s.essence) (hframe : st'.frame = st.frame)
    (hcount : stage.kind.isLabels = true → st'.unresolved = st.unresolved)
    (hcount' : stage.kind.isLabels = true → s'.unresolved = s.unresolved) :
    AlikeIn frame stage st' s' :=
  ⟨(h.left hessence hcount).right hessence' hcount', hframe.trans h.frame_eq⟩

/-! ## Expressions in a pass -/

theorem Symbols.modifyLabel_of_labels {t : Symbols} (h : t.labels = #[]) (id : LabelId)
    (f : Label → Label) : t.modifyLabel id f = t := by
  have hmodify : t.labels.modify id f = t.labels := by
    rw [h]
    rfl
  rw [modifyLabel, hmodify]

/-- Where there are no labels, no use of one is noted. -/
theorem Stage.recordReference_of_labels (quiet : Bool) (h : st.symbols.labels = #[])
    (id : LabelId) : stage.recordReference quiet st id = st := by
  unfold recordReference
  split
  · rw [Symbols.modifyLabel_of_labels h]
  · rfl

theorem Stage.essence_recordPending (quiet : Bool) (name : Text) :
    (stage.recordPending quiet st name).essence = st.essence := by
  unfold recordPending
  split
  · rfl
  · rfl

theorem Stage.frame_recordPending (quiet : Bool) (name : Text) :
    (stage.recordPending quiet st name).frame = st.frame := by
  unfold recordPending
  split
  · rfl
  · rfl

theorem Stage.unresolved_recordPending (quiet : Bool) (name : Text) :
    (stage.recordPending quiet st name).unresolved = st.unresolved := by
  unfold recordPending
  split
  · rfl
  · rfl

theorem AlikeIn.lookup (h : AlikeIn frame stage st s) (quiet : Bool) (aspect : Aspect)
    (name : Text) : (stage.lookup quiet aspect name st).1 = (stage.lookup quiet aspect name s).1 ∧
      AlikeIn frame stage (stage.lookup quiet aspect name st).2
        (stage.lookup quiet aspect name s).2 := by
  have hlabels : s.symbols.labels = #[] := h.symbols_eq ▸ h.labels_eq
  unfold Stage.lookup
  rw [h.resolveLabel_eq, h.previousEntry_eq]
  cases s.resolveLabel name with
  | some id =>
    dsimp only
    rw [Stage.recordReference_of_labels quiet h.labels_eq,
      Stage.recordReference_of_labels quiet hlabels, h.symbols_eq]
    exact ⟨rfl, h⟩
  | none =>
    cases stage.previousEntry s name with
    | none => exact ⟨rfl, h⟩
    | some entry =>
      refine ⟨rfl, h.change ?_ ?_ ?_ ?_ ?_⟩
      · exact stage.essence_recordPending quiet name
      · exact stage.essence_recordPending quiet name
      · exact stage.frame_recordPending quiet name
      · exact fun _ => stage.unresolved_recordPending quiet name
      · exact fun _ => stage.unresolved_recordPending quiet name

theorem AlikeIn.lookupReusable (h : AlikeIn frame stage st s) (target : ReusableRef) :
    (stage.lookupReusable target st).1 = (stage.lookupReusable target s).1 ∧
      AlikeIn frame stage (stage.lookupReusable target st).2
        (stage.lookupReusable target s).2 := by
  have hreusable : st.reusable = s.reusable := congrArg Essence.reusable h.essence_eq
  unfold Stage.lookupReusable
  rw [hreusable]
  split
  · exact ⟨rfl, h.change rfl rfl rfl (fun _ => rfl) fun _ => rfl⟩
  · exact ⟨rfl, h⟩

/-- The environment of a pass shows the same where there are no labels. -/
theorem Stage.environment_respects (stage : Stage) (quiet : Bool) (frame : Frame) :
    (stage.environment quiet).Has (AlikeIn frame stage)
      (Respects (AlikeIn frame stage) Anything Anything) := by
  refine stage.environment_has quiet Respects.closedIn (fun aspect name => ?_) (fun target => ?_)
    (fun _ _ => ?_) (fun st s h => congrArg Essence.structs h.essence_eq) (fun st s h => ?_)
    (fun st s h => h.resolveLabel_eq) fun st s h => h.charByte_eq
  · exact .modifyGet (fun _ _ h => ⟨(h.lookup quiet aspect name).1, trivial⟩)
      fun _ _ h => (h.lookup quiet aspect name).2
  · exact .modifyGet (fun _ _ h => ⟨(h.lookupReusable target).1, trivial⟩)
      fun _ _ h => (h.lookupReusable target).2
  · refine .modifyGet (fun _ _ _ => ⟨rfl, trivial⟩) fun st s h => ?_
    exact ⟨⟨h.essence_eq, h.labels_eq, fun hkind => congrArg (· + 1) (h.unresolved_eq hkind)⟩,
      h.frame_eq⟩
  · exact congrArg (fun e : Essence => (e.pages.pc : Int) + e.relocation.getD 0) h.essence_eq

/-- The faults of a list of values. -/
def Fault.OfData : Fault → Prop
  | .expr _ | .page _ | .directive (.doesNotFit _ _) | .directive (.noValue _) => True
  | _ => False

namespace PassM

variable (frame)

theorem eval_respects (text : Text) :
    RespectsIn stage (AlikeIn frame stage) Fault.OfData Anything (eval text) := by
  intro limit st s h
  have henv : (stage.limited limit).environment st.quiet = stage.environment st.quiet := rfl
  have hkind : (stage.limited limit).kind = stage.kind := rfl
  have hquiet : st.quiet = s.quiet := congrArg Essence.quiet h.essence_eq
  have hagree :=
    evaluate_has Respects.closedIn (stage.environment_respects s.quiet frame) text st s h
  rw [eval_apply, eval_apply, henv, hkind, hquiet]
  generalize evaluate (stage.environment s.quiet) text st = r,
    evaluate (stage.environment s.quiet) text s = r' at hagree
  cases hagree with
  | ok _ h' => exact .ok trivial h'
  | @error e st' s' _ h' =>
    dsimp only
    have hcount : (stage.kind.isLabels && decide (st.unresolved < st'.unresolved)) =
        (stage.kind.isLabels && decide (s.unresolved < s'.unresolved)) := by
      cases hkind : stage.kind.isLabels with
      | false => rfl
      | true => rw [h.unresolved_eq hkind, h'.unresolved_eq hkind]
    rw [hcount]
    split
    · exact .ok trivial h'
    · exact .error trivial h'

theorem evalInt_respects (text : Text) :
    RespectsIn stage (AlikeIn frame stage) Fault.OfData Anything (evalInt text) := by
  refine .bind (eval_respects frame text) fun value _ =>
    RespectsIn.read_bind ?_ fun _ => rfl
  exact iteInduction (fun _ => RespectsIn.throw trivial) fun _ => RespectsIn.pure trivial

/-! ## Output -/

theorem checkRange_respects (value : Int) (width : Nat) :
    RespectsIn stage (AlikeIn frame stage) Fault.OfData Anything (checkRange value width) := by
  refine iteInduction (fun _ => RespectsIn.pure trivial) fun _ =>
    RespectsIn.read_bind ?_ fun _ => rfl
  refine iteInduction (fun _ => RespectsIn.misuse trivial) fun _ => RespectsIn.modify ?_
  exact fun st s h => h.change rfl rfl (st.frame_report_warning _) (fun _ => rfl) fun _ => rfl

/-- The essence of a state in which a byte has been written. -/
theorem essence_write (st : State) (ps : Pages) (e : Emission) :
    { st with pages := ps, emissions := st.emissions.push e }.essence =
      { st.essence with pages := ps, bytes := st.essence.bytes.push e.byte } :=
  congrArg (fun bytes => { st.essence with pages := ps, bytes := bytes }) Array.map_push

theorem emitByte_respects (value : UInt8) :
    RespectsIn stage (AlikeIn frame stage) Fault.OfData Anything (emitByte value) := by
  intro limit st s h
  rw [emitByte, PassM.get_bind_apply, PassM.get_bind_apply, h.pages_eq]
  cases s.pages.write value with
  | error e => exact .error trivial h
  | ok written =>
    refine .ok trivial ⟨⟨?_, h.labels_eq, h.unresolved_eq⟩, h.frame_eq⟩
    rw [essence_write, essence_write, h.essence_eq]
    rfl

theorem emitBytes_respects (bytes : List UInt8) :
    RespectsIn stage (AlikeIn frame stage) Fault.OfData Anything (emitBytes bytes) := by
  induction bytes with
  | nil => exact .pure trivial
  | cons value rest ih => exact .bind (emitByte_respects frame value) fun _ _ => ih

theorem emit_respects (bytes : List UInt8) :
    RespectsIn stage (AlikeIn frame stage) Fault.OfData Anything (emit bytes) := by
  refine .read_bind
    (iteInduction (fun _ => ?_) fun _ => emitBytes_respects frame bytes) fun _ => rfl
  refine .modify fun st s h => ⟨⟨?_, h.labels_eq, h.unresolved_eq⟩, h.frame_eq⟩
  exact congrArg (fun e : Essence => { e with pages := e.pages.advance bytes.length }) h.essence_eq

end PassM

namespace DataDirective

variable (frame)

theorem integer_respects (width : Nat) (arg : Text) :
    RespectsIn stage (AlikeIn frame stage) Fault.OfData
      (fun item : Emitted => ∀ fault, item.fault = some fault → fault.OfData)
      (integer width arg) := by
  have hnone : ∀ bytes : List UInt8, ∀ fault,
      (⟨bytes, none⟩ : Emitted).fault = some fault → fault.OfData := by
    intro bytes fault h
    cases h
  unfold integer
  split
  · refine .get_bind (fun st => RespectsIn.pure (hnone _)) fun st s h => ?_
    rw [h.charByte_eq]
  · refine .read_bind
      (iteInduction (fun _ => RespectsIn.pure (hnone _)) fun _ => ?_) fun _ => rfl
    have hchecked : RespectsIn stage (AlikeIn frame stage) Fault.OfData Anything (do
        let value ← PassM.evalInt arg
        PassM.checkRange value width
        return value) :=
      RespectsIn.bind (PassM.evalInt_respects frame arg) fun value _ =>
        RespectsIn.bind (PassM.checkRange_respects frame value width) fun _ _ =>
          RespectsIn.pure trivial
    refine .bind (RespectsIn.observe hchecked) fun outcome houtcome => ?_
    cases outcome with
    | ok value => exact .pure (hnone _)
    | error fault =>
      refine .pure ?_
      rintro fault' ⟨⟩
      exact houtcome

/-- **From states that are alike, a list of values does the same.**  What fails is a value, or has
no place in the output. -/
theorem values_respects (width : Nat) (name rest : Text) :
    RespectsIn stage (AlikeIn frame stage) Fault.OfData Anything
      ((values width).run name rest) := by
  refine iteInduction (fun _ => RespectsIn.misuse trivial) fun _ => ?_
  refine .bind (RespectsIn.mapM fun arg _ => integer_respects frame width arg)
    fun items hitems => ?_
  refine .bind (PassM.emit_respects frame _) fun _ _ => ?_
  cases hfault : items.findSome? Emitted.fault with
  | none => exact .pure trivial
  | some fault =>
    obtain ⟨item, hitem, heq⟩ := List.exists_of_findSome?_eq_some hfault
    exact .throw (hitems item hitem fault heq)

end DataDirective

/-! ## Values that are worked out aside -/

end

end MacroAssembler
