import MacroAssembler.Proofs.Placement
import MacroAssembler.Proofs.QualifiedNames
import MacroAssembler.Proofs.Resolvability
import MacroAssembler.Proofs.StructLayout

/-!
# The labels of fields

A variable of a struct type has a label for every field, below the module that is named after the
variable.  The labels are defined one after the other, and a label that is there already is defined
again.  So every field has its own address exactly if no two fields with different places have the
same path, up to what the keys of modules and labels leave of it.
-/

namespace MacroAssembler

open Relation StructTable Symbols

namespace Symbols

variable {t t' : Symbols}

/-! ## Below a label -/

/-- The keys along a path. -/
def memberKeys (t : Symbols) (path : Text) : List Text :=
  (Text.splitOn '.' path).map t.key

/-- The label at a path below the module that is named after a label. -/
def memberLabel? (t : Symbols) (owner : Label) (path : Text) : Option Label :=
  let parts := Text.splitOn '.' path
  (t.walk? owner.home (owner.name :: parts.dropLast)).bind fun m =>
    (t.labelIn? m (parts.getLast?.getD [])).bind t.label?

theorem memberLabel?_eq_some_iff {owner label : Label} {path : Text} :
    t.memberLabel? owner path = some label ↔ ∃ m id,
      t.walk? owner.home (owner.name :: (Text.splitOn '.' path).dropLast) = some m ∧
      t.labelIn? m ((Text.splitOn '.' path).getLast?.getD []) = some id ∧
      t.label? id = some label := by
  simp [memberLabel?, Option.bind_eq_some_iff]

theorem memberKeys_eq (t : Symbols) (path : Text) : t.memberKeys path =
    (Text.splitOn '.' path).dropLast.map t.key ++
      [t.key ((Text.splitOn '.' path).getLast?.getD [])] := by
  have hne : Text.splitOn '.' path ≠ [] := by
    rw [Text.splitOn_eq]
    exact List.splitOn_ne_nil _ _
  rw [memberKeys, List.getLast?_eq_some_getLast hne, Option.getD_some, ← List.map_singleton,
    ← List.map_append, List.dropLast_append_getLast]

theorem walk?_congr {base : ModuleId} {names names' : List Text}
    (h : names.map t.key = names'.map t.key) : t.walk? base names = t.walk? base names' := by
  have hchild : ∀ m name, t.child? m name = (t.moduleAt m).children.lookup (t.key name) :=
    fun _ _ => rfl
  rw [walk?, walk?]
  simp only [funext fun m => funext fun name => hchild m name]
  rw [← List.foldlM_map (f := t.key) (g := fun m key => (t.moduleAt m).children.lookup key),
    ← List.foldlM_map (f := t.key) (g := fun m key => (t.moduleAt m).children.lookup key), h]

/-- Paths of the same keys lead to the same label. -/
theorem memberLabel?_congr {owner : Label} {path path' : Text}
    (h : t.memberKeys path = t.memberKeys path') :
    t.memberLabel? owner path = t.memberLabel? owner path' := by
  rw [memberKeys_eq, memberKeys_eq] at h
  obtain ⟨hfront, hlast⟩ := List.append_inj' h rfl
  have hwalk : t.walk? owner.home (owner.name :: (Text.splitOn '.' path).dropLast) =
      t.walk? owner.home (owner.name :: (Text.splitOn '.' path').dropLast) :=
    walk?_congr (congrArg (t.key owner.name :: ·) hfront)
  rw [memberLabel?, memberLabel?, hwalk]
  exact congrArg _ (funext fun m => congrArg (·.bind t.label?)
    (labelIn?_congr (List.cons.inj hlast).1))

/-- The path of a module goes on with the keys that lead further down. -/
theorem Built.keys_of_walk? (h : t.Built) {base m : ModuleId} {names : List Text}
    (hbase : base < t.modules.size) (hwalk : t.walk? base names = some m) :
    (t.modulePath m).2.map t.key = (t.modulePath base).2.map t.key ++ names.map t.key := by
  induction names generalizing base with
  | nil =>
    cases hwalk
    exact (List.append_nil _).symm
  | cons name names ih =>
    obtain ⟨c, hchild, hrest⟩ := Option.bind_eq_some_iff.1 hwalk
    obtain ⟨hc, hparent, hkey⟩ := h.coherent.child (mem_of_lookup hchild)
    rw [ih hc hrest, modulePath_of_some hparent (h.coherent.parent_cases hc hparent).1,
      List.map_append, List.append_assoc, List.map_singleton, hkey]
    rfl

/-- What expressions see of a label that says where a field is: its value and its size. -/
def contents (info : LabelDef) : Float × Nat :=
  (info.value, info.size)

theorem memberKeys_of_extends (h : t.Extends t') : t'.memberKeys = t.memberKeys :=
  funext fun path => congrArg (fun key => (Text.splitOn '.' path).map key) (key_eq_of_extends h)

/-- The definition of a member is what is found at its path from then on, and at the paths of the
same keys.  What is found at other paths below the label stays as it is, and so does the label
itself. -/
theorem Built.memberLabel?_defineMember (h : t.Built) {base id : LabelId}
    {owner : Label} {path : Text} {info : LabelDef} (hbase : t.label? base = some owner)
    (hrun : defineMember base path info t = .ok id t') :
    t'.label? base = some owner ∧
    (∀ path', t.memberKeys path' = t.memberKeys path →
      (t'.memberLabel? owner path').map (contents ·.info) = some (contents info)) ∧
    ∀ path', t.memberKeys path' ≠ t.memberKeys path → ∀ label,
      t.memberLabel? owner path' = some label → t'.memberLabel? owner path' = some label := by
  have hafter : stateAfter (defineMember base path info) t = t' := stateAfter_of_ok hrun
  have hoperation : Operation t t' := hafter ▸ .memberDefined base path info
  have hafterwards := h.coherent.extends_operation hoperation
  have hbuilt : t'.Built := h.imp fun _ hsteps => hsteps.tail hoperation
  have hhome := h.coherent.home_lt hbase
  rw [defineMember_apply, hbase] at hrun
  dsimp only at hrun
  let names := owner.name :: (Text.splitOn '.' path).dropLast
  obtain ⟨hextends, hwalk⟩ := h.coherent.walkCreating hhome names
  have hholds := hextends.coherent.holds_insert (h.coherent.walkCreating_lt hhome names) hrun
  have hlabels (id' : LabelId) (hne : id' ≠ id) : t'.label? id' = t.label? id' := by
    rw [hholds.others id' hne, label?, labels_walkCreating, label?]
  rw [← hholds.walk?_eq] at hwalk
  obtain ⟨label, hlabel, hinfo⟩ := hholds.label
  have hkeys := memberKeys_of_extends hafterwards
  -- what is filed as this label is filed in one place
  have hplace {m : ModuleId} {leaf : Text} (hin : t'.labelIn? m leaf = some id) :
      m = label.home ∧ t'.key leaf = t'.key label.name :=
    (hbuilt.coherent.lookup_labels_iff hlabel).1 hin
  have hhome' := Nat.lt_of_lt_of_le hhome hafterwards.size_le
  refine ⟨?_, fun path' heq => ?_, fun path' hne other hother => ?_⟩
  · rw [hlabels base, hbase]
    rintro rfl
    obtain ⟨owner', howner', -, hsame⟩ := hafterwards.label_eq hbase
    rw [hlabel] at howner'
    cases howner'
    have hpath := hbuilt.keys_of_walk? hhome' hwalk
    rw [(hplace hholds.filed).1, hsame] at hpath
    cases List.self_eq_append_right.1 hpath
  · rw [← hkeys] at heq
    rw [memberLabel?_congr heq, memberLabel?_eq_some_iff.2 ⟨_, id, hwalk, hholds.filed, hlabel⟩,
      Option.map_some, hinfo]
    rfl
  · obtain ⟨m, id', hwalk', hin, hlabel'⟩ := memberLabel?_eq_some_iff.1 hother
    have hwalk' := hafterwards.walk?_eq hwalk'
    have hin := hafterwards.labelIn_eq hin
    refine memberLabel?_eq_some_iff.2 ⟨m, id', hwalk', hin, ?_⟩
    rw [hlabels id', hlabel']
    rintro rfl
    obtain ⟨hm, hleaf⟩ := hplace hholds.filed
    obtain ⟨rfl, hleaf'⟩ := hplace hin
    have hpath := hbuilt.keys_of_walk? hhome' hwalk
    rw [hm, hbuilt.keys_of_walk? hhome' hwalk'] at hpath
    have hfront := (List.cons.inj (List.append_cancel_left hpath)).2
    refine hne ?_
    rw [← hkeys, memberKeys_eq, memberKeys_eq, hfront, hleaf, hleaf']

end Symbols

/-! ## The fields of a variable -/

/-- What the label of a field should say: where the field of a variable at an address lies, and how
large it is. -/
def Field.contents (table : StructTable) (address : Nat) (field : Field) : Float × Nat :=
  (Float.ofNat (address + field.offset), table.bytes field.type * field.count)

/-- The same, worked out in words of 32 bits. -/
def Field.wordContents (table : StructTable) (address : Nat) (field : Field) : Float × Nat :=
  (Float.ofNat (UInt32.ofNat address + UInt32.ofNat field.offset).toNat,
    (UInt32.ofNat (table.bytes field.type) * UInt32.ofNat field.count).toNat)

/-- No number that is worked out for a variable of a type, which lies at an address, goes beyond 32
bits. -/
structure StructTable.FitsAt (table : StructTable) (ty : DataType) (count address : Nat) :
    Prop where
  type : table.FitsWord ty
  size_lt : table.bytes ty * count < 2 ^ 32
  field_lt : ∀ fields, table.flatten ty = .ok fields →
    ∀ field ∈ fields, address + field.offset < 2 ^ 32

theorem StructTable.FitsAt.wordContents_eq {table : StructTable} {ty : DataType}
    {count address : Nat}
    {fields : List Field} (h : table.FitsAt ty count address)
    (hfields : table.flatten ty = .ok fields) :
    ∀ field ∈ fields, field.wordContents table address = field.contents table address := by
  intro field hfield
  have haddress := h.field_lt fields hfields field hfield
  have hend := h.type.end_lt fields hfields field hfield
  have hsize : table.bytes field.type * field.count < 2 ^ 32 := by omega
  rw [Field.wordContents, Field.contents, UInt32.toNat_add, UInt32.toNat_mul, UInt32.toNat_ofNat',
    UInt32.toNat_ofNat', UInt32.toNat_ofNat', UInt32.toNat_ofNat', ← Nat.add_mod, ← Nat.mul_mod,
    Nat.mod_eq_of_lt haddress, Nat.mod_eq_of_lt hsize]

namespace StorageDirective

variable {stage : Stage} {st st' : State}
variable {id : LabelId} {address : Nat} {α : Type} {page : Nat} {location : Option Location}
  {flags : LabelFlags}
variable {owner : Label} {fields : List Field}

theorem ofExcept_ok {ε : Type} {fault : ε → Fault} {result : Except ε α} {a : α}
    (h : PassM.ofExcept fault result stage st = .ok a st') : result = .ok a ∧ st' = st := by
  cases result with
  | error e => cases h
  | ok b =>
    cases h
    exact ⟨rfl, rfl⟩

theorem onSymbols_ok {change : SymbolM α} {a : α}
    (h : PassM.onSymbols change stage st = .ok a st') :
    ∃ t, change st.symbols = .ok a t ∧ st' = { st with symbols := t } := by
  rw [PassM.onSymbols_apply] at h
  split at h
  next t hrun =>
    cases h
    exact ⟨t, hrun, rfl⟩
  next => cases h

theorem defineField_ok {field : Field}
    (h : defineField id address page location flags field stage st = .ok () st') :
    ∃ info id' t, Symbols.contents info = field.contents st.structs address ∧
      Symbols.defineMember id field.path info st.symbols = .ok id' t ∧
      st' = { st with symbols := t } := by
  obtain ⟨size, st₁, hsize, hrest⟩ := bind_eq_ok (m := sizeOf field.type stage) h
  obtain ⟨hsize, rfl⟩ := ofExcept_ok hsize
  obtain ⟨id', st₂, hdefine, hrest⟩ := bind_eq_ok hrest
  cases hrest
  obtain ⟨t, hmember, rfl⟩ := onSymbols_ok hdefine
  refine ⟨_, id', t, ?_, hmember, rfl⟩
  rw [Field.contents, bytes_eq hsize]
  rfl

/-- A label with the contents of a field is found at a path below a label. -/
def Shown (t : Symbols) (owner : Label) (path : Text) (contents : Float × Nat) : Prop :=
  (t.memberLabel? owner path).map (Symbols.contents ·.info) = some contents

instance (t : Symbols) (owner : Label) (path : Text) (contents : Float × Nat) :
    Decidable (Shown t owner path contents) :=
  inferInstanceAs (Decidable (_ = _))

/-- **What is found at a path, after some fields have been defined, is a field with the keys of the
path.**  Where there is none, what was found before is found still. -/
theorem shown_of_forM (hbuilt : st.symbols.Built) (howner : st.symbols.label? id = some owner)
    (h : fields.forM (defineField id address page location flags) stage st = .ok () st') :
    st'.structs = st.structs ∧ st.symbols.Extends st'.symbols ∧ st'.symbols.label? id = some owner ∧
    ∀ path,
      (∃ field ∈ fields, st.symbols.memberKeys path = st.symbols.memberKeys field.path ∧
        Shown st'.symbols owner path (field.contents st.structs address)) ∨
      (∀ field ∈ fields, st.symbols.memberKeys path ≠ st.symbols.memberKeys field.path) ∧
        ∀ contents, Shown st.symbols owner path contents →
        Shown st'.symbols owner path contents := by
  induction fields generalizing st with
  | nil =>
    cases h
    exact ⟨rfl, hbuilt.coherent.extends_self, howner, fun path =>
      .inr ⟨List.forall_mem_nil _, fun _ hbefore => hbefore⟩⟩
  | cons field fields ih =>
    obtain ⟨u, st₁, hfirst, hrest⟩ := bind_eq_ok h
    obtain ⟨info, id', t, hinfo, hdefine, rfl⟩ := defineField_ok hfirst
    obtain ⟨howner', hsame, hother⟩ := hbuilt.memberLabel?_defineMember howner hdefine
    have hoperation : Symbols.Operation st.symbols t :=
      stateAfter_of_ok hdefine ▸ .memberDefined id field.path info
    have hbuilt' : t.Built := hbuilt.imp fun _ hsteps => hsteps.tail hoperation
    have hextends := hbuilt.coherent.extends_operation hoperation
    obtain ⟨hstructs, hextends', howner'', hshown⟩ := ih hbuilt' howner' hrest
    refine ⟨hstructs, hextends.trans hextends', howner'', fun path => ?_⟩
    rw [memberKeys_of_extends hextends] at hshown
    rcases hshown path with ⟨later, hmem, hlater⟩ | ⟨hnone, hkept⟩
    · exact .inl ⟨later, List.mem_cons_of_mem _ hmem, hlater⟩
    by_cases hpath : st.symbols.memberKeys path = st.symbols.memberKeys field.path
    · refine .inl ⟨field, List.mem_cons_self, hpath, hkept _ ?_⟩
      rw [← hinfo]
      exact hsame path hpath
    · refine .inr ⟨List.forall_mem_cons.2 ⟨hpath, hnone⟩, fun contents hbefore => hkept _ ?_⟩
      obtain ⟨label, hlabel, hcontents⟩ := Option.map_eq_some_iff.1 hbefore
      exact Option.map_eq_some_iff.2 ⟨label, hother path hpath label hlabel, hcontents⟩

/-! ## What is kept while a value is worked out -/

/-- The structs are the same, and so are the tree and the place in it, but for what is noted with
labels. -/
structure Kept (st st' : State) : Prop where
  structs : st'.structs = st.structs
  openStruct : st'.openStruct = st.openStruct
  home : st'.home = st.home
  modules : st'.symbols.modules = st.symbols.modules
  tree : ReflTransGen Symbols.Operation st.symbols st'.symbols

theorem kept_of_valueStep (h : ValueStep stage st st') : Kept st st' := by
  cases h with
  | warned => exact ⟨rfl, rfl, rfl, rfl, .refl⟩
  | eval h =>
    cases h with
    | reference id location =>
      exact ⟨rfl, rfl, rfl, rfl, .single (.annotated id (fun _ => rfl) fun _ => rfl)⟩
    | _ => exact ⟨rfl, rfl, rfl, rfl, .refl⟩

theorem kept_of_worksOut {m : PassM α} (h : WorksOut stage m) (st : State) :
    Kept st (stateAfter (m stage) st) := by
  refine keeps_of_steps (P := Kept st) (fun _ _ hstep hkept => ?_) (h st)
    ⟨rfl, rfl, rfl, rfl, .refl⟩
  have hnext := kept_of_valueStep hstep
  exact ⟨hnext.structs.trans hkept.structs, hnext.openStruct.trans hkept.openStruct,
    hnext.home.trans hkept.home, hnext.modules.trans hkept.modules, hkept.tree.trans hnext.tree⟩

/-! ## The label of a variable -/

/-- The label of a variable of a type, at an address.  It is filed where the name of the variable
says, as seen from a state. -/
structure IsVariable (st : State) (name : Text) (ty : DataType) (address : Nat) (label : Label) :
    Prop where
  name_eq : label.name = (LabelPath.ofName name).leaf
  home_eq : label.home = (st.symbols.targetModule (LabelPath.ofName name) st.scope).1
  type_eq : label.info.type = some ty
  value_eq : label.info.value = Float.ofNat address

theorem defineVariable_ok {name qualified : Text} {info : LabelDef}
    (h : defineVariable name info stage st = .ok (id, qualified, address) st') :
    ∃ t, Symbols.define name st.scope info false st.symbols = .ok id t ∧
      Allots stage (t.qualifiedAt id) address ∧
      st' = { st with symbols := t.setValue id (Float.ofNat address) } := by
  have hdefines : Defines stage st name info _ := defineVariable_defines name info st
  rw [h] at hdefines
  cases hdefines with
  | ok hdefine haddress htree => exact ⟨_, hdefine, haddress, rfl⟩

/-- What a declaration comes to: the label of the variable, and then the fields. -/
theorem declareVariable_ok {ty : DataType} {count : Nat} {name : Text} {isTemporary : Bool}
    (hbuilt : st.symbols.Built) (hhome : st.home < st.symbols.modules.size)
    (h : declareVariable ty count name isTemporary stage st = .ok () st') :
    ∃ id owner address fields page location flags st₁ st₂,
      st.structs.flatten ty = .ok fields ∧ IsVariable st name ty address owner ∧
      owner.info.size = st.structs.bytes ty * count ∧
      Allots stage (st₁.symbols.qualifiedName owner) address ∧
      st₁.structs = st.structs ∧ st₁.symbols.Built ∧ st₁.symbols.label? id = some owner ∧
      fields.forM (defineField id address page location flags) stage st₁ = .ok () st₂ ∧
      st'.symbols = st₂.symbols ∧ st'.structs = st₂.structs := by
  obtain ⟨size, st₁, hsize, hrest⟩ := bind_eq_ok (m := sizeOf ty stage) h
  obtain ⟨hsize, rfl⟩ := ofExcept_ok hsize
  by_cases hzero : size * count = 0
  · simp only [if_pos hzero] at hrest
    cases hrest
  simp only [if_neg hzero] at hrest
  obtain ⟨⟨id, qualified, address⟩, st₂, hvariable, hrest⟩ :=
    bind_eq_ok (m := defineVariable name _ stage) hrest
  obtain ⟨t, hdefine, haddress, rfl⟩ := defineVariable_ok hvariable
  obtain ⟨fields, st₃, hfields, hrest⟩ := bind_eq_ok (m := fieldsOf ty stage) hrest
  obtain ⟨hflatten, rfl⟩ := ofExcept_ok hfields
  obtain ⟨u, st₄, hforM, hrest⟩ := bind_eq_ok hrest
  cases hrest
  obtain ⟨-, label, hlabel, hname, hhome', hinfo⟩ := eq_size_of_define hdefine
  have hoperation : Symbols.Operation st₁.symbols t :=
    stateAfter_of_ok hdefine ▸ Symbols.Operation.defined hhome name _ false
  have hbuilt' : t.Built := hbuilt.imp fun _ hsteps => hsteps.tail hoperation
  refine ⟨id, { label with info := { label.info with value := Float.ofNat address } }, address,
    fields, _, _, _, { st₁ with symbols := t.setValue id (Float.ofNat address) }, st₄, hflatten,
    ⟨hname, hhome', by rw [hinfo], rfl⟩, ?_, ?_, rfl, ?_, ?_, hforM, rfl, rfl⟩
  · rw [hinfo, bytes_eq hsize]
  · rw [Symbols.setValue, qualifiedName_modifyLabel]
    rwa [Symbols.qualifiedAt, hlabel] at haddress
  · exact hbuilt'.imp fun _ hsteps => hsteps.tail (.annotated id (fun _ => rfl) fun _ => rfl)
  · rw [Symbols.setValue, Symbols.label?_modifyLabel, if_pos rfl, hlabel]
    rfl

/-- At the path of a field there is a label.  It shows the field or another one with the same
keys. -/
theorem exists_shown (hbuilt : st.symbols.Built) (howner : st.symbols.label? id = some owner)
    (h : fields.forM (defineField id address page location flags) stage st = .ok () st') :
    ∀ field ∈ fields, ∃ other ∈ fields,
      st'.symbols.memberKeys field.path = st'.symbols.memberKeys other.path ∧
      Shown st'.symbols owner field.path (other.contents st.structs address) := by
  obtain ⟨-, hextends, -, hshown⟩ := shown_of_forM hbuilt howner h
  rw [memberKeys_of_extends hextends]
  intro field hfield
  exact (hshown field.path).resolve_right fun hnone => hnone.1 field hfield rfl

/-- The fields of a variable are all shown if those of the same keys are in the same place, and only
then. -/
theorem shown_iff (hbuilt : st.symbols.Built) (howner : st.symbols.label? id = some owner)
    (h : fields.forM (defineField id address page location flags) stage st = .ok () st') :
    (∀ field ∈ fields, Shown st'.symbols owner field.path (field.contents st.structs address)) ↔
      ∀ field ∈ fields, ∀ other ∈ fields,
        st'.symbols.memberKeys field.path = st'.symbols.memberKeys other.path →
          other.contents st.structs address = field.contents st.structs address := by
  constructor
  · intro hall field hfield other hother hsame
    have hlabel := hall field hfield
    rw [Shown, Symbols.memberLabel?_congr hsame] at hlabel
    exact Option.some.inj ((hall other hother).symm.trans hlabel)
  · intro hall field hfield
    obtain ⟨other, hother, hsame, hshown⟩ := exists_shown hbuilt howner h field hfield
    rwa [hall field hfield other hother hsame] at hshown

end StorageDirective

/-! ## Fields of different names -/

namespace Text

theorem lowerFrom_ascii {before text : Text} (h : text.all fun c => c.toNat < 128) :
    lowerFrom before text = asciiLower text := by
  induction text generalizing before with
  | nil => rfl
  | cons c text ih =>
    rw [List.all_cons, Bool.and_eq_true, decide_eq_true_eq] at h
    obtain ⟨hc, htext⟩ := h
    have hsigma : (c.toNat == 0x3A3) = false := beq_false_of_ne (by omega)
    rw [lowerFrom, ih htext, hsigma, lowerChar, if_pos hc]
    rfl

end Text

namespace StructTable

variable {key : Text → Text} {whole t : StructTable} {busy : List Text} {path : Text} {base : Nat}
  {ty : DataType} {fields : List Field}

/-- The names along a path, of which an empty one has none. -/
def parts (path : Text) : List Text :=
  if path.isEmpty then [] else Text.splitOn '.' path

theorem splitOn_joinPath {name : Text} (h : '.' ∉ name) (path : Text) :
    Text.splitOn '.' (joinPath path name) = parts path ++ [name] := by
  rw [joinPath, parts, Text.splitOn_eq, Text.splitOn_eq]
  split
  · exact List.splitOn_eq_singleton h
  · rw [List.splitOn_append_cons_self, List.splitOn_eq_singleton h]

theorem parts_joinPath {name : Text} (hname : name ≠ []) (h : '.' ∉ name) (path : Text) :
    parts (joinPath path name) = parts path ++ [name] := by
  rw [← splitOn_joinPath h, parts, if_neg]
  rw [joinPath]
  split <;> simp [hname]

/-- The names of the members of a struct are not empty and have no dots, and differ in their
keys. -/
structure KeysApart (key : Text → Text) (d : StructDef) : Prop where
  named : ∀ member ∈ d.members, member.name ≠ [] ∧ '.' ∉ member.name
  apart : d.members.Pairwise fun member other => key member.name ≠ key other.name

/-- **The fields of a type differ in the keys along their paths** if the members of every struct
differ in their keys.  Below a path, the next key tells the member. -/
theorem nodup_keys (hapart : ∀ name d, whole.get? name = some d → KeysApart key d)
    (hwhole : t.Within whole) (h : fieldsWithin whole t busy path base ty = .ok fields) :
    (fields.map fun field => (Text.splitOn '.' field.path).map key).Nodup ∧
    ∀ field ∈ fields, ∃ rest, rest ≠ [] ∧
      (Text.splitOn '.' field.path).map key = (parts path).map key ++ rest := by
  induction t, busy, ty using sizeWithin.induct generalizing path base fields with
  | case1 t busy name hnone =>
    rw [fieldsWithin_of_none hnone] at h
    cases h
  | case3 t busy ty hbasic =>
    have hbasic : ∀ name, ty ≠ .struct name := hbasic
    rw [fieldsWithin_of_basic hbasic] at h
    cases h
    exact ⟨List.nodup_nil, fun _ hmem => absurd hmem List.not_mem_nil⟩
  | case2 t busy name d hd ih =>
    rw [fieldsWithin_of_some hd] at h
    obtain ⟨laid, hlaid, hfields⟩ := bind_eq_ok_iff.1 h
    cases hfields
    obtain ⟨places, hmembers, -, hfields, hplaces⟩ := places_of_foldlM hlaid
    obtain ⟨hnamed, hdistinct⟩ := hapart name d (hwhole name d hd)
    rw [← hmembers, List.pairwise_map] at hdistinct
    rw [hfields, List.nil_append]
    -- the fields of a member, told from those of other members by the key behind the path
    have hplace : ∀ place ∈ places,
        ((place.fields path).map fun field => (Text.splitOn '.' field.path).map key).Nodup ∧
        ∀ field ∈ place.fields path, ∃ rest, (Text.splitOn '.' field.path).map key =
          (parts path).map key ++ key place.member.name :: rest := by
      intro place hmem
      obtain ⟨hname, hdot⟩ := hnamed place.member (hmembers ▸ List.mem_map_of_mem hmem)
      obtain ⟨hnodup, hbelow⟩ :=
        ih place.member ((within_erase t name).trans hwhole) (hplaces place hmem).2
      have hhead : (Text.splitOn '.' (joinPath path place.member.name)).map key =
          (parts path).map key ++ [key place.member.name] := by
        rw [splitOn_joinPath hdot, List.map_append, List.map_singleton]
      rw [parts_joinPath hname hdot, List.map_append, List.map_singleton] at hbelow
      refine ⟨List.nodup_cons.2 ⟨fun hin => ?_, hnodup⟩, List.forall_mem_cons.2 ⟨⟨[], hhead⟩, ?_⟩⟩
      · obtain ⟨field, hfield, hsame⟩ := List.mem_map.1 hin
        obtain ⟨rest, hne, hrest⟩ := hbelow field hfield
        exact hne (List.append_right_eq_self.1 (hrest.symm.trans (hsame.trans hhead)))
      · intro field hfield
        obtain ⟨rest, -, hrest⟩ := hbelow field hfield
        exact ⟨rest, by rw [hrest, List.append_assoc, List.singleton_append]⟩
    refine ⟨?_, fun field hfield => ?_⟩
    · rw [List.map_flatMap, List.nodup_flatMap]
      refine ⟨fun place hmem => (hplace place hmem).1,
        hdistinct.imp_of_mem fun hmem hmem' hne => ?_⟩
      intro keys hkeys hkeys'
      obtain ⟨field, hfield, rfl⟩ := List.mem_map.1 hkeys
      obtain ⟨other, hother, hsame⟩ := List.mem_map.1 hkeys'
      obtain ⟨rest, hrest⟩ := (hplace _ hmem).2 field hfield
      obtain ⟨rest', hrest'⟩ := (hplace _ hmem').2 other hother
      rw [hrest, hrest'] at hsame
      exact hne (List.cons.inj (List.append_cancel_left hsame)).1.symm
    · obtain ⟨place, hmem, hfield⟩ := List.mem_flatMap.1 hfield
      obtain ⟨rest, hrest⟩ := (hplace place hmem).2 field hfield
      exact ⟨_, List.cons_ne_nil _ _, hrest⟩

end StructTable

/-! ## Members as they are declared -/

theorem StructTable.eq_or_get?_of_define {table table' : StructTable}
    {d d' : StructDef} {name : Text}
    (h : table.define d = .ok table') (hd : table'.get? name = some d') :
    d' = d ∨ table.get? name = some d' := by
  rw [define] at h
  split at h
  · cases h
  · cases h
    rw [get?, List.lookup_cons] at hd
    split at hd
    · exact Or.inl (Option.some.inj hd).symm
    · exact Or.inr hd

/-- The members of a struct have valid names, which differ by more than the case of ASCII
letters. -/
structure StructDef.Apart (d : StructDef) : Prop where
  valid : ∀ member ∈ d.members, isValidName member.name = true
  apart : d.members.Pairwise fun member other => Text.sameIgnoringCase member.name
    other.name = false

theorem StructDef.Apart.concat {owner : StructDef} (h : owner.Apart) {m : Member}
    (hvalid : isValidName m.name = true)
    (hnew : (owner.members.any fun other => Text.sameIgnoringCase other.name m.name) = false) :
    ({ owner with members := owner.members ++ [m] } : StructDef).Apart := by
  refine ⟨List.forall_mem_append.2 ⟨h.valid, List.forall_mem_singleton.2 hvalid⟩, ?_⟩
  refine List.pairwise_append.2 ⟨h.apart, List.pairwise_singleton _ _, fun other hother => ?_⟩
  exact List.forall_mem_singleton.2
    (Bool.eq_false_of_not_eq_true (List.any_eq_false.1 hnew other hother))

/-- This is so for every struct on the table, and for the one that is open. -/
structure State.MembersApart (st : State) : Prop where
  closed : ∀ name d, st.structs.get? name = some d → d.Apart
  opened : ∀ d, st.openStruct = some d → d.Apart

namespace StorageDirective

variable {stage : Stage} {st st' : State}

/-- A part of a pass keeps the members apart, if it finds them so. -/
abbrev KeepsApart (st st' : State) : Prop :=
  st.MembersApart → st'.MembersApart

theorem keepsApart_of_eq (hstructs : st'.structs = st.structs)
    (hopen : st'.openStruct = st.openStruct) : KeepsApart st st' := by
  rintro ⟨hclosed, hopened⟩
  refine ⟨?_, ?_⟩
  · rwa [hstructs]
  · rwa [hopen]

theorem keepsApart_of_worksOut {α : Type} {m : PassM α} (h : WorksOut stage m) :
    Performs KeepsApart stage m :=
  h.mono fun _ _ hstep => keepsApart_of_eq (kept_of_valueStep hstep).structs
    (kept_of_valueStep hstep).openStruct

theorem onSymbols_keepsApart {α : Type} (change : SymbolM α) :
    Performs KeepsApart stage (PassM.onSymbols change) := by
  intro st
  rw [PerformsFrom, LeadsFrom, stateAfter, PassM.onSymbols_apply]
  cases change st.symbols <;> exact .single (keepsApart_of_eq rfl rfl)

theorem defineLabel_keepsApart (name : Text) (info : LabelDef) (force : Bool) :
    Performs KeepsApart stage (PassM.defineLabel name info force) :=
  .bind .get fun _ => onSymbols_keepsApart _

theorem defineField_keepsApart (id : LabelId) (address page : Nat) (location : Option Location)
    (flags : LabelFlags) (field : Field) :
    Performs KeepsApart stage (defineField id address page location flags field) :=
  .bind (sizeOf_serves _).performs fun _ => .bind (onSymbols_keepsApart _)
    fun _ => .pure _

theorem addMember_keepsApart {owner : StructDef} (howner : owner.Apart) (m : Member)
    (isTemporary : Bool) : Performs KeepsApart stage (addMember owner m isTemporary) := by
  unfold addMember
  refine .check_bind fun _ st => ?_
  refine PerformsFrom.bind (Performs.ofExcept _ _ st) fun _ st' hcheck => ?_
  have hvalid : isValidName m.name = true := by
    obtain ⟨hcheck, -⟩ := ofExcept_ok hcheck
    rw [checkName] at hcheck
    split at hcheck
    · assumption
    · cases hcheck
  have hmember
      (hnew : ¬ (owner.members.any fun other => Text.sameIgnoringCase other.name m.name) = true) :
      Performs KeepsApart stage (modify fun st =>
        { st with openStruct := some { owner with members := owner.members ++ [m] } }) := by
    refine .modify fun st hst => ⟨hst.closed, fun d hd => ?_⟩
    cases hd
    exact howner.concat hvalid (Bool.eq_false_of_not_eq_true hnew)
  exact Performs.check_bind hmember st'

/-- What a part does to a state in which the members are not apart does not matter. -/
theorem performsFrom_of_apart {α : Type} {m : PassM α}
    (h : st.MembersApart → PerformsFrom KeepsApart stage st m) :
    PerformsFrom KeepsApart stage st m := by
  by_cases hst : st.MembersApart
  · exact h hst
  · exact .single fun h => absurd h hst

theorem defineVariable_keepsApart (name : Text) (info : LabelDef) :
    Performs KeepsApart stage (defineVariable name info) := by
  refine .bind (defineLabel_keepsApart name info false) fun id => ?_
  refine .bind .get fun st => ?_
  have haddress (qualified : Text) : Performs KeepsApart stage (addressOf name qualified) := by
    refine .read_bind ?_
    split
    · exact .pure _
    · exact iteInduction (fun _ => .misuse _) fun _ => .pure _
  refine .bind (haddress _) fun address => ?_
  exact .bind (.modify fun st => keepsApart_of_eq rfl rfl) fun _ => .pure _

theorem declareName_keepsApart (typeText name : Text) (isTemporary : Bool) :
    Performs KeepsApart stage (declareName typeText name isTemporary) := by
  refine .bind (keepsApart_of_worksOut (readType_serves typeText).performs) fun type =>
    .get_bind fun st => ?_
  refine performsFrom_of_apart fun hst => ?_
  split
  next d hopen => exact addMember_keepsApart (hst.opened d hopen) _ _ st
  next =>
    refine Performs.bind (sizeOf_serves _).performs (fun size => ?_) st
    refine .check_bind fun _ => .bind .get fun st => ?_
    refine .bind (defineVariable_keepsApart _ _) fun placed => ?_
    refine .bind (fieldsOf_serves _).performs fun fields => ?_
    refine .bind (.forM fun field _ => defineField_keepsApart _ _ _ _ _
      field) fun _ => ?_
    exact .modify fun st => keepsApart_of_eq rfl rfl

theorem finishStruct_keepsApart : Performs KeepsApart stage finishStruct := by
  refine .get_bind fun st => performsFrom_of_apart fun hst => ?_
  split
  next => exact Performs.misuse _ st
  next d hopen =>
    refine PerformsFrom.modify_bind (.single fun hst => ⟨hst.closed, nofun⟩) ?_
    refine PerformsFrom.get_bind ?_
    refine PerformsFrom.bind (Performs.ofExcept _ _ _) fun structs st₁ hrun => ?_
    obtain ⟨hdefine, rfl⟩ := ofExcept_ok hrun
    refine PerformsFrom.modify_bind (.single fun hst' => ⟨fun name d' hd' => ?_, hst'.opened⟩) ?_
    · rcases eq_or_get?_of_define hdefine hd' with rfl | hd'
      · exact hst.opened d' hopen
      · exact hst'.closed name d' hd'
    · refine Performs.bind (fieldsOf_serves _).performs
        (fun fields => .forM fun field _ => ?_) _
      refine .bind (sizeOf_serves _).performs fun size => .bind
        .get fun st => ?_
      exact .bind (defineLabel_keepsApart _ _ true) fun _ => .pure _

theorem run_keepsApart (d : StorageDirective) (name rest : Text) :
    Performs KeepsApart stage (d.run name rest) := by
  unfold run
  dsimp only
  split
  · refine .bind .get fun st => ?_
    split
    · exact .misuse _
    · refine .bind (.ofExcept _ _) fun _ => .modify fun st hst =>
        ⟨hst.closed, ?_⟩
      rintro _ ⟨⟩
      exact ⟨nofun, .nil⟩
  · exact .misuse _
  · exact finishStruct_keepsApart
  · exact declareName_keepsApart _ _ _
  · refine .bind
      (keepsApart_of_worksOut (PassM.evalAddress_serves _).performs) fun start => ?_
    refine .bind
      (keepsApart_of_worksOut (PassM.evalAddress_serves _).performs) fun size => ?_
    exact .modify fun st => keepsApart_of_eq rfl rfl
  · exact .misuse _
  · exact .misuse _

/-- The structs were declared by directives, and nothing else has changed them. -/
inductive Declared : State → Prop
  | start {st : State} (hstructs : st.structs = {}) (hopen : st.openStruct = none) : Declared st
  | directive {st : State} (h : Declared st) (stage : Stage) (d : StorageDirective)
    (name rest : Text) :
      Declared (stateAfter (d.run name rest stage) st)
  | other {st st' : State} (h : Declared st) (hstructs : st'.structs = st.structs)
      (hopen : st'.openStruct = st.openStruct) : Declared st'

theorem Declared.membersApart (h : Declared st) : st.MembersApart := by
  induction h with
  | start hstructs hopen =>
    refine ⟨?_, ?_⟩
    · rw [hstructs]
      nofun
    · rw [hopen]
      nofun
  | directive _ stage d name rest ih =>
    exact keeps_of_steps (fun _ _ hstep => hstep) (run_keepsApart d name rest _) ih
  | other _ hstructs hopen ih => exact keepsApart_of_eq hstructs hopen ih

/-- The names of members have no dots, and no letters beyond ASCII unless the case of letters
matters. -/
def PlainNames (caseSensitive : Bool) (table : StructTable) : Prop :=
  ∀ entry ∈ table.defs, ∀ member ∈ entry.2.members,
    '.' ∉ member.name ∧ (caseSensitive = true ∨ member.name.all fun c => c.toNat < 128)

instance (caseSensitive : Bool) (table : StructTable) :
    Decidable (PlainNames caseSensitive table) :=
  inferInstanceAs (Decidable (∀ entry ∈ table.defs, ∀ member ∈ entry.2.members, _))

theorem keysApart_of_plain {caseSensitive : Bool} {d : StructDef} (h : d.Apart)
    (hplain : ∀ member ∈ d.members,
      '.' ∉ member.name ∧ (caseSensitive = true ∨ member.name.all fun c => c.toNat < 128)) :
    StructTable.KeysApart (Text.nameKey caseSensitive) d := by
  refine ⟨fun member hmem => ⟨?_, (hplain member hmem).1⟩,
    h.apart.imp_of_mem fun hmem hmem' hne hsame => ?_⟩
  · intro hname
    have hvalid := h.valid member hmem
    rw [hname] at hvalid
    cases hvalid
  · rw [Text.sameIgnoringCase, beq_eq_false_iff_ne] at hne
    refine hne ?_
    cases caseSensitive with
    | true => exact congrArg Text.asciiLower hsame
    | false =>
      have hascii {member : Member} (hmem : member ∈ d.members) :
          Text.asciiLower member.name = Text.nameKey false member.name :=
        (Text.lowerFrom_ascii ((hplain member hmem).2.resolve_left Bool.false_ne_true)).symm
      rw [hascii hmem, hascii hmem', hsame]

/-- **Every field has its own address, unless a field of the same keys is elsewhere.**  When a
variable was declared, its label says where it is.  As long as its numbers stay within 32 bits, the
label says how large it is, and below it there is a label at the path of every field, which shows
the field or another one with the same keys along its path.  All of these labels show their own
fields exactly if fields with the same keys are in the same place.  This is so if the structs have
been declared by directives, and the names of members have neither dots nor, unless the case of
letters matters, letters beyond ASCII. -/
theorem declareName_shows_fields {typeText name : Text} {isTemporary : Bool}
    (hbuilt : st.symbols.Built)
    (hhome : st.home < st.symbols.modules.size) (hopen : st.openStruct = none)
    (hrun : declareName typeText name isTemporary stage st = .ok () st') :
    ∃ ty count st₁ id owner address fields,
      readType typeText stage st = .ok (ty, count) st₁ ∧ st'.structs = st.structs ∧
      st.structs.flatten ty = .ok fields ∧ st'.symbols.label? id = some owner ∧
      IsVariable st₁ name ty address owner ∧
      Allots stage (st'.symbols.qualifiedName owner) address ∧
      (st.structs.FitsAt ty count address →
        owner.info.size = st.structs.bytes ty * count ∧
        (∀ field ∈ fields,
          field.wordContents st.structs address = field.contents st.structs address) ∧
        (∀ field ∈ fields, ∃ other ∈ fields,
          st'.symbols.memberKeys field.path = st'.symbols.memberKeys other.path ∧
          Shown st'.symbols owner field.path (other.contents st.structs address)) ∧
        ((∀ field ∈ fields, Shown st'.symbols owner field.path
          (field.contents st.structs address)) ↔ ∀ field ∈ fields, ∀ other ∈ fields,
            st'.symbols.memberKeys field.path = st'.symbols.memberKeys other.path →
              other.contents st.structs address = field.contents st.structs address) ∧
        (Declared st → PlainNames st'.symbols.caseSensitive st.structs →
          ∀ field ∈ fields,
            Shown st'.symbols owner field.path (field.contents st.structs address))) := by
  obtain ⟨⟨ty, count⟩, st₁, htype, hrest⟩ := bind_eq_ok (m := readType typeText stage) hrun
  have hkept : Kept st st₁ :=
    stateAfter_of_ok htype ▸ kept_of_worksOut (readType_serves typeText).performs st
  dsimp only at hrest
  rw [PassM.get_bind_apply, hkept.openStruct, hopen] at hrest
  have hbuilt₁ : st₁.symbols.Built := hbuilt.imp fun _ hsteps => hsteps.trans hkept.tree
  have hhome₁ : st₁.home < st₁.symbols.modules.size := by rwa [hkept.home, hkept.modules]
  obtain ⟨id, owner, address, fields, page, location, flags, st₂, st₃, hflatten, howner,
    hsize, haddress,
    hstructs, hbuilt₂, hlabel, hforM, hsymbols, hstructs'⟩ := declareVariable_ok
      hbuilt₁ hhome₁ hrest
  obtain ⟨hstructs₃, hextends, howner₃, -⟩ := shown_of_forM hbuilt₂ hlabel hforM
  have hexists := exists_shown hbuilt₂ hlabel hforM
  have hiff := shown_iff hbuilt₂ hlabel hforM
  rw [hstructs, hkept.structs, ← hsymbols] at hexists hiff
  rw [hkept.structs] at hflatten hsize
  refine ⟨ty, count, st₁, id, owner, address, fields, htype, ?_, hflatten, ?_, howner,
    ?_, fun hfits => ⟨hsize, hfits.wordContents_eq hflatten, hexists, hiff, ?_⟩⟩
  · rw [hstructs', hstructs₃, hstructs, hkept.structs]
  · rwa [hsymbols]
  · rwa [hsymbols, hextends.qualifiedName_eq (hbuilt₂.coherent.home_lt hlabel)]
  · intro hdeclared hplain
    refine hiff.2 fun field hfield other hother hsame => ?_
    have hapart (name : Text) (d : StructDef) (hd : st.structs.get? name = some d) :
        StructTable.KeysApart st'.symbols.key d :=
      keysApart_of_plain (hdeclared.membersApart.closed name d hd)
        (hplain _ (mem_of_lookup hd))
    have hnodup := (nodup_keys hapart (StructTable.Within.refl _) hflatten).1
    rw [List.inj_on_of_nodup_map hnodup hfield hother hsame]

/-! ## Two declarations -/

/-- A pass in which the variable `v` lies at `$8000`. -/
def placing : Stage where
  kind := .assemble
  strict := true
  maxSteps := 0
  table := ⟨#[], []⟩
  previous := Symbols.empty false
  previousReusable := {}
  allocation := [("global.v".toList, 0x8000)]

/-- A state that has the structs which some directives have declared. -/
def withStructs (directives : List (StorageDirective × Text)) : State :=
  let st :=
    directives.foldl (fun st d => stateAfter (d.1.run [] d.2 placing) st) (.initial {} {} {})
  { State.initial {} {} {} with structs := st.structs, openStruct := st.openStruct }

theorem declared_withStructs (directives : List (StorageDirective × Text)) :
    Declared (withStructs directives) := by
  have hfold (st : State) (h : Declared st) :
      Declared (directives.foldl (fun st d => stateAfter (d.1.run [] d.2 placing) st) st) := by
    induction directives generalizing st with
    | nil => exact h
    | cons d directives ih => exact ih _ (h.directive placing d.1 [] d.2)
  exact (hfold _ (.start rfl rfl)).other rfl rfl

/-- Whether a variable can be declared, with a given result. -/
def declares (typeText : Text) (st : State) (test : State → Bool) : Bool :=
  match declareName typeText "v".toList false placing st with
  | .ok _ st' => test st'
  | .error _ _ => false

theorem exists_of_declares {typeText : Text} {test : State → Bool}
    (h : declares typeText st test = true) :
    ∃ st', declareName typeText "v".toList false placing st = .ok () st' ∧ test st' = true := by
  rw [declares] at h
  split at h
  next st' hrun => exact ⟨st', hrun, h⟩
  next => cases h

/-- Points, and a line with a point at its start and two more at its ends. -/
def drawing : State :=
  withStructs [(.beginStruct, "Point".toList), (.declare false, "byte, x".toList),
    (.declare false, "word, y".toList), (.endStruct, []), (.beginStruct, "Line".toList),
    (.declare false, "Point, start".toList), (.declare false, "Point[2], ends".toList),
      (.endStruct, [])]

/-- The fields of a line. -/
def drawingFields : List Field :=
  [⟨"start".toList, .struct "Point".toList, 1, 0⟩, ⟨"start.x".toList, .int 1 false, 1, 0⟩,
    ⟨"start.y".toList, .int 2 false, 1, 1⟩, ⟨"ends".toList, .struct "Point".toList, 2, 3⟩,
    ⟨"ends.x".toList, .int 1 false, 1, 3⟩, ⟨"ends.y".toList, .int 2 false, 1, 4⟩]

theorem flatten_line : drawing.structs.flatten (.struct "Line".toList) = .ok drawingFields := by
  decide +kernel

theorem address_eq_of_placing {qualified : Text} {address : Nat}
    (h : Allots placing qualified address) : address = 0x8000 := by
  rcases h with h | ⟨hkind, -⟩
  · obtain ⟨front, back, heq, -⟩ := List.lookup_eq_some_iff.1 h
    have hmem : (qualified, address) ∈ placing.allocation :=
      heq ▸ List.mem_append_right _ List.mem_cons_self
    exact (Prod.mk.inj (List.mem_singleton.1 hmem)).2
  · exact absurd rfl hkind

theorem fitsAt_line {address : Nat} (haddress : address = 0x8000) :
    drawing.structs.FitsAt (.struct "Line".toList) 1 address := by
  have hextents : ∀ entry ∈ drawing.structs.defs,
      drawing.structs.extent entry.2.members < 2 ^ 32 := by decide +kernel
  have hfields : ∀ field ∈ drawingFields, address + field.offset < 2 ^ 32 ∧
      field.offset + drawing.structs.bytes field.type * field.count < 2 ^ 32 := by
    rw [haddress]
    decide +kernel
  have hall (fields : List Field)
      (h : drawing.structs.flatten (.struct "Line".toList) = .ok fields) :
      fields = drawingFields := (Except.ok.inj (flatten_line.symm.trans h)).symm
  refine ⟨⟨fun _ _ name d _ hd => hextents (_, d) (mem_of_lookup hd), fun fields h => ?_⟩,
    by decide +kernel, fun fields h => ?_⟩
  · exact hall fields h ▸ fun field hfield => (hfields field hfield).2
  · exact hall fields h ▸ fun field hfield => (hfields field hfield).1

/-- Whether a type is read in a given way. -/
def reads (typeText : Text) (st : State) (expected : DataType × Nat) : Bool :=
  match readType typeText placing st with
  | .ok type _ => type == expected
  | .error _ _ => false

theorem eq_of_reads {typeText : Text} {expected type : DataType × Nat}
    (h : reads typeText st expected = true) (hrun : readType typeText placing st = .ok type st') :
    expected = type := by
  rw [reads, hrun] at h
  exact (beq_iff_eq.1 h).symm

theorem declareName_shows_fields_line :
    drawing.structs.flatten (.struct "Line".toList) = .ok drawingFields ∧
    ∃ st', declareName "Line".toList "v".toList false placing drawing = .ok () st' ∧
      ∃ ty count st₁ id owner address fields,
        readType "Line".toList placing drawing = .ok (ty, count) st₁ ∧
        drawing.structs.flatten ty = .ok fields ∧ st'.symbols.label? id = some owner ∧
        IsVariable st₁ "v".toList ty address owner ∧ drawing.structs.FitsAt ty count address ∧
        ∀ field ∈ fields, Shown st'.symbols owner field.path
          (field.contents drawing.structs address) := by
  have hrun : declares "Line".toList drawing (fun st' => !st'.symbols.caseSensitive) = true := by
    decide +kernel
  have hread : reads "Line".toList drawing (.struct "Line".toList, 1) = true := by decide +kernel
  obtain ⟨st', hrun, hcase⟩ := exists_of_declares hrun
  obtain ⟨ty, count, st₁, id, owner, address, fields, htype, -, hflatten, hlabel, howner, haddress,
    hshown⟩ := declareName_shows_fields ⟨false, .refl⟩ (by decide) (by decide +kernel) hrun
  cases eq_of_reads hread htype
  have hfits := fitsAt_line (address_eq_of_placing haddress)
  refine ⟨flatten_line, st', hrun, _, _, st₁, id, owner, address, fields, htype,
    hflatten, hlabel, howner, hfits, (hshown hfits).2.2.2.2 (declared_withStructs _) ?_⟩
  rw [Bool.eq_false_of_not_eq_true' hcase]
  decide +kernel

/-- A struct whose members differ in the case of a letter beyond ASCII. -/
def accented : State :=
  withStructs [(.beginStruct, "P".toList), (.declare false, "byte, É".toList),
    (.declare false, "byte, é".toList), (.endStruct, [])]

/-- The first member has no label of its own: its path leads to the second one. -/
theorem field_hidden_accent : Declared accented ∧ accented.symbols.Built ∧
    accented.openStruct = none ∧ accented.structs.flatten (.struct "P".toList) =
      .ok [⟨"É".toList, .int 1 false, 1, 0⟩, ⟨"é".toList, .int 1 false, 1, 1⟩] ∧
    ∃ st' owner, declareName "P".toList "v".toList false placing accented = .ok () st' ∧
      st'.symbols.label? 0 = some owner ∧ owner.info.value = Float.ofNat 0x8000 ∧
      ¬ Shown st'.symbols owner "É".toList (Float.ofNat 0x8000, 1) ∧
      Shown st'.symbols owner "É".toList (Float.ofNat 0x8001, 1) := by
  have hrun : declares "P".toList accented (fun st' => (st'.symbols.label? 0).any fun owner =>
      owner.info.value = Float.ofNat 0x8000 ∧
      ¬ Shown st'.symbols owner "É".toList (Float.ofNat 0x8000, 1) ∧
      Shown st'.symbols owner "É".toList (Float.ofNat 0x8001, 1)) = true := by
    decide +kernel
  obtain ⟨st', hrun, htest⟩ := exists_of_declares hrun
  obtain ⟨owner, howner, htest⟩ := (Option.any_eq_true _ _).1 htest
  exact ⟨declared_withStructs _, ⟨false, .refl⟩, by decide +kernel, by decide +kernel,
    st', owner, hrun, howner, of_decide_eq_true htest⟩

end StorageDirective

end MacroAssembler
