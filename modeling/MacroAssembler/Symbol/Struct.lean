import MacroAssembler.DataType
import MacroAssembler.Symbol.Name

/-!
# Structs

A struct is a list of members, each of some type and repeated some number of times.  The members
lie one behind the other without gaps.  A member may be a struct itself, though a struct can not
contain itself, at whatever distance.

Sizes and layouts recurse into the member types.  The structs that are being worked out are taken
off the table on the way down.  So the table shrinks, and a struct that is missing because it is
being worked out is told apart from one that was never defined.

Sizes and offsets are exact.  They are those of 32 bits as long as they stay below that limit.
-/

namespace MacroAssembler

/-- A member of a struct. -/
structure Member where
  name : Text
  type : DataType
  count : Nat
  deriving DecidableEq, Repr

/-- A struct, by the name it was declared with. -/
structure StructDef where
  name : Text
  members : List Member
  deriving DecidableEq, Repr

/-- A member of a struct or of one of its members, by its path and its distance from the start. -/
structure Field where
  path : Text
  type : DataType
  count : Nat
  offset : Nat
  deriving DecidableEq, Repr

/-- Splits `type[count]` into the name of the type and the expression for the count. -/
def splitArray (text : Text) : Text × Option Text :=
  let text := Text.trim text
  match (Text.beforeLast? ']' text).bind (Text.splitAtFirst '[') with
  | some (type, count) => (Text.trim type, some (Text.trim count))
  | none => (text, none)

/-- The structs under their names in lower case. -/
structure StructTable where
  defs : List (Text × StructDef) := []
  deriving DecidableEq, Repr

namespace StructTable

/-- The struct with a name, ignoring the case of ASCII letters. -/
def get? (table : StructTable) (name : Text) : Option StructDef :=
  table.defs.lookup (Text.asciiLower name)

/-- The table without the struct with a name. -/
def erase (table : StructTable) (name : Text) : StructTable :=
  ⟨table.defs.filter fun (key, _) => key != Text.asciiLower name⟩

/-- Adds a struct.  Its name must be new. -/
def define (table : StructTable) (d : StructDef) : Except SymbolError StructTable :=
  match table.get? d.name with
  | some _ => .error (.structRedefined d.name)
  | none => .ok ⟨(Text.asciiLower d.name, d) :: table.defs⟩

/-- The type with a name: a built-in one, or a struct. -/
def resolveType (table : StructTable) (name : Text) : Except SymbolError DataType :=
  match DataType.builtin name, table.get? name with
  | some ty, _ => .ok ty
  | none, some d => .ok (.struct d.name)
  | none, none => .error (.unknownType name)

theorem length_erase_lt {table : StructTable} {name : Text} {d : StructDef}
    (h : table.get? name = some d) : (table.erase name).defs.length < table.defs.length := by
  obtain ⟨key, hmem, hkey⟩ : ∃ key, (key, d) ∈ table.defs ∧ key = Text.asciiLower name := by
    obtain ⟨front, back, heq, -⟩ := List.lookup_eq_some_iff.1 h
    exact ⟨_, by rw [heq]; simp, rfl⟩
  have := List.length_filter_lt_length_iff_exists (l := table.defs)
    (p := fun x => x.1 != Text.asciiLower name)
  exact this.2 ⟨_, hmem, by simp [hkey]⟩

/-- Why a struct is not on the table: it is one of those being worked out, or unknown. -/
def missing (busy : List Text) (name : Text) : SymbolError :=
  if busy.contains (Text.asciiLower name) then .recursiveStruct name else .unknownType name

/-- Size of a type, while the structs `busy` are being worked out. -/
def sizeWithin (table : StructTable) (busy : List Text) (ty : DataType) :
    Except SymbolError Nat :=
  match ty with
  | .struct name =>
    match _h : table.get? name with
    | none => .error (missing busy name)
    | some d =>
      d.members.foldlM (fun size member => do
        let inner ← sizeWithin (table.erase name) (Text.asciiLower name :: busy) member.type
        return size + inner * member.count) 0
  | ty => .ok (ty.size.getD 0)
termination_by table.defs.length
decreasing_by exact length_erase_lt _h

/-- Size of a type in bytes. -/
def sizeOf (table : StructTable) (ty : DataType) : Except SymbolError Nat :=
  table.sizeWithin [] ty

/-- The path of a member below a path that may be empty. -/
def joinPath (path name : Text) : Text :=
  if path.isEmpty then name else path ++ '.' :: name

/-- The fields of a type that starts at `base`, below `path`, while the structs `busy` are being
worked out. -/
def fieldsWithin (whole table : StructTable) (busy : List Text) (path : Text) (base : Nat)
    (ty : DataType) : Except SymbolError (List Field) :=
  match ty with
  | .struct name =>
    match _h : table.get? name with
    | none => .error (missing busy name)
    | some d => do
      let (fields, _) ← d.members.foldlM (fun (fields, offset) member => do
        let path := joinPath path member.name
        let inner ← fieldsWithin whole (table.erase name) (Text.asciiLower name :: busy) path
          offset member.type
        let size ← whole.sizeOf member.type
        return (fields ++ ⟨path, member.type, member.count, offset⟩ :: inner,
          offset + size * member.count)) ([], base)
      return fields
  | _ => .ok []
termination_by table.defs.length
decreasing_by exact length_erase_lt _h

/-- Every member of a struct with its offset.  A member that is a struct is followed by its own
members, under dotted paths; of a repeated member the first one is shown. -/
def flatten (table : StructTable) (ty : DataType) : Except SymbolError (List Field) :=
  fieldsWithin table table [] [] 0 ty

end StructTable

end MacroAssembler
