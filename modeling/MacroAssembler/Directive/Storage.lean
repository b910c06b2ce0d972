import MacroAssembler.Directive.Name
import MacroAssembler.Pass.Evaluate

/-!
# Structs and variables

Inside of a struct declaration a variable is a member.  Outside, it is a label whose address comes
from the allocator: it is placed after the draft pass, and the later passes look the address up by
the qualified name of the label.  A variable of a struct type has a label for every field.

Counts, sizes and addresses are exact.  They are those of 32 bits as long as they stay below that
limit.
-/

namespace MacroAssembler

namespace StorageDirective

open PassM

/-- The size of a type. -/
def sizeOf (ty : DataType) : PassM Nat := do
  ofExcept .symbol ((← get).structs.sizeOf ty)

/-- The fields of a type. -/
def fieldsOf (ty : DataType) : PassM (List Field) := do
  ofExcept .symbol ((← get).structs.flatten ty)

/-- Whether a text that is no type may be a number of bytes. -/
def startsNumber (text : Text) : Bool :=
  text.head?.any fun c => c.isDigit || c == '$' || c == '%' || c == '('

/-- The type and the count that a text stands for: a type, an array of it, or a number of
bytes. -/
def readType (text : Text) : PassM (DataType × Nat) := do
  let (name, countText) := splitArray text
  let count ←
    match countText with
    | some text => evalAddress text
    | none => pure 1
  match (← get).structs.resolveType name with
  | .ok ty => return (ty, count)
  | .error e =>
    if startsNumber name then
      let bytes ← evalAddress name
      return (.int 1 false, bytes * count)
    else throw (.symbol e)

/-- Adds a member to the open struct. -/
def addMember (owner : StructDef) (m : Member) (isTemporary : Bool) : PassM Unit := do
  if isTemporary then misuse .temporaryMember
  ofExcept .symbol (checkName m.name)
  if owner.members.any fun other => Text.sameIgnoringCase other.name m.name then
    misuse (.duplicateMember owner.name m.name)
  modify fun st => { st with openStruct := some { owner with members := owner.members ++ [m] } }

/-- The address of a variable by the qualified name of its label.  The labels passes may not have
one yet. -/
def addressOf (name qualified : Text) : PassM Nat := do
  let stage ← read
  match stage.allocation.lookup qualified with
  | some address => return address
  | none => if stage.kind == .assemble then misuse (.neverAllocated name) else return 0

/-- Defines the label of a variable and gives it the address of the variable.  The result is the
number and the qualified name of the label, and the address. -/
def defineVariable (name : Text) (info : LabelDef) : PassM (LabelId × Text × Nat) := do
  let id ← defineLabel name info false
  let symbols := (← get).symbols
  let qualified := ((symbols.label? id).map symbols.qualifiedName).getD []
  let address ← addressOf name qualified
  modify fun st => { st with symbols := st.symbols.modifyLabel id fun label =>
    { label with info := { label.info with value := Float.ofNat address } } }
  return (id, qualified, address)

/-- Defines the label of a field of the variable with a label, which lies at an address. -/
def defineField (id : LabelId) (address page : Nat) (location : Option Location)
    (flags : LabelFlags) (field : Field) : PassM Unit := do
  let size := (← sizeOf field.type) * field.count
  let info : LabelDef :=
    { value := Float.ofNat (address + field.offset), page := page, location := location,
      type := some field.type, count := field.count, size := size,
      flags := { flags with isMember := true } }
  let _ ← onSymbols (Symbols.defineMember id field.path info)

/-- Declares a variable that is not a member. -/
def declareVariable (ty : DataType) (count : Nat) (name : Text) (isTemporary : Bool) :
    PassM Unit := do
  let size := (← sizeOf ty) * count
  if size = 0 then misuse (.variableWithoutSize name)
  let st ← get
  let flags : LabelFlags := { isVariable := true, isTemporary := isTemporary }
  let info : LabelDef :=
    { value := 0, page := st.pages.current, location := st.location, type := some ty,
      count := count, size := size, flags := flags }
  let (id, qualified, address) ← defineVariable name info
  (← fieldsOf ty).forM (defineField id address st.pages.current st.location flags)
  let decl : VarDecl := ⟨qualified, st.home, isTemporary, size⟩
  modify fun st => { st with varDecls := st.varDecls ++ [decl] }

/-- Declares a variable or a member. -/
def declareName (typeText name : Text) (isTemporary : Bool) : PassM Unit := do
  let (ty, count) ← readType typeText
  match (← get).openStruct with
  | some d => addMember d ⟨name, ty, count⟩ isTemporary
  | none => declareVariable ty count name isTemporary

/-- Completes the open struct.  Its fields become labels for their offsets. -/
def finishStruct : PassM Unit := do
  match (← get).openStruct with
  | none => misuse .endstructOutside
  | some d =>
    modify fun st => { st with openStruct := none }
    let structs ← ofExcept .symbol ((← get).structs.define d)
    modify fun st => { st with structs := structs }
    (← fieldsOf (.struct d.name)).forM fun field => do
      let size := (← sizeOf field.type) * field.count
      let info : LabelDef :=
        { value := Float.ofNat field.offset, location := (← get).location,
          type := some field.type, count := field.count, size := size,
          flags := { isMember := true } }
      let _ ← defineLabel (d.name ++ '.' :: field.path) info true

/-- Executes a directive on structs and variables. -/
def run (d : StorageDirective) (name rest : Text) : PassM Unit :=
  let args := Text.arguments rest
  match d, args with
  | .beginStruct, [struct] => do
    match (← get).openStruct with
    | some d => misuse (.structInside d.name)
    | none =>
      ofExcept .symbol (checkName struct)
      modify fun st => { st with openStruct := some ⟨struct, []⟩ }
  | .beginStruct, _ => misuse (.argumentCount name 1 1 args.length)
  | .endStruct, _ => finishStruct
  | .declare isTemporary, [ty, var] => declareName ty var isTemporary
  | .area, [startArg, sizeArg] => do
    let start ← evalAddress startArg
    let size ← evalAddress sizeArg
    modify fun st => { st with varAreas := st.varAreas ++ [{ start := start, size := size }] }
  | .declare _, _ | .area, _ => misuse (.argumentCount name 2 2 args.length)

end StorageDirective

end MacroAssembler
